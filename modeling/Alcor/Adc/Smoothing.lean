import Mathlib.Algebra.Ring.Nat
import Mathlib.Data.List.FinRange
import Alcor.Lib.Run
import Alcor.Buffer.Buf

/-!
# `Alcor.Adc.Smoothing`: samples and sequences

How `src/elua_adc.c` smooths the samples of a channel, and which channels
a device samples one after the other. The interrupt handler comes between
any two reads and writes of the program, so the functions that the
program calls are sequences of steps.

* `smoothOrWrite`: what the handler does with a sample.
* `adcUpdateDevSequence`: the sequence is built anew when the set of
  active channels has changed.
* `Event`, `step`: the runs of a device.
* `State.step`: the runs of a channel with its device, in which other
  channels are active, too.
* `State.Smooths`, `Dev.Updates`: what is to hold.
-/

set_option autoImplicit false

/-!
## The smoothing of the ADC samples

A channel of `src/elua_adc.c` with its sample buffer, and the array
`sample_buf` of the device, into which `value_ptr` points. The array is
shared: the handler stores the sample of the `i`-th channel of the
sequence in its cell `i`, and the cell that a channel points at may be
that of another channel once the sequence has changed.

An access outside the smoothing ring or the sample buffer is `none`.
-/

namespace Alcor.Adc

open Lib (Mem leBytes leVal)
open Alcor.Buffer

/-- `elua_adc_ch_state`, with the buffer of the channel. -/
structure Channel where
  opPending : Bool
  freerunning : Bool
  smoothReady : Bool
  valueFresh : Bool
  logsmoothlen : Nat
  smoothidx : Nat
  smoothsum : UInt32
  /-- The block at `smoothbuf`; `NULL` has no elements. -/
  smoothbuf : List UInt16
  reqsamples : Nat
  /-- `value_ptr`, as an index of `sample_buf`. -/
  valuePtr : Option Nat
  /-- `sample_buf` of the device. -/
  sampleBuf : Nat → UInt16
  buf : BufDesc

/-- What `value_ptr` points at. It is only read where a sample has come, so not at `NULL`. -/
def Channel.value (c : Channel) : UInt16 := (c.valuePtr.map c.sampleBuf).getD 0

/-- A sample is stored in a cell of `sample_buf`. -/
def Channel.store (c : Channel) (k : Nat) (v : UInt16) : Channel :=
  { c with sampleBuf := Function.update c.sampleBuf k v }

/-- `SMOOTH_REALSIZE`. -/
def Channel.smoothRealsize (c : Channel) : Nat := 1 <<< c.logsmoothlen

/-- Smoothing is on and still warms up. -/
def Channel.warming (c : Channel) : Bool := decide (c.logsmoothlen > 0) && !c.smoothReady

/-- `adc_samples_available`. -/
def adcSamplesAvailable (c : Channel) : Nat :=
  if bufGetCount c.buf = 0 then c.valueFresh.toNat else bufGetCount c.buf

/-! ### `adc_smooth_data` -/

/-- Up to the test of `value_fresh`: the index wraps, and the oldest value leaves the sum. -/
def smoothOut (c : Channel) : Option Channel := do
  let c := if c.smoothidx = c.smoothRealsize then { c with smoothidx := 0, smoothReady := true }
    else c
  let oldest ← c.smoothbuf[c.smoothidx]?
  return { c with smoothsum := c.smoothsum - oldest.toUInt32 }

/-- From the store of the sample on. -/
def smoothIn (c : Channel) (sample : UInt16) : Option Channel :=
  if c.smoothidx < c.smoothbuf.length then
    some { c with
      smoothbuf := c.smoothbuf.set c.smoothidx sample
      smoothsum := c.smoothsum + sample.toUInt32
      smoothidx := (c.smoothidx + 1) % 2 ^ 16 }
  else none

/-! ### The interrupt handler -/

/-- The bytes of a sample in memory. -/
def sampleMem (v : UInt16) : Mem := fun i => (leBytes 2 v.toNat).getD i 0

/-- The sample of which these are the bytes. -/
def ofBytes (bs : List UInt8) : UInt16 := UInt16.ofNat (leVal bs)

/-- The handler smooths a fresh value, writes it into the buffer or leaves it. -/
def smoothOrWrite (c : Channel) : Option Channel :=
  if c.warming then do
    -- `adc_smooth_data`, which finds the value fresh
    let c ← smoothOut c
    smoothIn { c with valueFresh := false } c.value
  else if c.reqsamples > 1 then do
    let (_, buf) ← bufWrite c.buf (sampleMem c.value)
    return { c with buf, valueFresh := false }
  else some c

/-- The samples that were requested are there, and the channel is not to go on. -/
def Channel.enough (c : Channel) : Bool :=
  decide (adcSamplesAvailable c ≥ c.reqsamples) && !c.freerunning

end Alcor.Adc

/-!
## The channel sequence of the ADC

The device of `src/elua_adc.c` with its sequence of channels, and what
`src/platform/lm3s/platform.c` does with it: the interrupt handler, which
takes a sample of each channel in the sequence, and the sequencer, which
is set up from it. `NUM_ADC` is the parameter `n`, at most 32 on every
board; `seq_ctr` and `seq_len` hold it in their 8 bits.

The samples themselves are not here: which channels have had the samples
requested of them is chosen with the interrupt. The runs below take this
from the samples, for one channel.
-/

namespace Alcor.Adc.Device

variable {n : Nat}

/-- `elua_adc_dev_state`, and of each `elua_adc_ch_state` what the sequence uses. The state of
channel `id` is `id` itself. -/
structure Dev (n : Nat) where
  /-- `ch_state`, with `none` for `NULL`. -/
  chState : Nat → Option (Fin n) := fun _ => none
  /-- `value_ptr` of each channel, as an index of `sample_buf`. -/
  valuePtr : Fin n → Option Nat := fun _ => none
  valueFresh : Fin n → Bool := fun _ => false
  opPending : Fin n → Bool := fun _ => false
  chActive : BitVec 32 := 0
  lastChActive : BitVec 32 := 0
  forceReseq : Bool := false
  running : Bool := false
  seqCtr : Nat := 0
  seqLen : Nat := 0

/-- The bit of a channel. -/
def chBit (id : Fin n) : BitVec 32 := 1#32 <<< id.val

/-- `ACTIVATE_CHANNEL`. -/
def Dev.activateChannel (d : Dev n) (id : Fin n) : Dev n :=
  { d with chActive := d.chActive ||| chBit id }

/-- `INACTIVATE_CHANNEL`. -/
def Dev.inactivateChannel (d : Dev n) (id : Fin n) : Dev n :=
  { d with chActive := d.chActive &&& ~~~ chBit id }

/-- The channel is in the set. -/
def isActive (active : BitVec 32) (id : Fin n) : Bool := decide ((active &&& chBit id).toNat > 0)

/-! ### `adc_update_dev_sequence` -/

/-- The sequencer is set up for every entry up to the last. These are the entries it goes
through: the last one is `ch_state[0]` when there are none. -/
def platformAdcUpdateSequence (d : Dev n) : List (Option (Fin n)) :=
  (List.range (d.seqLen - 1)).map d.chState ++ [d.chState (d.seqLen - 1)]

/-- A channel is the next of the sequence. -/
def Dev.place (d : Dev n) (id : Fin n) : Dev n :=
  { d with
    chState := Function.update d.chState d.seqCtr (some id)
    valuePtr := Function.update d.valuePtr id (some d.seqCtr)
    valueFresh := Function.update d.valueFresh id false
    seqCtr := d.seqCtr + 1 }

/-- The next channel, if it is active. The place of the current channel is kept. -/
def placeChannel (previd : Nat) (p : Dev n × Nat) (id : Fin n) : Dev n × Nat :=
  if isActive p.1.chActive id then
    (p.1.place id, if id.val = previd then p.1.seqCtr else p.2)
  else p

/-- The rest of the sequence, `k` entries. -/
def nullRest : Nat → Dev n → Dev n
  | 0,     d => d
  | k + 1, d =>
    nullRest k { d with chState := Function.update d.chState d.seqCtr none, seqCtr := d.seqCtr + 1 }

/-- The sequence has to be rebuilt. -/
def Dev.stale (d : Dev n) : Bool := decide (d.chActive ≠ d.lastChActive) || d.forceReseq

/-- The statements under the test. -/
def rebuild (previd : Nat) (d : Dev n) : Dev n × List (Option (Fin n)) :=
  let (d, tmpSeqCtr) := (List.finRange n).foldl (placeChannel previd) ({ d with seqCtr := 0 }, 0)
  let d := { d with seqLen := d.seqCtr }
  let d := nullRest (n - d.seqCtr) d
  let entries := platformAdcUpdateSequence { d with seqCtr := 0 }
  ({ d with lastChActive := d.chActive, seqCtr := tmpSeqCtr, forceReseq := false }, entries)

/-- `adc_update_dev_sequence`, with the entries it dereferences. Where `NULL` is read, `nullId` is
found in place of the `id`. -/
def adcUpdateDevSequence (nullId : Nat) (d : Dev n) : Dev n × List (Option (Fin n)) :=
  let cur := d.chState d.seqCtr
  let previd := match cur with
    | some id => id.val
    | none    => nullId
  if d.stale then
    let (d', entries) := rebuild previd d
    (d', cur :: entries)
  else (d, [cur])

/-! ### What changes the set of active channels -/

/-- `adc_setup_channel`, with the outcome of `buf_set`. -/
def adcSetupChannel (id : Fin n) (bufOk : Bool) (d : Dev n) : Dev n :=
  if bufOk then
    { d with opPending := Function.update d.opPending id true }.activateChannel id
  else d

/-- `platform_adc_stop`. -/
def platformAdcStop (id : Fin n) (d : Dev n) : Dev n :=
  let d := { d with opPending := Function.update d.opPending id false }.inactivateChannel id
  if d.chActive = 0 then { d with running := false } else d

/-- `platform_adc_start_sequence`. -/
def platformAdcStartSequence (nullId : Nat) (d : Dev n) : Dev n :=
  if d.running then d
  else { (adcUpdateDevSequence nullId d).1 with running := true }

/-- What the interrupt handler finds of the samples of a channel. -/
structure Sampled (n : Nat) where
  /-- The sample was smoothed, or written to the buffer. -/
  taken : Fin n → Bool
  /-- The channel has the samples requested of it, and is not free running. -/
  enough : Fin n → Bool

/-- A sample is taken for the current entry. -/
def sampleEntry (s : Sampled n) (d : Dev n) : Dev n :=
  match d.chState d.seqCtr with
  | some id =>
    let d := { d with valueFresh := Function.update d.valueFresh id (!s.taken id) }
    if s.enough id then platformAdcStop id d else d
  | none    => d

/-- The loop of `ADCIntHandler`, for `k` more entries. -/
def sampleEntries (s : Sampled n) : Nat → Dev n → Dev n
  | 0,     d => d
  | k + 1, d => sampleEntries s k { sampleEntry s d with seqCtr := d.seqCtr + 1 }

/-- `ADCIntHandler`, up to the update. -/
def sampleSequence (s : Sampled n) (d : Dev n) : Dev n :=
  { sampleEntries s d.seqLen { d with seqCtr := 0 } with seqCtr := 0 }

/-- `ADCIntHandler`. -/
def adcIntHandler (nullId : Nat) (s : Sampled n) (d : Dev n) : Dev n :=
  let d := sampleSequence s d
  if d.running then (adcUpdateDevSequence nullId d).1 else d

/-! ### Runs -/

/-- What happens to the device. -/
inductive Event (n : Nat) where
  /-- `adc_setup_channel`, with the outcome of `buf_set`. -/
  | setup (id : Fin n) (bufOk : Bool)
  | stop (id : Fin n)
  | interrupt (s : Sampled n)
  | start
  /-- `force_reseq` is set. -/
  | force
  /-- Any other call of `adc_update_dev_sequence`. -/
  | update

def step (nullId : Nat) (d : Dev n) : Event n → Option (Dev n)
  | .setup id bufOk => some (adcSetupChannel id bufOk d)
  | .stop id        => some (platformAdcStop id d)
  | .interrupt s    => some (adcIntHandler nullId s d)
  | .start          => some (platformAdcStartSequence nullId d)
  | .force          => some { d with forceReseq := true }
  | .update         => some (adcUpdateDevSequence nullId d).1

/-- The state in which the event enters `adc_update_dev_sequence`, if it does. -/
def Event.entry (d : Dev n) : Event n → Option (Dev n)
  | .interrupt s => if (sampleSequence s d).running then some (sampleSequence s d) else none
  | .start       => if d.running then none else some d
  | .update      => some d
  | _            => none

/-- The event rebuilds the sequence, and gives an active channel another cell in it. -/
def Event.replaces (e : Event n) (d : Dev n) (id : Fin n) : Bool :=
  (e.entry d).any fun d' => d'.stale && isActive d'.chActive id

/-! ### A sequence -/

/-- The channels of the set, in increasing order. -/
def activeChannels (active : BitVec 32) : List (Fin n) := (List.finRange n).filter (isActive active)

/-- The sequence names exactly these channels, in this order and with their sample slots. -/
structure Dev.Sequenced (d : Dev n) (chs : List (Fin n)) : Prop where
  seqLen : d.seqLen = chs.length
  entries : ∀ i, d.chState i = chs[i]?
  slots : ∀ i id, chs[i]? = some id → d.valuePtr id = some i
  seqCtr : d.seqCtr < d.seqLen ∨ d.seqCtr = 0

/-- What the update of the sequence has to do. -/
structure Dev.Updates (nullId : Nat) (d : Dev n) : Prop where
  /-- It dereferences no `NULL` entry. -/
  no_null : none ∉ (adcUpdateDevSequence nullId d).2
  sequenced : (adcUpdateDevSequence nullId d).1.Sequenced (activeChannels d.chActive)

end Alcor.Adc.Device

/-!
## Runs of a channel in its device

The program calls `adc_update_smoothing`, `adc_flush_smoothing` and
`adc_get_processed_sample` for a channel, and `ADCIntHandler` of
`src/platform/lm3s/platform.c` may come between any two of their steps,
with a sample of every channel in the sequence. A step is one statement,
or, in `adc_smooth_data`, the statements up to the test of `value_fresh`
and those behind the sample. The handler does not touch what these use
while a sample is processed.

The handler goes through the sequence, whether the channel is still in it
or not, and updates the sequence in the end. Between two calls for the
channel the program does other things with the device (`DeviceCall`).
-/

namespace Alcor.Adc

open Lib (Mem)
open Alcor.Buffer
open Device (Dev Sampled)

variable {n : Nat}

/-! ### The channel and the device -/

/-- The device, with the state of channel `id`. -/
def Channel.toDev (c : Channel) (id : Fin n) (d : Dev n) : Dev n :=
  { d with
    valuePtr := Function.update d.valuePtr id c.valuePtr
    valueFresh := Function.update d.valueFresh id c.valueFresh
    opPending := Function.update d.opPending id c.opPending }

/-- The channel, with what the device did to it. -/
def Channel.ofDev (c : Channel) (id : Fin n) (d : Dev n) : Channel :=
  { c with valuePtr := d.valuePtr id, valueFresh := d.valueFresh id, opPending := d.opPending id }

/-! ### The interrupt handler -/

/-- What an interrupt brings. -/
structure Interrupt (n : Nat) where
  /-- `tmpbuff`, the samples of the sequence. -/
  tmpbuff : Nat → UInt16
  /-- What the handler finds of the samples of the other channels. -/
  others : Sampled n

/-- What it finds of all channels, if this of channel `id`. -/
def Interrupt.sampled (i : Interrupt n) (id : Fin n) (taken enough : Bool) : Sampled n :=
  ⟨Function.update i.others.taken id taken, Function.update i.others.enough id enough⟩

/-- The body of the loop of `ADCIntHandler`. -/
def handleEntry (id : Fin n) (i : Interrupt n) (c : Channel) (d : Dev n) :
    Option (Channel × Dev n) :=
  match d.chState d.seqCtr with
  | some j => do
      let c := c.store d.seqCtr (i.tmpbuff d.seqCtr)
      let c ← if j = id then smoothOrWrite { c with valueFresh := true } else some c
      let d := Device.sampleEntry (i.sampled id (!c.valueFresh) c.enough) (c.toDev id d)
      return (c.ofDev id d, d)
  | none   => some (c, d)

/-- The loop of `ADCIntHandler`, for `k` more entries. -/
def handleEntries (id : Fin n) (i : Interrupt n) :
    Nat → Channel → Dev n → Option (Channel × Dev n)
  | 0,     c, d => some (c, d)
  | k + 1, c, d => do
      let (c, d') ← handleEntry id i c d
      handleEntries id i k c { d' with seqCtr := d.seqCtr + 1 }

/-- `ADCIntHandler`. -/
def adcIntHandler (nullId : Nat) (id : Fin n) (i : Interrupt n) (c : Channel) (d : Dev n) :
    Option (Channel × Dev n) := do
  let (c, d) ← handleEntries id i d.seqLen c { c.toDev id d with seqCtr := 0 }
  let d := { d with seqCtr := 0 }
  if d.running then
    let d := (Device.adcUpdateDevSequence nullId d).1
    return (c.ofDev id d, d)
  else return (c, d)

/-! ### The program -/

/-- The statements of `adc_update_smoothing` and `adc_flush_smoothing`. -/
inductive Action where
  /-- The stop, if an operation is pending. -/
  | stop
  /-- The test for another length. The reallocation gets this memory or fails. -/
  | resize (loglen : Nat) (alloc : Option (Nat → UInt16))
  | setLen (loglen : Nat)
  | realloc (loglen : Nat) (alloc : Option (Nat → UInt16))
  | lenZero
  | sumZero
  | readyZero
  | idxZero
  /-- `PLATFORM_ERR`, unless the length is 0. -/
  | allocFailed (loglen : Nat)
  /-- The test for a ring, and its length. -/
  | zeroRing
  /-- `smoothbuf[ i++ ] = 0`, up to `n`. -/
  | zero (i n : Nat)
  /-- `buf_flush`. -/
  | bufFlush

/-- A statement in front of others. -/
def Action.perform (rest : List Action) (c : Channel) : Action → Option (List Action × Channel)
  | .stop                 => some (rest, if c.opPending then { c with opPending := false } else c)
  | .resize loglen alloc  =>
    if loglen ≠ c.logsmoothlen then some (.setLen loglen :: .realloc loglen alloc :: rest, c)
    else some (rest, c)
  | .setLen loglen        => some (rest, { c with logsmoothlen := loglen })
  | .realloc loglen alloc =>
    match alloc with
    | some m => some (rest, { c with
        smoothbuf := (List.range c.smoothRealsize).map fun i => (c.smoothbuf[i]?).getD (m i) })
    | none   =>
      some (.lenZero :: .sumZero :: .readyZero :: .idxZero :: .allocFailed loglen :: rest,
        { c with smoothbuf := [] })
  | .lenZero              => some (rest, { c with logsmoothlen := 0 })
  | .sumZero              => some (rest, { c with smoothsum := 0 })
  | .readyZero            => some (rest, { c with smoothReady := false })
  | .idxZero              => some (rest, { c with smoothidx := 0 })
  | .allocFailed loglen   => some (if loglen ≠ 0 then [] else rest, c)
  | .zeroRing             =>
    some (if c.logsmoothlen > 0 then .zero 0 c.smoothRealsize :: rest else rest, c)
  | .zero i n             =>
    if i < n then
      if i < c.smoothbuf.length then
        some (.zero (i + 1) n :: rest, { c with smoothbuf := c.smoothbuf.set i 0 })
      else none
    else some (rest, c)
  | .bufFlush             => some (rest, { c with buf := Buffer.bufFlush c.buf })

/-- What the statement does to the device: only the stop does anything, if an operation is
pending. -/
def Action.onDevice (id : Fin n) (c : Channel) (d : Dev n) : Action → Dev n
  | .stop => if c.opPending then Device.platformAdcStop id (c.toDev id d) else d
  | _     => d

/-- `adc_flush_smoothing`. -/
def adcFlushSmoothing : List Action := [.idxZero, .sumZero, .readyZero, .zeroRing]

/-- `adc_update_smoothing`. -/
def adcUpdateSmoothing (loglen : Nat) (alloc : Option (Nat → UInt16)) : List Action :=
  .stop :: .resize loglen alloc :: (adcFlushSmoothing ++ [.bufFlush])

/-- Where the program is. In `adc_get_processed_sample`, `smooth` says whether smoothing is on. -/
inductive Pc where
  /-- These statements are left of an update or a flush; with none left, in no call. -/
  | reset (rest : List Action)
  /-- Before the test for samples. -/
  | process
  /-- Before the test for smoothing. -/
  | choose
  /-- Before `adc_smooth_data`. -/
  | smoothOut
  /-- Before the test of `value_fresh`. -/
  | testFresh (smooth : Bool)
  | takeValue (smooth : Bool)
  | clearFresh (smooth : Bool)
  /-- In `buf_read`. -/
  | readBuf (smooth : Bool) (phase : ReadPhase)
  /-- Before the store into the ring. -/
  | smoothIn
  /-- Before the decrement of `reqsamples`. -/
  | countDown (smooth : Bool)
  /-- Before the return. -/
  | deliver (smooth : Bool)

/-- Behind the sample. -/
def Pc.taken : Bool → Pc
  | true  => .smoothIn
  | false => .countDown false

/-- A processed sample, and what there was when it was returned. -/
structure Result where
  value : UInt16
  /-- The length of the smoothing, as a logarithm; 0 when it is off. -/
  loglen : Nat
  /-- The samples so far, in the order of their arrival. -/
  arrived : List UInt16
  /-- How many of them wait to be processed. -/
  waiting : Nat

/-- The channel, the device, the program and the samples. -/
structure State (n : Nat) where
  ch : Channel
  dev : Dev n := {}
  pc : Pc := .reset []
  /-- The variable `sample`. -/
  sample : UInt16 := 0
  /-- The samples of the channel that the handler had. -/
  arrived : List UInt16 := []
  /-- The samples that were returned. -/
  results : List Result := []

/-- The return from `adc_get_processed_sample`. -/
def State.deliver (s : State n) (smooth : Bool) : State n :=
  { s with
    pc := .reset []
    results := s.results ++ [{
      value := if smooth then UInt16.ofNat (s.ch.smoothsum.toNat >>> s.ch.logsmoothlen)
        else s.sample
      loglen := s.ch.logsmoothlen
      arrived := s.arrived
      waiting := bufGetCount s.ch.buf + s.ch.valueFresh.toNat }] }

/-- Behind a step of `buf_read`. -/
def State.afterRead (s : State n) (smooth : Bool) : ReadResult → State n
  | .running phase => { s with pc := .readBuf smooth phase }
  | .underflow     => { s with pc := .taken smooth }
  | .ok data       => { s with pc := .taken smooth, sample := ofBytes data }

/-- The next step of the program. -/
def State.go (id : Fin n) (s : State n) : Option (State n) :=
  match s.pc with
  | .reset []            => some s
  | .reset (a :: rest)   => do
      let (rest, ch) ← a.perform rest s.ch
      return { s with pc := .reset rest, ch, dev := a.onDevice id s.ch s.dev }
  | .process             =>
    some { s with sample := 0, pc := if adcSamplesAvailable s.ch > 0 then .choose else .reset [] }
  | .choose              =>
    some { s with
      pc := if s.ch.logsmoothlen > 0 ∧ s.ch.smoothReady = true then .smoothOut
        else if s.ch.logsmoothlen = 0 then .testFresh false
        else .reset [] }
  | .smoothOut           => do
      let ch ← Adc.smoothOut s.ch
      return { s with pc := .testFresh true, ch }
  | .testFresh smooth    =>
    some { s with pc := if s.ch.valueFresh then .takeValue smooth else .readBuf smooth .idle }
  | .takeValue smooth    => some { s with pc := .clearFresh smooth, sample := s.ch.value }
  | .clearFresh smooth   =>
    some { s with pc := .taken smooth, ch := { s.ch with valueFresh := false } }
  | .readBuf smooth phase => do
      let (res, buf) ← readStep s.ch.buf phase
      return { s with ch := { s.ch with buf } }.afterRead smooth res
  | .smoothIn            => do
      let ch ← Adc.smoothIn s.ch s.sample
      return { s with pc := .countDown true, ch }
  | .countDown smooth    =>
    some { s with pc := .deliver smooth, ch := { s.ch with reqsamples := s.ch.reqsamples - 1 } }
  | .deliver smooth      => some (s.deliver smooth)

/-- A call of the program. -/
inductive Op where
  /-- `adc_update_smoothing`. -/
  | update (loglen : Fin 16) (alloc : Option (Nat → UInt16))
  /-- `adc_flush_smoothing`. -/
  | flush
  /-- `adc_get_processed_sample`. -/
  | process

/-- Where a call begins. -/
def Op.start : Op → Pc
  | .update loglen alloc => .reset (adcUpdateSmoothing loglen alloc)
  | .flush               => .reset adcFlushSmoothing
  | .process             => .process

/-- What the program does with the device between two calls for the channel. -/
inductive DeviceCall (n : Nat) where
  /-- `adc_setup_channel`. For the channel itself it asks for as many samples as the buffer has
  elements, so that the buffer stays. -/
  | setup (j : Fin n)
  /-- `platform_adc_stop`. -/
  | stop (j : Fin n)
  /-- `platform_adc_start_sequence`. -/
  | start
  /-- `force_reseq` is set. -/
  | force

def DeviceCall.event : DeviceCall n → Device.Event n
  | .setup j => .setup j true
  | .stop j  => .stop j
  | .start   => .start
  | .force   => .force

/-- What a call on the device leaves of the channel. `d` is the device behind it. -/
def DeviceCall.leave (id : Fin n) (c : Channel) (d : Dev n) : DeviceCall n → Channel
  | .setup j =>
    if j = id then { c.ofDev id d with reqsamples := bufGetSize c.buf } else c.ofDev id d
  | _        => c.ofDev id d

/-- What happens next. -/
inductive Event (n : Nat) where
  /-- The program calls, if it is in no call. -/
  | call (op : Op)
  /-- The program goes on. -/
  | go
  /-- The program uses the device, if it is in no call. -/
  | device (call : DeviceCall n)
  | interrupt (i : Interrupt n)

/-- The program is in no call. -/
def Pc.isIdle : Pc → Bool
  | .reset [] => true
  | _         => false

/-- The program is in no call, or has not yet looked for samples. -/
def Pc.isBefore : Pc → Bool
  | .reset []  => true
  | .process   => true
  | _          => false

/-- The program is in an update or a flush. -/
def Pc.isResetting : Pc → Bool
  | .reset (_ :: _) => true
  | _               => false

/-- The value was read and is still fresh. -/
def Pc.isClearing : Pc → Bool
  | .clearFresh _ => true
  | _             => false

/-- The place of the channel in the sequence. -/
def State.place (id : Fin n) (s : State n) : Option Nat :=
  (List.range s.dev.seqLen).find? fun k => s.dev.chState k = some id

/-- One step. -/
def State.step (nullId : Nat) (id : Fin n) (s : State n) : Event n → Option (State n)
  | .call op     => some (if s.pc.isIdle then { s with pc := op.start } else s)
  | .go          => s.go id
  | .device call =>
    if s.pc.isIdle then do
      let dev ← Device.step nullId (s.ch.toDev id s.dev) call.event
      return { s with ch := call.leave id s.ch dev, dev }
    else some s
  | .interrupt i => do
      let (ch, dev) ← adcIntHandler nullId id i s.ch s.dev
      return { s with ch, dev, arrived := s.arrived ++ ((s.place id).map i.tmpbuff).toList }

/-! ### What is to hold -/

/-- The floor of the mean of the last samples. -/
def lastMean (n : Nat) (samples : List UInt16) : Nat :=
  ((samples.drop (samples.length - n)).map UInt16.toNat).sum / n

/-- With smoothing on, the mean of the last samples up to the one that was processed, in the order
of arrival. -/
def Result.IsMean (r : Result) : Prop :=
  r.loglen > 0 → 2 ^ r.loglen + r.waiting ≤ r.arrived.length ∧
    r.value.toNat = lastMean (2 ^ r.loglen) (r.arrived.take (r.arrived.length - r.waiting))

/-- The smoothing of the channel is consistent: the ring has its length and the sum is that of
the ring; there is no ring without smoothing, and nothing is left of it when it is off. -/
structure Channel.Consistent (c : Channel) : Prop where
  ring : c.logsmoothlen > 0 → c.smoothbuf.length = 2 ^ c.logsmoothlen ∧
    c.smoothsum.toNat = (c.smoothbuf.map UInt16.toNat).sum
  index : c.smoothidx ≤ 2 ^ c.logsmoothlen
  null : c.smoothbuf = [] → c.logsmoothlen = 0
  off : c.logsmoothlen = 0 → c.smoothidx = 0 ∧ c.smoothsum = 0 ∧ c.smoothReady = false

/-- Between two calls the smoothing is consistent, and every smoothed sample was the mean. -/
structure State.Smooths (s : State n) : Prop where
  consistent : s.pc.isIdle = true → s.ch.Consistent
  results : ∀ r ∈ s.results, r.IsMean

/-- There is room for the sample, if it goes into the buffer. -/
def Channel.HasRoom (c : Channel) : Prop := c.reqsamples > 1 → c.buf.count < c.buf.reach

/-- Smoothing is on and warmed up and is not being reset, and the last sample is in the value and
was not read yet. -/
def State.valueWaits (s : State n) : Bool :=
  decide (s.ch.logsmoothlen > 0) && s.ch.smoothReady && s.ch.valueFresh && !s.pc.isClearing &&
    !s.pc.isResetting

/-- A sample of the channel that disturbs no smoothing. No update or flush is under way. One that
warms up comes before a call has found that samples are available, and no older one is in the
buffer. Any other finds room in the buffer. With smoothing on, it finds the last value taken, and
if it stays in the value, nothing in the buffer that it would overtake. -/
def State.Admits (s : State n) : Prop :=
  s.pc.isResetting = false ∧
    if s.ch.warming then s.pc.isBefore = true ∧ s.ch.buf.count = 0
    else s.ch.HasRoom ∧ (s.ch.logsmoothlen > 0 →
      s.ch.valueFresh = false ∧ s.pc.isClearing = false ∧
        (s.ch.reqsamples ≤ 1 → s.ch.buf.count = 0))

/-- The sample of the channel stays in the value, with smoothing on and warmed up. -/
def State.staysInValue (s : State n) : Bool :=
  decide (s.ch.logsmoothlen > 0) && s.ch.smoothReady && decide (s.ch.reqsamples ≤ 1)

/-- An event that disturbs no smoothing. While the last sample waits in the value, the sequence is
not rebuilt with the channel in it, and the handler has no sample of another channel for the cell
of the value. A sample of the channel is one that it admits; if it stays in the value, it counts as
one that waits. -/
def State.Undisturbed (id : Fin n) (s : State n) : Event n → Prop
  | .interrupt i =>
    if (s.place id).isSome then
      s.Admits ∧ (s.staysInValue = true →
        (Device.Event.interrupt (i.sampled id false (!s.ch.freerunning))).replaces
          (s.ch.toDev id s.dev) id = false)
    else s.valueWaits = true → (∀ k < s.dev.seqLen, s.ch.valuePtr ≠ some k) ∧
      (Device.Event.interrupt i.others).replaces (s.ch.toDev id s.dev) id = false
  | .device call => s.pc.isIdle = true → s.valueWaits = true →
      call.event.replaces (s.ch.toDev id s.dev) id = false
  | _            => True

instance (s : State n) : Decidable s.Admits := by
  dsimp only [State.Admits, Channel.HasRoom]
  infer_instance

instance (id : Fin n) (s : State n) (e : Event n) : Decidable (s.Undisturbed id e) := by
  cases e <;> dsimp only [State.Undisturbed] <;> infer_instance

/-- A channel without smoothing whose buffer was just set up. -/
def Channel.start (sz : Size) (m : Mem) (opPending freerunning : Bool) (reqsamples : Nat)
    (sampleBuf : Nat → UInt16) : Channel where
  opPending := opPending
  freerunning := freerunning
  smoothReady := false
  valueFresh := false
  logsmoothlen := 0
  smoothidx := 0
  smoothsum := 0
  smoothbuf := []
  reqsamples := reqsamples
  valuePtr := none
  sampleBuf := sampleBuf
  buf := (bufSet {} sz (some m)).2

end Alcor.Adc
