import Mathlib.Algebra.Group.Action.Defs
import Mathlib.Algebra.Order.BigOperators.Group.List
import Mathlib.Algebra.Order.Group.Nat
import Alcor.Lib.Circular
import Alcor.Adc.Smoothing
import Alcor.Proofs.Buffer.Fifo

/-!
# `Alcor.Proofs.Adc.Processing`: the samples that are processed

The ring of the last samples, and the steps that fill it. `Processing`
is the invariant between two statements of `adc_get_processed_sample`:
the ring holds the last samples that are gone, the buffer and the value
of the channel hold those that have arrived and not gone, in their order,
and the program counter says what is on its way from the one to the
other.

* `smoothOut_spec` and `smoothIn_spec` are the two halves of
  `adc_smooth_data`: between them the ring is short of one sample.
* `sample_warms` and `sample_waits` are the samples of the handler, and
  `Processing.move` is what it does for other channels.
* `goes_process` and the lemmas behind it are one statement each;
  `processing_go` puts them together.
* `deliver_isMean` is what the caller gets: with smoothing on, the mean
  of the last samples that are gone.
-/

set_option autoImplicit false

/-!
## The smoothing ring

The two halves of `adc_smooth_data`. Between two calls the ring is
`Good`: the sum is that of its elements, and they are the last samples
that are gone into it. In between it is `Open`: the oldest element is
still there but no longer in the sum.
-/

namespace Alcor.Proofs.Adc

open Lib.Window
open Alcor.Adc

/-! ### The ring -/

/-- The part of a channel that smooths. -/
structure Ring where
  loglen : Nat
  idx : Nat
  sum : UInt32
  cells : List UInt16
  ready : Bool

def ringOf (c : Channel) : Ring :=
  ⟨c.logsmoothlen, c.smoothidx, c.smoothsum, c.smoothbuf, c.smoothReady⟩

/-- What is in the ring, in the order of arrival. -/
def Ring.last (r : Ring) : List UInt16 :=
  if r.ready then window r.cells r.idx else r.cells.take r.idx

/-- The ring of a smoothing that is on; `gone` are the samples that have left the buffer. -/
structure Ring.Good (r : Ring) (gone : List UInt16) : Prop where
  pos : 0 < r.loglen
  le : r.loglen ≤ 15
  length : r.cells.length = 2 ^ r.loglen
  sum : r.sum.toNat = (r.cells.map UInt16.toNat).sum
  idx_le : r.idx ≤ 2 ^ r.loglen
  last : r.last <:+ gone

/-- The oldest value has left the sum. -/
structure Ring.Open (r : Ring) (gone : List UInt16) : Prop where
  pos : 0 < r.loglen
  le : r.loglen ≤ 15
  length : r.cells.length = 2 ^ r.loglen
  sum : ∃ y, r.cells[r.idx]? = some y ∧ r.sum.toNat + y.toNat = (r.cells.map UInt16.toNat).sum
  idx_lt : r.idx < 2 ^ r.loglen
  last : r.last <:+ gone

/-- The smoothing between two calls. -/
structure Ringed (r : Ring) (fresh : Bool) (gone : List UInt16) : Prop where
  le : r.loglen ≤ 15
  on : 0 < r.loglen → r.Good gone
  off : r.loglen = 0 → r.idx = 0 ∧ r.sum = 0 ∧ r.ready = false
  /-- A value that is not taken is older than the flush. -/
  stale : r.ready = false → fresh = true → r.idx = 0

variable {c : Channel} {gone : List UInt16} {v : UInt16}

theorem smoothRealsize_eq (c : Channel) : c.smoothRealsize = 2 ^ c.logsmoothlen :=
  Nat.one_shiftLeft _

/-- The values of a ring have 16 bits. -/
theorem sum_lt_mul {xs : List UInt16} {k : Nat} (hlen : xs.length = 2 ^ k) :
    (xs.map UInt16.toNat).sum < 2 ^ k * 2 ^ 16 := by
  have hle : (xs.map UInt16.toNat).sum ≤ (xs.map UInt16.toNat).length • (2 ^ 16 - 1) := by
    refine List.sum_le_card_nsmul _ _ fun n hn => ?_
    obtain ⟨x, -, rfl⟩ := List.mem_map.mp hn
    exact Nat.le_sub_one_of_lt x.toNat_lt
  have hpos := Nat.two_pow_pos k
  rw [List.length_map, hlen, smul_eq_mul] at hle
  omega

/-- The sum of a ring is far below `2 ^ 32`. -/
theorem sum_lt {xs : List UInt16} {k : Nat} (hk : k ≤ 15) (hlen : xs.length = 2 ^ k) :
    (xs.map UInt16.toNat).sum < 2 ^ 32 := by
  have hlt := sum_lt_mul hlen
  have hpow : 2 ^ k ≤ 2 ^ 15 := Nat.pow_le_pow_right (by decide) hk
  omega

/-- The first half of `adc_smooth_data`. -/
theorem smoothOut_spec (h : (ringOf c).Good gone) :
    ∃ idx sum ready, smoothOut c =
        some { c with smoothidx := idx, smoothsum := sum, smoothReady := ready } ∧
      (c.smoothReady = true → ready = true) ∧
      Ring.Open ⟨c.logsmoothlen, idx, sum, c.smoothbuf, ready⟩ gone := by
  have hpos := Nat.two_pow_pos c.logsmoothlen
  have hlen : c.smoothbuf.length = 2 ^ c.logsmoothlen := h.length
  have hlast := h.last
  have hsum : c.smoothsum.toNat = (c.smoothbuf.map UInt16.toNat).sum := h.sum
  -- the value at an index of the ring leaves the sum
  have hout (i : Nat) (hi : i < 2 ^ c.logsmoothlen) :
      ∃ y, c.smoothbuf[i]? = some y ∧
        (c.smoothsum - y.toUInt32).toNat + y.toNat = (c.smoothbuf.map UInt16.toNat).sum := by
    have hget : c.smoothbuf[i]? = some c.smoothbuf[i] := List.getElem?_eq_getElem (by omega)
    have hle : c.smoothbuf[i].toNat ≤ c.smoothsum.toNat := by
      rw [hsum]
      exact List.single_le_sum (by simp) _ (List.mem_map_of_mem (List.getElem_mem _))
    refine ⟨_, hget, ?_⟩
    rw [UInt32.toNat_sub_of_le _ _ (by simpa [UInt32.le_iff_toNat_le] using hle),
      UInt16.toNat_toUInt32]
    omega
  by_cases hidx : c.smoothidx = c.smoothRealsize
  · -- the index wraps
    obtain ⟨y, hy, hsum'⟩ := hout 0 hpos
    refine ⟨0, c.smoothsum - y.toUInt32, true, ?_, fun _ => rfl, h.pos, h.le, h.length,
      ⟨y, hy, hsum'⟩, hpos, ?_⟩
    · simp [smoothOut, hidx, hy]
    · rw [smoothRealsize_eq, ← hlen] at hidx
      have hring : (ringOf c).last = c.smoothbuf := by
        simp only [Ring.last, ringOf, hidx, window_length, List.take_length, ite_self]
      rw [hring] at hlast
      simpa [Ring.last] using hlast
  · have hlt : c.smoothidx < 2 ^ c.logsmoothlen := by
      have hle : c.smoothidx ≤ 2 ^ c.logsmoothlen := h.idx_le
      rw [smoothRealsize_eq] at hidx
      omega
    obtain ⟨y, hy, hsum'⟩ := hout c.smoothidx hlt
    refine ⟨c.smoothidx, c.smoothsum - y.toUInt32, c.smoothReady, ?_, fun h => h, h.pos, h.le,
      h.length, ⟨y, hy, hsum'⟩, hlt, hlast⟩
    simp [smoothOut, hidx, hy]

/-- The second half, with the sample that has just gone. -/
theorem smoothIn_spec (h : (ringOf c).Open gone) (v : UInt16) :
    ∃ cells idx sum, smoothIn c v =
        some { c with smoothbuf := cells, smoothidx := idx, smoothsum := sum } ∧
      Ring.Good ⟨c.logsmoothlen, idx, sum, cells, c.smoothReady⟩ (gone ++ [v]) := by
  obtain ⟨y, hy, hsum⟩ := h.sum
  have hlen : c.smoothbuf.length = 2 ^ c.logsmoothlen := h.length
  have hlt : c.smoothidx < 2 ^ c.logsmoothlen := h.idx_lt
  have hpow : 2 ^ c.logsmoothlen ≤ 2 ^ 15 := Nat.pow_le_pow_right (by decide) h.le
  have hi : c.smoothidx < c.smoothbuf.length := by omega
  have hidx : (c.smoothidx + 1) % 2 ^ 16 = c.smoothidx + 1 := Nat.mod_eq_of_lt (by omega)
  have hlast := h.last
  have hnew := sum_map_set UInt16.toNat hy v
  have hlen' : (c.smoothbuf.set c.smoothidx v).length = 2 ^ c.logsmoothlen := by
    rw [List.length_set, hlen]
  -- the new sum still fits into 32 bits
  have hbound := sum_lt h.le hlen'
  refine ⟨_, _, _, if_pos hi, h.pos, h.le, ?_, ?_, ?_, ?_⟩
  · exact hlen'
  · have hsum : c.smoothsum.toNat + y.toNat = (c.smoothbuf.map UInt16.toNat).sum := hsum
    have hnew : ((c.smoothbuf.set c.smoothidx v).map UInt16.toNat).sum + y.toNat =
      (c.smoothbuf.map UInt16.toNat).sum + v.toNat := hnew
    rw [UInt32.toNat_add, UInt16.toNat_toUInt32]
    show _ = ((c.smoothbuf.set c.smoothidx v).map UInt16.toNat).sum
    omega
  · show (c.smoothidx + 1) % 2 ^ 16 ≤ 2 ^ c.logsmoothlen
    omega
  · rw [Ring.last] at hlast ⊢
    simp only [hidx]
    cases hready : c.smoothReady with
    | true =>
      -- the newest sample takes the place of the oldest
      simp only [ringOf, hready, if_true] at hlast ⊢
      rw [window_set hi]
      exact suffix_push hlast v
    | false =>
      -- the ring fills up from its first element on
      simp only [ringOf, hready, Bool.false_eq_true, if_false] at hlast ⊢
      rw [take_succ_set hi]
      exact suffix_snoc hlast v

end Alcor.Proofs.Adc

/-!
## A sample is processed

`Queue` is about the samples that wait, and `AtPc` says what holds at
each place of `adc_get_processed_sample`. A sample may come between any
two steps there: smoothing is off or warmed up then, and the handler
leaves the ring alone (`sample_waits`). A sample that warms up the ring
comes before (`sample_warms`). What the handler does for other channels
moves the value and no more (`Processing.move`). `processing_go` is a
step of the program.
-/

namespace Alcor.Proofs.Adc

open Lib (Mem leBytes leVal leVal_leBytes)
open Lib.Window
open Alcor.Buffer
open Alcor.Proofs.Buffer
open Alcor.Adc

variable {c : Channel} {gone : List UInt16} {v : UInt16}

/-! ### The samples that wait -/

/-- Something is in the ring, which is on. -/
def Live (c : Channel) : Prop := 0 < c.logsmoothlen ∧ (c.smoothReady = true ∨ 0 < c.smoothidx)

/-- The value that is not taken yet. -/
def held (c : Channel) : List UInt16 := if c.valueFresh then [c.value] else []

/-- The samples that wait are in the buffer, in the hand of a read and in the value, in this order
if something is in the ring. -/
structure Queue (on : Prop) (buf : BufDesc) (held : List UInt16) (phase : ReadPhase)
    (arrived gone : List UInt16) (r : Nat) (stored : List (List UInt8)) : Prop where
  hold : Holding buf r stored
  inPhase : InPhase buf r stored phase
  two : buf.logdsize = 1
  arrived : on → arrived = gone ++ (phase.inHand ++ stored).map ofBytes ++ held
  newest : on → held = [] ∨ stored = []

/-- A sample read back from its bytes. -/
theorem ofBytes_read (v : UInt16) : ofBytes ((sampleMem v).read 0 2) = v := by
  have hread : (sampleMem v).read 0 2 = leBytes 2 v.toNat := by
    simp [Mem.read, sampleMem, leBytes]
  have hlt : v.toNat < 256 ^ 2 := v.toNat_lt
  rw [hread, ofBytes, leVal_leBytes, Nat.mod_eq_of_lt hlt, UInt16.ofNat_toNat]

section Queue
variable {on : Prop} {buf : BufDesc} {hold arrived : List UInt16} {phase : ReadPhase} {r : Nat}
  {stored : List (List UInt8)}

theorem Queue.realdsize (h : Queue on buf hold phase arrived gone r stored) :
    buf.realdsize = 2 := by
  rw [BufDesc.realdsize, h.two]
  rfl

/-- With nothing in the ring it does not matter what is where. -/
theorem Queue.cold (h : Queue on buf hold phase arrived gone r stored) {on' : Prop} (hoff : ¬ on')
    (hold' arrived' gone' : List UInt16) : Queue on' buf hold' phase arrived' gone' r stored :=
  ⟨h.hold, h.inPhase, h.two, fun h => absurd h hoff, fun h => absurd h hoff⟩

/-- The buffer is flushed, with nothing in the ring. -/
theorem Queue.flush (h : Queue on buf hold .idle arrived gone r stored) {on' : Prop}
    (hoff : ¬ on') : Queue on' (bufFlush buf) hold .idle arrived gone 0 [] where
  hold := {
    enabled := h.hold.enabled
    logdsize_le := h.hold.logdsize_le
    logdsize_le_logsize := h.hold.logdsize_le_logsize
    logsize_le := h.hold.logsize_le
    size := h.hold.size
    wptr := by simp [bufFlush]
    count := rfl
    le := Nat.zero_le _
    contents := rfl }
  inPhase := by simp [InPhase, bufFlush]
  two := h.two
  arrived := fun h => absurd h hoff
  newest := fun _ => .inr rfl

end Queue

/-! ### The places of the program -/

/-- How far a read has got. -/
def readPhase : Pc → ReadPhase
  | .readBuf _ phase => phase
  | _                => .idle

/-- What was read of the value is held by the program until the value is taken. -/
def heldAt (c : Channel) (sample : UInt16) : Pc → List UInt16
  | .clearFresh true => [sample]
  | _                => held c

/-- Before the sample is taken. -/
def Taking (c : Channel) (gone : List UInt16) : Bool → Prop
  | true  => (ringOf c).Open gone ∧ c.smoothReady = true
  | false => Ringed (ringOf c) c.valueFresh gone ∧ c.logsmoothlen = 0

/-- A sample waits in the value or in the buffer. -/
def Waits (c : Channel) (stored : List (List UInt8)) : Prop := c.valueFresh = true ∨ stored ≠ []

/-- What holds at a place of the program, where the buffer holds `stored`. -/
def AtPc (c : Channel) (sample : UInt16) (gone : List UInt16) (stored : List (List UInt8)) :
    Pc → Prop
  | .reset []         => Ringed (ringOf c) c.valueFresh gone
  | .reset (_ :: _)   => False
  | .process          => Ringed (ringOf c) c.valueFresh gone
  | .choose           =>
    Ringed (ringOf c) c.valueFresh gone ∧
      (0 < c.logsmoothlen → c.smoothReady = true → Waits c stored)
  | .smoothOut        =>
    Ringed (ringOf c) c.valueFresh gone ∧ 0 < c.logsmoothlen ∧ c.smoothReady = true ∧
      Waits c stored
  | .testFresh smooth => Taking c gone smooth ∧ (smooth = true → Waits c stored)
  | .takeValue smooth => Taking c gone smooth ∧ (smooth = true → c.valueFresh = true)
  | .clearFresh smooth => Taking c gone smooth
  | .readBuf smooth phase =>
    Taking c gone smooth ∧ (smooth = true → phase.inHand ++ stored ≠ [])
  | .smoothIn         =>
    c.smoothReady = true ∧ ∃ g, gone = g ++ [sample] ∧ (ringOf c).Open g
  | .countDown smooth | .deliver smooth =>
    Ringed (ringOf c) c.valueFresh gone ∧
      if smooth then 0 < c.logsmoothlen ∧ c.smoothReady = true else c.logsmoothlen = 0

/-- The samples of a channel, where the program has not just read the value. -/
abbrev Waiting (c : Channel) (phase : ReadPhase) (arrived gone : List UInt16) (r : Nat)
    (stored : List (List UInt8)) : Prop :=
  Queue (Live c) c.buf (held c) phase arrived gone r stored

/-- What holds when no update and no flush is under way. -/
structure Processing {n : Nat} (s : State n) (gone : List UInt16) (r : Nat)
    (stored : List (List UInt8)) : Prop where
  queue : Queue (Live s.ch) s.ch.buf (heldAt s.ch s.sample s.pc) (readPhase s.pc) s.arrived gone r
    stored
  at_pc : AtPc s.ch s.sample gone stored s.pc

variable {sample : UInt16} {stored : List (List UInt8)} {r : Nat} {pc : Pc}

/-- A value that waits while the ring warms up is older than the last flush, wherever the program
is. -/
theorem AtPc.stale (h : AtPc c sample gone stored pc) (hpos : 0 < c.logsmoothlen)
    (hready : c.smoothReady = false) (hfresh : c.valueFresh = true) : c.smoothidx = 0 := by
  have htaking {smooth : Bool} (ht : Taking c gone smooth) : c.smoothidx = 0 := by
    cases smooth with
    | true => exact absurd ht.2 (by simp [hready])
    | false => exact absurd ht.2 (Nat.ne_of_gt hpos)
  cases pc with
  | reset rest =>
    cases rest with
    | nil => exact h.stale hready hfresh
    | cons a rest => exact h.elim
  | process => exact h.stale hready hfresh
  | choose => exact h.1.stale hready hfresh
  | smoothOut => exact h.1.stale hready hfresh
  | testFresh smooth => exact htaking h.1
  | takeValue smooth => exact htaking h.1
  | clearFresh smooth => exact htaking h
  | readBuf smooth phase => exact htaking h.1
  | smoothIn => exact absurd h.1 (by simp [hready])
  | countDown smooth => exact h.1.stale hready hfresh
  | deliver smooth => exact h.1.stale hready hfresh

/-! ### The value moves -/

/-- The smoothing and the buffer of two channels are the same. -/
structure SameRing (c c' : Channel) : Prop where
  smoothReady : c'.smoothReady = c.smoothReady
  logsmoothlen : c'.logsmoothlen = c.logsmoothlen
  smoothidx : c'.smoothidx = c.smoothidx
  smoothsum : c'.smoothsum = c.smoothsum
  smoothbuf : c'.smoothbuf = c.smoothbuf
  buf : c'.buf = c.buf

variable {c' : Channel}

theorem SameRing.ringOf (h : SameRing c c') : ringOf c' = ringOf c := by
  simp only [Adc.ringOf, h.smoothReady, h.logsmoothlen, h.smoothidx, h.smoothsum, h.smoothbuf]

theorem SameRing.live (h : SameRing c c') : Live c' ↔ Live c := by
  rw [Live, Live, h.logsmoothlen, h.smoothReady, h.smoothidx]

/-- The value is no longer fresh, or as it was. -/
theorem Ringed.unfresh (h : Ringed (ringOf c) c.valueFresh gone) (hsame : SameRing c c')
    (hfresh : c'.valueFresh = true → c.valueFresh = true) :
    Ringed (ringOf c') c'.valueFresh gone := by
  rw [hsame.ringOf]
  exact ⟨h.le, h.on, h.off, fun hready hf => h.stale hready (hfresh hf)⟩

theorem Taking.unfresh {smooth : Bool} (h : Taking c gone smooth) (hsame : SameRing c c')
    (hfresh : c'.valueFresh = true → c.valueFresh = true) : Taking c' gone smooth := by
  cases smooth with
  | true => exact ⟨hsame.ringOf.symm ▸ h.1, hsame.smoothReady.trans h.2⟩
  | false => exact ⟨h.1.unfresh hsame hfresh, hsame.logsmoothlen.trans h.2⟩

theorem State.of_valueWaits {n : Nat} {s : State n} (h : s.valueWaits = true) :
    0 < s.ch.logsmoothlen ∧ s.ch.smoothReady = true ∧ s.ch.valueFresh = true := by
  simp only [State.valueWaits, Bool.and_eq_true, decide_eq_true_eq] at h
  exact ⟨h.1.1.1.1, h.1.1.1.2, h.1.1.2⟩

theorem State.fresh_of_valueWaits {n : Nat} {s : State n} (h : s.valueWaits = true) :
    s.ch.valueFresh = true :=
  (State.of_valueWaits h).2.2

/-- The value of the channel may move, be overwritten or no longer be fresh, unless smoothing is
warmed up and waits for it. -/
theorem Processing.move {n : Nat} {s : State n} (h : Processing s gone r stored)
    (hsame : SameRing s.ch c') (hfresh : c'.valueFresh = true → s.ch.valueFresh = true)
    (hkeep : s.valueWaits = true → c'.valueFresh = true ∧ c'.value = s.ch.value)
    (dev : Device.Dev n) : Processing { s with ch := c', dev } gone r stored := by
  obtain ⟨ch, dev', pc, sample, arrived, results⟩ := s
  obtain ⟨hqueue, hat⟩ := h
  -- once the ring is warm, a fresh value is one that waits
  have hwaits (hpos : 0 < ch.logsmoothlen) (hready : ch.smoothReady = true)
      (hpc : pc.isClearing = false) (hf : ch.valueFresh = true) :
      c'.valueFresh = true ∧ c'.value = ch.value := by
    have hreset : pc.isResetting = false := by
      cases pc with
      | reset rest =>
        cases rest with
        | nil => rfl
        | cons a rest => exact hat.elim
      | _ => rfl
    refine hkeep ?_
    simp only [State.valueWaits, hready, hpc, hf, hreset]
    simpa using hpos
  have hheld (hpos : 0 < ch.logsmoothlen) (hready : ch.smoothReady = true)
      (hpc : pc.isClearing = false) : held c' = held ch := by
    cases hf : ch.valueFresh with
    | true =>
      obtain ⟨hf', hv⟩ := hwaits hpos hready hpc hf
      rw [held, held, hf, hf', if_pos rfl, if_pos rfl, hv]
    | false =>
      have hf' : c'.valueFresh = false :=
        Bool.eq_false_iff.mpr fun htrue => by rw [hfresh htrue] at hf; cases hf
      rw [held, held, hf, hf', if_neg Bool.false_ne_true, if_neg Bool.false_ne_true]
  have hsomething (hpos : 0 < ch.logsmoothlen) (hready : ch.smoothReady = true)
      (hpc : pc.isClearing = false) (hw : Waits ch stored) : Waits c' stored :=
    hw.imp_left fun hf => (hwaits hpos hready hpc hf).1
  have hon {smooth : Bool} (ht : Taking ch gone smooth) (hsmooth : smooth = true) :
      0 < ch.logsmoothlen ∧ ch.smoothReady = true := by
    subst hsmooth
    exact ⟨ht.1.pos, ht.2⟩
  have hlen := hsame.logsmoothlen
  have hready' := hsame.smoothReady
  refine ⟨?_, ?_⟩
  · have hlive : Live ch → heldAt c' sample pc = heldAt ch sample pc := by
      rintro ⟨hpos, hsome⟩
      cases hclear : pc.isClearing with
      | true =>
        cases pc with
        | clearFresh smooth =>
          cases smooth with
          | true => rfl
          | false => exact absurd hat.2 (Nat.ne_of_gt hpos)
        | _ => cases hclear
      | false =>
        have hplain (c : Channel) : heldAt c sample pc = held c := by
          cases pc with
          | clearFresh smooth => cases hclear
          | _ => rfl
        rw [hplain, hplain]
        cases hready : ch.smoothReady with
        | true => exact hheld hpos hready hclear
        | false =>
          -- the ring warms up, so there is no value that counts
          have hidx : 0 < ch.smoothidx := hsome.resolve_left (by simp [hready])
          have hf : ch.valueFresh = false := Bool.eq_false_iff.mpr fun htrue =>
            absurd (AtPc.stale hat hpos hready htrue) (Nat.ne_of_gt hidx)
          have hf' : c'.valueFresh = false :=
            Bool.eq_false_iff.mpr fun htrue => by rw [hfresh htrue] at hf; cases hf
          rw [held, held, hf, hf', if_neg Bool.false_ne_true, if_neg Bool.false_ne_true]
    refine { hold := hsame.buf ▸ hqueue.hold, inPhase := hsame.buf ▸ hqueue.inPhase,
             two := hsame.buf ▸ hqueue.two, arrived := fun hl => ?_, newest := fun hl => ?_ }
    · rw [show heldAt c' sample pc = _ from hlive (hsame.live.mp hl)]
      exact hqueue.arrived (hsame.live.mp hl)
    · rw [show heldAt c' sample pc = _ from hlive (hsame.live.mp hl)]
      exact hqueue.newest (hsame.live.mp hl)
  · show AtPc c' sample gone stored pc
    cases pc with
    | reset rest =>
      cases rest with
      | nil => exact Ringed.unfresh hat hsame hfresh
      | cons a rest => exact hat
    | process => exact Ringed.unfresh hat hsame hfresh
    | choose =>
      refine ⟨Ringed.unfresh hat.1 hsame hfresh, fun hpos hr => ?_⟩
      rw [hlen] at hpos
      rw [hready'] at hr
      exact hsomething hpos hr rfl (hat.2 hpos hr)
    | smoothOut =>
      exact ⟨Ringed.unfresh hat.1 hsame hfresh, hlen ▸ hat.2.1, hready'.trans hat.2.2.1,
        hsomething hat.2.1 hat.2.2.1 rfl hat.2.2.2⟩
    | testFresh smooth =>
      refine ⟨Taking.unfresh hat.1 hsame hfresh, fun hs => ?_⟩
      obtain ⟨hpos, hr⟩ := hon hat.1 hs
      exact hsomething hpos hr rfl (hat.2 hs)
    | takeValue smooth =>
      refine ⟨Taking.unfresh hat.1 hsame hfresh, fun hs => ?_⟩
      obtain ⟨hpos, hr⟩ := hon hat.1 hs
      exact (hwaits hpos hr rfl (hat.2 hs)).1
    | clearFresh smooth => exact Taking.unfresh hat hsame hfresh
    | readBuf smooth phase => exact ⟨Taking.unfresh hat.1 hsame hfresh, hat.2⟩
    | smoothIn =>
      obtain ⟨hr, g, hg, hopen⟩ := hat
      exact ⟨hready'.trans hr, g, hg, hsame.ringOf.symm ▸ hopen⟩
    | countDown smooth =>
      refine ⟨Ringed.unfresh hat.1 hsame hfresh, ?_⟩
      rw [hlen, hready']
      exact hat.2
    | deliver smooth =>
      refine ⟨Ringed.unfresh hat.1 hsame hfresh, ?_⟩
      rw [hlen, hready']
      exact hat.2

/-! ### A sample of the channel -/

/-- Where a value is fresh that was not, if smoothing does not warm up. -/
theorem Ringed.fresh (h : Ringed (ringOf c) c.valueFresh gone) (hwarm : c.warming = false)
    (fresh : Bool) : Ringed (ringOf c) fresh gone where
  le := h.le
  on := h.on
  off := h.off
  stale := by
    intro hready _
    have hlen : c.logsmoothlen = 0 := by
      have hready : c.smoothReady = false := hready
      simpa [Channel.warming, hready] using hwarm
    exact (h.off hlen).1

/-- A sample that does not warm up waits, and the program does not notice. -/
theorem AtPc.arrive (h : AtPc c sample gone stored pc) (hwarm : c.warming = false)
    (htaken : 0 < c.logsmoothlen → c.valueFresh = false) (b : Nat → UInt16) (fresh : Bool)
    (buf : BufDesc) (stored' : List (List UInt8)) (hnew : fresh = true ∨ stored' ≠ [])
    (hmore : stored ≠ [] → stored' ≠ []) :
    AtPc { c with sampleBuf := b, valueFresh := fresh, buf } sample gone stored' pc := by
  have hringed : Ringed (ringOf c) c.valueFresh gone → Ringed (ringOf c) fresh gone :=
    fun h => h.fresh hwarm fresh
  have htaking (smooth : Bool) (ht : Taking c gone smooth) :
      Taking { c with sampleBuf := b, valueFresh := fresh, buf } gone smooth := by
    cases smooth with
    | true => exact ht
    | false => exact ⟨hringed ht.1, ht.2⟩
  cases pc with
  | reset rest =>
    cases rest with
    | nil => exact hringed h
    | cons a rest => exact h
  | process => exact hringed h
  | choose => exact ⟨hringed h.1, fun _ _ => hnew⟩
  | smoothOut => exact ⟨hringed h.1, h.2.1, h.2.2.1, hnew⟩
  | testFresh smooth => exact ⟨htaking smooth h.1, fun _ => hnew⟩
  | takeValue smooth =>
    -- no sample comes while a value is taken for the ring
    refine ⟨htaking smooth h.1, fun hs => ?_⟩
    have hf := h.2 hs
    subst hs
    rw [htaken h.1.1.pos] at hf
    cases hf
  | clearFresh smooth => exact htaking smooth h
  | readBuf smooth phase =>
    refine ⟨htaking smooth h.1, fun hs hnil => h.2 hs ?_⟩
    rw [List.append_eq_nil_iff] at hnil ⊢
    exact ⟨hnil.1, Classical.not_not.mp fun hne => hmore hne hnil.2⟩
  | smoothIn => exact h
  | countDown smooth => exact ⟨hringed h.1, h.2⟩
  | deliver smooth => exact ⟨hringed h.1, h.2⟩

/-- The channel with a sample in its cell. -/
def brought (c : Channel) (b : Nat → UInt16) : Channel :=
  { c with sampleBuf := b, valueFresh := true }

/-- A sample that warms up the smoothing goes into the ring at once. -/
theorem sample_warms {arrived : List UInt16} {b : Nat → UInt16} (hwarm : c.warming = true)
    (hqueue : Waiting c .idle arrived gone r []) (h : Ringed (ringOf c) c.valueFresh gone)
    (hv : (brought c b).value = v) :
    ∃ c', smoothOrWrite (brought c b) = some c' ∧ c'.valueFresh = false ∧
      Waiting c' .idle (arrived ++ [v]) (arrived ++ [v]) r [] ∧
      Ringed (ringOf c') c'.valueFresh (arrived ++ [v]) := by
  have hlen : 0 < c.logsmoothlen := by
    simp only [Channel.warming, Bool.and_eq_true, decide_eq_true_eq] at hwarm
    exact hwarm.1
  have hready : c.smoothReady = false := by
    simp only [Channel.warming, Bool.and_eq_true, Bool.not_eq_true'] at hwarm
    exact hwarm.2
  have hgood := h.on hlen
  -- an old value that was never taken is lost, but nothing is in the ring yet
  have hlast : (ringOf c).last <:+ arrived := by
    rcases Nat.eq_zero_or_pos c.smoothidx with hidx | hidx
    · simp [Ring.last, ringOf, hidx, hready]
    · have hfresh : c.valueFresh = false := Bool.eq_false_iff.mpr fun htrue =>
        absurd (h.stale hready htrue) (Nat.ne_of_gt hidx)
      have harrived := hqueue.arrived ⟨hlen, .inr hidx⟩
      simp only [held, hfresh, Bool.false_eq_true, if_false, ReadPhase.inHand,
        List.append_nil, List.map_nil] at harrived
      rw [harrived]
      exact hgood.last
  have hgood₁ : (ringOf (brought c b)).Good arrived := { hgood with last := hlast }
  obtain ⟨idx, sum, ready, hout, -, hopen⟩ := smoothOut_spec hgood₁
  obtain ⟨cells, idx', sum', hin, hgood'⟩ := smoothIn_spec
    (c := { brought c b with valueFresh := false, smoothidx := idx, smoothsum := sum,
                             smoothReady := ready }) hopen v
  have hwarm' : (brought c b).warming = true := hwarm
  have hstore : smoothOrWrite (brought c b) =
      some { brought c b with
        valueFresh := false, smoothidx := idx', smoothsum := sum',
        smoothReady := ready, smoothbuf := cells } := by
    simp only [smoothOrWrite, hwarm', if_true, hout, Option.bind_eq_bind, Option.bind_some]
    rw [← hin, ← hv]
    rfl
  refine ⟨_, hstore, rfl, ?_, ?_⟩
  · exact { hold := hqueue.hold, inPhase := hqueue.inPhase, two := hqueue.two
            arrived := fun _ => by simp [ReadPhase.inHand, held]
            newest := fun _ => .inr rfl }
  · exact { le := h.le, on := fun _ => hgood', off := fun h0 => absurd h0 (Nat.ne_of_gt hlen)
            stale := fun _ hf => by cases hf }

/-- Any other sample goes into the buffer, or stays in the value if no more than one is
requested. -/
theorem sample_waits {arrived : List UInt16} {b : Nat → UInt16} (hwarm : c.warming = false)
    (hroom : c.HasRoom)
    (hon : 0 < c.logsmoothlen → c.valueFresh = false ∧ pc.isClearing = false ∧
      (c.reqsamples ≤ 1 → c.buf.count = 0))
    (hqueue : Queue (Live c) c.buf (heldAt c sample pc) (readPhase pc) arrived gone r stored)
    (h : AtPc c sample gone stored pc) (hv : (brought c b).value = v) :
    ∃ c' stored', smoothOrWrite (brought c b) = some c' ∧
      (c'.valueFresh = true → c' = brought c b ∧ c.reqsamples ≤ 1) ∧
      Queue (Live c') c'.buf (heldAt c' sample pc) (readPhase pc) (arrived ++ [v]) gone r stored' ∧
      AtPc c' sample gone stored' pc := by
  have hwarm' : (brought c b).warming = false := hwarm
  have hfresh := fun hpos => (hon hpos).1
  have hplain (hpos : 0 < c.logsmoothlen) (c' : Channel) : heldAt c' sample pc = held c' := by
    have hclear := (hon hpos).2.1
    cases pc with
    | clearFresh smooth => cases hclear
    | _ => rfl
  have harrived (hlive : Live c) :
      arrived = gone ++ ((readPhase pc).inHand ++ stored).map ofBytes := by
    have harrived := hqueue.arrived hlive
    rwa [hplain hlive.1, held, hfresh hlive.1, if_neg Bool.false_ne_true,
      List.append_nil] at harrived
  by_cases hreq : c.reqsamples > 1
  · -- the sample goes into the buffer
    have hlt : stored.length < c.buf.reach := hqueue.hold.count ▸ hroom hreq
    obtain ⟨hwrite, hold'⟩ := hqueue.hold.write hlt (sampleMem v)
    have hstore : smoothOrWrite (brought c b) =
        some { brought c b with valueFresh := false, buf := written c.buf (sampleMem v) } := by
      simp only [smoothOrWrite, hwarm', Bool.false_eq_true, if_false, hv]
      simp only [brought, if_pos hreq, hwrite, Option.bind_eq_bind, Option.bind_some,
        Option.pure_def]
    refine ⟨_, stored ++ [(sampleMem v).read 0 c.buf.realdsize], hstore, (fun hf => by cases hf),
      ?_, ?_⟩
    · refine { hold := hold', inPhase := hqueue.inPhase.write (sampleMem v), two := hqueue.two
               arrived := fun hlive => ?_, newest := fun hlive => .inl ?_ }
      · have hlive : Live c := hlive
        rw [hplain hlive.1, harrived hlive, hqueue.realdsize]
        simp [ofBytes_read, held]
      · have hlive : Live c := hlive
        rw [hplain hlive.1]
        rfl
    · exact h.arrive hwarm hfresh b false _ _ (.inr (by simp)) (fun _ => by simp)
  · -- the sample stays where the value is; with smoothing on nothing else waits
    have hstore : smoothOrWrite (brought c b) = some (brought c b) := by
      simp only [smoothOrWrite, hwarm', Bool.false_eq_true, if_false]
      exact if_neg hreq
    refine ⟨_, stored, hstore, fun _ => ⟨rfl, Nat.le_of_not_lt hreq⟩, ?_, ?_⟩
    · refine { hold := hqueue.hold, inPhase := hqueue.inPhase, two := hqueue.two
               arrived := fun hlive => ?_, newest := fun hlive => .inr ?_ }
      · have hlive : Live c := hlive
        have hheld : held (brought c b) = [v] := by
          rw [held, hv]
          rfl
        rw [hplain hlive.1, harrived hlive, hheld]
      · have hlive : Live c := hlive
        rw [← List.length_eq_zero_iff, ← hqueue.hold.count]
        exact (hon hlive.1).2.2 (Nat.le_of_not_lt hreq)
    · exact h.arrive hwarm hfresh b true c.buf stored (.inl rfl) (fun h => h)

/-! ### A processed sample -/

theorem Taking.fresh {smooth fresh : Bool} (h : Taking c gone smooth) :
    Taking { c with valueFresh := fresh } gone smooth := by
  cases smooth with
  | true => exact h
  | false =>
    have hoff := h.1.off h.2
    exact ⟨{ h.1 with stale := fun _ _ => hoff.1 }, h.2⟩

/-- Where something is in the ring, the sample that is taken is for the ring. -/
theorem Taking.smooth {smooth : Bool} (h : Taking c gone smooth) (hlive : Live c) :
    smooth = true := by
  cases smooth with
  | true => rfl
  | false => exact absurd h.2 (Nat.ne_of_gt hlive.1)

/-- The sample is taken, and what comes next is in place. -/
theorem atPc_taken {smooth : Bool} (h : Taking c gone smooth) (sample : UInt16)
    (stored : List (List UInt8)) :
    AtPc c sample (gone ++ [sample]) stored (.taken smooth) := by
  cases smooth with
  | true => exact ⟨h.2, gone, rfl, h.1⟩
  | false =>
    have hlen : c.logsmoothlen = 0 := h.2
    refine ⟨{ le := h.1.le, on := fun hpos => ?_, off := h.1.off, stale := h.1.stale }, hlen⟩
    exact absurd hlen (Nat.ne_of_gt hpos)

@[simp] theorem readPhase_taken (smooth : Bool) : readPhase (.taken smooth) = .idle := by
  cases smooth <;> rfl

@[simp] theorem heldAt_taken (c : Channel) (sample : UInt16) (smooth : Bool) :
    heldAt c sample (.taken smooth) = held c := by
  cases smooth <;> rfl

/-- A value shifted down is the mean. -/
theorem mean_of_good {r : Ring} {gone : List UInt16} (h : r.Good gone) (hready : r.ready = true) :
    2 ^ r.loglen ≤ gone.length ∧
      (UInt16.ofNat (r.sum.toNat >>> r.loglen)).toNat = lastMean (2 ^ r.loglen) gone := by
  have hlast := h.last
  rw [Ring.last, hready, if_pos rfl] at hlast
  have hlen : (window r.cells r.idx).length = 2 ^ r.loglen := by
    rw [window, List.length_append, List.length_drop, List.length_take, h.length]
    have := h.idx_le
    omega
  have hwindow : gone.drop (gone.length - 2 ^ r.loglen) = window r.cells r.idx := by
    rw [← hlen]
    exact (List.suffix_iff_eq_drop.mp hlast).symm
  -- the order does not matter for the sum
  have hsum : ((window r.cells r.idx).map UInt16.toNat).sum = r.sum.toNat := by
    rw [h.sum, window, List.map_append, List.sum_append, Nat.add_comm, ← List.sum_append,
      ← List.map_append, List.take_append_drop]
  have hbound : r.sum.toNat / 2 ^ r.loglen < 2 ^ 16 := by
    rw [Nat.div_lt_iff_lt_mul (Nat.two_pow_pos _), Nat.mul_comm, h.sum]
    exact sum_lt_mul h.length
  refine ⟨hlen ▸ hlast.length_le, ?_⟩
  rw [lastMean, hwindow, hsum, Nat.shiftRight_eq_div_pow, UInt16.toNat_ofNat_of_lt' hbound]

section Places
variable {n : Nat} {id : Fin n} {dev : Device.Dev n} {ch : Channel} {arrived : List UInt16}
  {results : List Result} {smooth : Bool}

/-- The next step leads to a good state, and a sample that it returns is the mean. -/
def Goes (id : Fin n) (s : State n) : Prop :=
  ∃ s' gone' r' stored', s.go id = some s' ∧ Processing s' gone' r' stored' ∧
    (s'.results = s.results ∨ ∃ res, s'.results = s.results ++ [res] ∧ res.IsMean)

theorem goes_process (hqueue : Waiting ch .idle arrived gone r stored)
    (hringed : Ringed (ringOf ch) ch.valueFresh gone) :
    Goes id ⟨ch, dev, .process, sample, arrived, results⟩ := by
  refine ⟨_, gone, r, stored, rfl, ?_, .inl rfl⟩
  by_cases havail : adcSamplesAvailable ch > 0
  · simp only [if_pos havail]
    refine ⟨hqueue, hringed, fun _ _ => ?_⟩
    -- a sample waits in the value or in the buffer
    rw [adcSamplesAvailable, bufGetCount, hqueue.hold.count] at havail
    cases stored with
    | nil =>
      refine .inl ?_
      cases hfresh : ch.valueFresh with
      | true => rfl
      | false => simp [hfresh] at havail
    | cons x rest => exact .inr (List.cons_ne_nil x rest)
  · simp only [if_neg havail]
    exact ⟨hqueue, hringed⟩

theorem goes_choose (hqueue : Waiting ch .idle arrived gone r stored)
    (hringed : Ringed (ringOf ch) ch.valueFresh gone)
    (hwaits : 0 < ch.logsmoothlen → ch.smoothReady = true → Waits ch stored) :
    Goes id ⟨ch, dev, .choose, sample, arrived, results⟩ := by
  refine ⟨_, gone, r, stored, rfl, ?_, .inl rfl⟩
  dsimp only
  split
  · next hon => exact ⟨hqueue, hringed, hon.1, hon.2, hwaits hon.1 hon.2⟩
  · split
    · next hoff => exact ⟨hqueue, ⟨hringed, hoff⟩, fun hs => by cases hs⟩
    · exact ⟨hqueue, hringed⟩

theorem goes_smoothOut (hqueue : Waiting ch .idle arrived gone r stored)
    (hgood : (ringOf ch).Good gone) (hready : ch.smoothReady = true) (hwaits : Waits ch stored) :
    Goes id ⟨ch, dev, .smoothOut, sample, arrived, results⟩ := by
  obtain ⟨idx, sum, ready, hout, hstay, hopen⟩ := smoothOut_spec hgood
  have hgo : State.go id ⟨ch, dev, .smoothOut, sample, arrived, results⟩ =
      some ⟨{ ch with smoothidx := idx, smoothsum := sum, smoothReady := ready }, dev,
        .testFresh true, sample, arrived, results⟩ := by
    simp only [State.go, hout, Option.bind_eq_bind, Option.bind_some, Option.pure_def]
  have hlive : Live ch := ⟨hgood.pos, .inl hready⟩
  refine ⟨_, gone, r, stored, hgo, ⟨?_, ⟨hopen, hstay hready⟩, fun _ => hwaits⟩, .inl rfl⟩
  exact { hold := hqueue.hold, inPhase := hqueue.inPhase, two := hqueue.two
          arrived := fun _ => hqueue.arrived hlive, newest := fun _ => hqueue.newest hlive }

theorem goes_testFresh (hqueue : Waiting ch .idle arrived gone r stored)
    (htaking : Taking ch gone smooth) (hwaits : smooth = true → Waits ch stored) :
    Goes id ⟨ch, dev, .testFresh smooth, sample, arrived, results⟩ := by
  refine ⟨_, gone, r, stored, rfl, ?_, .inl rfl⟩
  by_cases hfresh : ch.valueFresh = true
  · simp only [if_pos hfresh]
    exact ⟨hqueue, htaking, fun _ => hfresh⟩
  · simp only [if_neg hfresh]
    exact ⟨hqueue, htaking, fun hs => (hwaits hs).resolve_left hfresh⟩

/-- The value is read. -/
theorem goes_takeValue (hqueue : Waiting ch .idle arrived gone r stored)
    (htaking : Taking ch gone smooth) (hfresh : smooth = true → ch.valueFresh = true) :
    Goes id ⟨ch, dev, .takeValue smooth, sample, arrived, results⟩ := by
  refine ⟨_, gone, r, stored, rfl, ⟨?_, htaking⟩, .inl rfl⟩
  cases smooth with
  | false => exact hqueue
  | true =>
    -- the program holds what the value held
    have hheld : held ch = [ch.value] := if_pos (hfresh rfl)
    show Queue (Live ch) ch.buf [ch.value] .idle arrived gone r stored
    rw [← hheld]
    exact hqueue

/-- The value is taken; nothing was in the buffer before it. -/
theorem goes_clearFresh
    (hqueue : Queue (Live ch) ch.buf (heldAt ch sample (.clearFresh smooth)) .idle arrived gone r
      stored)
    (htaking : Taking ch gone smooth) :
    Goes id ⟨ch, dev, .clearFresh smooth, sample, arrived, results⟩ := by
  refine ⟨_, gone ++ [sample], r, stored, rfl, ⟨?_, atPc_taken htaking.fresh _ _⟩, .inl rfl⟩
  show Queue (Live ch) ch.buf (heldAt { ch with valueFresh := false } sample (.taken smooth))
    (readPhase (.taken smooth)) arrived (gone ++ [sample]) r stored
  rw [readPhase_taken, heldAt_taken]
  refine { hold := hqueue.hold, inPhase := hqueue.inPhase, two := hqueue.two,
           arrived := fun hlive => ?_, newest := fun _ => .inl rfl }
  obtain rfl : smooth = true := htaking.smooth hlive
  have hheld : heldAt ch sample (.clearFresh true) = [sample] := rfl
  obtain rfl : stored = [] := (hqueue.newest hlive).resolve_left (by simp [hheld])
  rw [hqueue.arrived hlive, hheld]
  simp [held, ReadPhase.inHand]

/-- A step of `buf_read`. -/
theorem goes_readBuf {phase : ReadPhase}
    (hqueue : Waiting ch phase arrived gone r stored)
    (htaking : Taking ch gone smooth) (hwaits : smooth = true → phase.inHand ++ stored ≠ []) :
    Goes id ⟨ch, dev, .readBuf smooth phase, sample, arrived, results⟩ := by
  obtain ⟨res, p, hstep, -, hsize, hprogress⟩ := readStep_spec hqueue.hold hqueue.inPhase
  have htwo : p.logdsize = 1 := hsize.trans hqueue.two
  have htaking' : Taking { ch with buf := p } gone smooth := by
    cases smooth <;> exact htaking
  have hgo : State.go id ⟨ch, dev, .readBuf smooth phase, sample, arrived, results⟩ =
      some (State.afterRead ⟨{ ch with buf := p }, dev, .readBuf smooth phase, sample, arrived, results⟩
        smooth res) := by
    simp only [State.go, hstep, Option.bind_eq_bind, Option.bind_some, Option.pure_def]
  cases hprogress with
  | @running _ _ _ phase' hold' hph' hmoved =>
    have hqueue' : Queue (Live ch) p (held ch) phase' arrived gone _ _ :=
      { hold := hold', inPhase := hph', two := htwo
        arrived := fun hlive => by
          rw [hqueue.arrived hlive]
          exact congrArg (fun xs => gone ++ xs.map ofBytes ++ held ch) hmoved
        newest := fun hlive => by
          -- a read that goes on has nothing in hand
          refine (hqueue.newest hlive).imp_right fun hnil => ?_
          have hempty : phase.inHand = [] := by
            cases phase with
            | idle => rfl
            | copying got => rfl
            | counted got => simp [readStep] at hstep
          rw [hempty, hnil] at hmoved
          exact (List.append_eq_nil_iff.mp hmoved.symm).2 }
    refine ⟨_, gone, _, _, hgo, ⟨hqueue', htaking', fun hs => ?_⟩, .inl rfl⟩
    rw [← hmoved]
    exact hwaits hs
  | underflow hidle hempty =>
    -- only where smoothing is off
    have hqueue' : Queue (Live ch) ch.buf (held ch) .idle arrived (gone ++ [sample]) r stored :=
      { hold := hqueue.hold, inPhase := hidle ▸ hqueue.inPhase, two := htwo
        newest := hqueue.newest
        arrived := fun hlive => by
          refine absurd ?_ (hwaits (htaking.smooth hlive))
          rw [hidle, hempty]
          rfl }
    refine ⟨_, gone ++ [sample], r, stored, hgo, ⟨?_, atPc_taken htaking' _ _⟩, .inl rfl⟩
    show Queue (Live ch) ch.buf (heldAt ch sample (.taken smooth)) (readPhase (.taken smooth))
      arrived _ r stored
    rw [readPhase_taken, heldAt_taken]
    exact hqueue'
  | @ok _ data hold' hph' hhand =>
    have hqueue' : Queue (Live ch) p (held ch) .idle arrived (gone ++ [ofBytes data]) _ _ :=
      { hold := hold', inPhase := hph', two := htwo, newest := hqueue.newest
        arrived := fun hlive => by
          rw [hqueue.arrived hlive, hhand]
          simp [ReadPhase.inHand] }
    refine ⟨_, gone ++ [ofBytes data], r, stored, hgo, ⟨?_, atPc_taken htaking' _ _⟩, .inl rfl⟩
    show Queue (Live ch) p (heldAt { ch with buf := p } (ofBytes data) (.taken smooth))
      (readPhase (.taken smooth)) arrived _ r stored
    rw [readPhase_taken, heldAt_taken]
    exact hqueue'

/-- The sample goes into the ring and into the sum. -/
theorem goes_smoothIn {g : List UInt16}
    (hqueue : Waiting ch .idle arrived (g ++ [sample]) r stored)
    (hready : ch.smoothReady = true) (hopen : (ringOf ch).Open g) :
    Goes id ⟨ch, dev, .smoothIn, sample, arrived, results⟩ := by
  obtain ⟨cells, idx, sum, hin, hgood⟩ := smoothIn_spec hopen sample
  have hgo : State.go id ⟨ch, dev, .smoothIn, sample, arrived, results⟩ =
      some ⟨{ ch with smoothbuf := cells, smoothidx := idx, smoothsum := sum }, dev,
        .countDown true, sample, arrived, results⟩ := by
    simp only [State.go, hin, Option.bind_eq_bind, Option.bind_some, Option.pure_def]
  have hringed : Ringed ⟨ch.logsmoothlen, idx, sum, cells, ch.smoothReady⟩ ch.valueFresh
      (g ++ [sample]) :=
    { le := hopen.le, on := fun _ => hgood
      off := fun h0 => absurd h0 (Nat.ne_of_gt hopen.pos)
      stale := fun hr _ => absurd hready (by simp [show ch.smoothReady = false from hr]) }
  have hlive : Live ch := ⟨hopen.pos, .inl hready⟩
  refine ⟨_, g ++ [sample], r, stored, hgo, ⟨?_, hringed, hopen.pos, hready⟩, .inl rfl⟩
  exact { hold := hqueue.hold, inPhase := hqueue.inPhase, two := hqueue.two
          arrived := fun _ => hqueue.arrived hlive, newest := fun _ => hqueue.newest hlive }

/-- With smoothing on, the sample that is returned is the mean of the last ones that are gone. -/
theorem deliver_isMean (hqueue : Waiting ch .idle arrived gone r stored)
    (hringed : Ringed (ringOf ch) ch.valueFresh gone)
    (hsmooth : if smooth then 0 < ch.logsmoothlen ∧ ch.smoothReady = true
      else ch.logsmoothlen = 0) :
    Result.IsMean {
      value := if smooth then UInt16.ofNat (ch.smoothsum.toNat >>> ch.logsmoothlen) else sample
      loglen := ch.logsmoothlen
      arrived := arrived
      waiting := bufGetCount ch.buf + ch.valueFresh.toNat } := by
  intro hpos
  have hpos : 0 < ch.logsmoothlen := hpos
  have hsmooth' : smooth = true ∧ ch.smoothReady = true := by
    cases smooth with
    | true => exact ⟨rfl, hsmooth.2⟩
    | false => exact absurd hsmooth (Nat.ne_of_gt hpos)
  -- what has arrived and does not wait is gone
  have hwaiting : bufGetCount ch.buf + ch.valueFresh.toNat =
      (stored.map ofBytes ++ held ch).length := by
    rw [bufGetCount, hqueue.hold.count, List.length_append, List.length_map, held]
    cases ch.valueFresh <;> rfl
  have harrived : arrived = gone ++ (stored.map ofBytes ++ held ch) := by
    have h := hqueue.arrived ⟨hpos, .inl hsmooth'.2⟩
    simp only [ReadPhase.inHand, List.nil_append, List.append_assoc] at h
    exact h
  have hlen : arrived.length = gone.length + (bufGetCount ch.buf + ch.valueFresh.toNat) := by
    rw [hwaiting, harrived, List.length_append]
  have htake : arrived.take (arrived.length - (bufGetCount ch.buf + ch.valueFresh.toNat)) =
      gone := by
    rw [hlen, Nat.add_sub_cancel, harrived, List.take_left]
  simp only [htake]
  rw [hlen]
  cases smooth with
  | true =>
    obtain ⟨hle, hmean⟩ := mean_of_good (hringed.on hpos) hsmooth.2
    exact ⟨Nat.add_le_add_right hle _, hmean⟩
  | false => exact absurd hsmooth (Nat.ne_of_gt hpos)

end Places

/-- A step of the program in no update or flush. -/
theorem processing_go {n : Nat} {id : Fin n} {s : State n} (h : Processing s gone r stored) :
    Goes id s := by
  obtain ⟨ch, dev, pc, sample, arrived, results⟩ := s
  obtain ⟨hqueue, hat⟩ := h
  cases pc with
  | reset rest =>
    cases rest with
    | nil => exact ⟨_, gone, r, stored, rfl, ⟨hqueue, hat⟩, .inl rfl⟩
    | cons a rest => exact hat.elim
  | process => exact goes_process hqueue hat
  | choose => exact goes_choose hqueue hat.1 hat.2
  | smoothOut => exact goes_smoothOut hqueue (hat.1.on hat.2.1) hat.2.2.1 hat.2.2.2
  | testFresh smooth => exact goes_testFresh hqueue hat.1 hat.2
  | takeValue smooth => exact goes_takeValue hqueue hat.1 hat.2
  | clearFresh smooth => exact goes_clearFresh hqueue hat
  | readBuf smooth phase => exact goes_readBuf hqueue hat.1 hat.2
  | smoothIn =>
    obtain ⟨hready, g, rfl, hopen⟩ := hat
    exact goes_smoothIn hqueue hready hopen
  | countDown smooth => exact ⟨_, gone, r, stored, rfl, ⟨hqueue, hat⟩, .inl rfl⟩
  | deliver smooth =>
    exact ⟨_, gone, r, stored, rfl, ⟨hqueue, hat.1⟩,
      .inr ⟨_, rfl, deliver_isMean hqueue hat.1 hat.2⟩⟩

end Alcor.Proofs.Adc
