import Mathlib.Algebra.Group.Nat.Defs
import Mathlib.Data.Int.Init
import Alcor.Lib.Run
import Alcor.Lib.Memory

/-!
# `Alcor.Timers.Common`: the timers of `src/common_tmr.c`

The system timer, the virtual timers, and the difference of two counter
values.

* `Systimer`: the system timer with the steps of `cmn_systimer_get`;
  `Systimer.Exact` is what is to hold of its results.
* `Vtmrs`: the virtual timers with the instructions of
  `vtmr_set_match_int`; `Watch` is what is expected of each.
* `platformTimerGetDiffUs`: the difference, for any kind of timer, and
  `DiffRight` for what it is to be.
-/

set_option autoImplicit false

/-!
## The system timer

`cmn_systimer_periodic` and `cmn_systimer_get` of `src/common_tmr.c`,
with the hardware counter behind them. The time is counted in ticks of
the raw counter, which restarts at 0 with each interrupt. A call of
`cmn_systimer_get` is a sequence of steps, one for each read or write of
something that the interrupt also changes, and ticks may come between
any two of them.
-/

namespace Alcor.Timers

/-- The settings of the timer. -/
structure TimerConfig where
  /-- `cmn_systimer_ticks_for_us`. -/
  ticksForUs : Nat
  /-- `cmn_systimer_us_per_interrupt`. -/
  usPerInterrupt : Nat
  /-- The numbers of the language are 32-bit integers, so the timer has 31 bits. -/
  integral : Bool
  ticks_pos : 0 < ticksForUs
  us_pos : 0 < usPerInterrupt

/-- `PLATFORM_TIMER_SYS_MAX`. -/
def TimerConfig.sysMax (cfg : TimerConfig) : Nat :=
  if cfg.integral then 2 ^ 31 - 2 else 2 ^ 52 - 2

/-- The ticks from one interrupt to the next. -/
def TimerConfig.period (cfg : TimerConfig) : Nat := cfg.usPerInterrupt * cfg.ticksForUs

/-- A value of type `u64`. -/
def u64 (n : Nat) : Nat := n % 2 ^ 64

/-- Where a call of `cmn_systimer_get` stands. -/
inductive GetPhase where
  /-- No call is running. -/
  | idle
  | start
  /-- `tempcnt` is read. -/
  | rawRead (tempcnt : Nat)
  /-- `tempsys` is there, too; the test of the loop comes next. -/
  | sysRead (tempcnt tempsys : Nat)
  /-- The counter has changed to `crtsys`. -/
  | changed (crtsys : Nat)
  /-- The loop is over. -/
  | agreed (tempcnt crtsys : Nat)
  /-- The timer has overflowed, and its interrupt is disabled. -/
  | overflow (crtsys : Nat)
  /-- The counter is reset. -/
  | cleared (crtsys : Nat)
  deriving DecidableEq

/-- The raw counter is read, and the other one is not. -/
def GetPhase.isRawRead : GetPhase → Bool
  | .rawRead _ => true
  | _          => false

/-- The result comes next. -/
def GetPhase.isAgreed : GetPhase → Bool
  | .agreed _ _ => true
  | _           => false

/-- A finished call: when it began and ended, and its result. -/
structure GetResult where
  started : Nat
  ended : Nat
  value : Nat
  deriving DecidableEq

/-- The timer and a program that reads it. -/
structure Systimer where
  /-- The ticks since the start. -/
  now : Nat := 0
  /-- `cmn_systimer_counter`. -/
  counter : Nat := 0
  /-- The interrupt is enabled. -/
  enabled : Bool := true
  /-- The interrupt has come while it was disabled. -/
  pending : Bool := false
  phase : GetPhase := .idle
  /-- When the call began. -/
  started : Nat := 0
  /-- The calls that have come back. -/
  results : List GetResult := []

/-- What happens. -/
inductive TimerEvent where
  /-- The raw counter counts. -/
  | tick
  /-- `cmn_systimer_get` is called. -/
  | get
  /-- The call takes a step. -/
  | step

section
variable (cfg : TimerConfig)

/-- `platform_timer_sys_raw_read`. -/
def Systimer.rawRead (s : Systimer) : Nat := s.now % cfg.period

/-- `cmn_systimer_periodic`. -/
def Systimer.periodic (s : Systimer) : Systimer :=
  { s with counter := u64 (s.counter + cfg.usPerInterrupt) }

/-- One tick of the raw counter. -/
def Systimer.tick (s : Systimer) : Systimer :=
  let s := { s with now := s.now + 1 }
  if s.now % cfg.period = 0 then
    if s.enabled then s.periodic cfg else { s with pending := true }
  else s

/-- The end of a call. -/
def Systimer.finish (s : Systimer) (value : Nat) : Systimer :=
  { s with phase := .idle, results := s.results ++ [⟨s.started, s.now, value⟩] }

/-- One step of `cmn_systimer_get`. -/
def Systimer.getStep (s : Systimer) : Option Systimer :=
  match s.phase with
  | .idle                   => none
  | .start                  => some { s with phase := .rawRead (s.rawRead cfg) }
  | .rawRead tempcnt        => some { s with phase := .sysRead tempcnt s.counter }
  | .sysRead tempcnt tempsys =>
    if s.counter ≠ tempsys then some { s with phase := .changed s.counter }
    else some { s with phase := .agreed tempcnt s.counter }
  | .changed crtsys         => some { s with phase := .sysRead (s.rawRead cfg) crtsys }
  | .agreed tempcnt crtsys  =>
    let crtsys := u64 (crtsys + tempcnt / cfg.ticksForUs)
    if crtsys > cfg.sysMax then
      some { s with phase := .overflow (crtsys % cfg.sysMax), enabled := false }
    else some (s.finish crtsys)
  | .overflow crtsys        => some { s with phase := .cleared crtsys, counter := 0 }
  | .cleared crtsys         =>
    let enabled := { s with enabled := true, pending := false }
    some ((if s.pending then enabled.periodic cfg else enabled).finish crtsys)

/-- One event. -/
def Systimer.step (s : Systimer) : TimerEvent → Option Systimer
  | .tick => some (s.tick cfg)
  | .get  => if s.phase = .idle then some { s with phase := .start, started := s.now } else none
  | .step => s.getStep cfg

/-- What is expected: each result is the time in microseconds at a moment of the call, modulo
`PLATFORM_TIMER_SYS_MAX + 1`. -/
def Systimer.Exact (s : Systimer) : Prop :=
  ∀ r ∈ s.results, ∃ t, r.started ≤ t ∧ t ≤ r.ended ∧
    r.value = t / cfg.ticksForUs % (cfg.sysMax + 1)

/-- No interrupt comes between the first read of the raw counter and the first read of
`cmn_systimer_counter`, and the time of a call is not above `PLATFORM_TIMER_SYS_MAX`. -/
def Systimer.Regular (s : Systimer) : TimerEvent → Prop
  | .tick => s.phase.isRawRead = true → (s.now + 1) % cfg.period ≠ 0
  | .get  => True
  | .step => s.phase.isAgreed = true → s.now / cfg.ticksForUs ≤ cfg.sysMax

instance Systimer.decidableRegular (s : Systimer) : ∀ e, Decidable (s.Regular cfg e)
  | .tick => inferInstanceAs (Decidable (_ → _))
  | .get  => .isTrue trivial
  | .step => inferInstanceAs (Decidable (_ → _))

end

end Alcor.Timers

/-!
## The virtual timers

The virtual timers of `src/common_tmr.c`. `cmn_virtual_timer_cb` is one
event; the functions of the program are sequences of instructions, one
for each access to the variables that the callback shares with them, and
ticks may come between any two. A change of one bit is a load of its
byte and a store of the byte with the bit changed.

`watch` says of each timer what is expected of its match interrupt. It
is not part of the program: `Vtmrs.sound` stays true as long as each tick
queues what is expected. What is expected ends when the timer is
restarted or changed.
-/

namespace Alcor.Timers

open Lib (u32)

/-- `VTMR_MAX_PERIOD`. -/
def VTMR_MAX_PERIOD : Nat := 2 ^ 32 - 1

/-- The bit arrays `vtmr_int_periodic_flag`, `vtmr_int_enabled` and `vtmr_int_flag`. -/
inductive Bits where
  | periodic
  | enabled
  | flag
  deriving DecidableEq

/-- The accesses of the program to the variables of the timers. -/
inductive Instr where
  /-- `vtmr_period_limit[ id ] = final`. -/
  | limit (id final : Nat)
  /-- The byte with the bit of a timer is read. -/
  | load (b : Bits)
  /-- It is written back, with the bit of the timer `id` changed to `v`. -/
  | store (b : Bits) (id : Nat) (v : Bool)
  /-- `vtmr_reset_idx = id`. -/
  | reset (id : Nat)
  /-- `while( vtmr_reset_idx != -1 )`. -/
  | awaitReset
  /-- `while( vtmr_counters[ id ] < final )`. -/
  | awaitCounter (id final : Nat)
  /-- `vtmr_set_match_int` returns `PLATFORM_TIMER_INT_OK`. -/
  | ret (id final : Nat) (oneshot : Bool)
  deriving DecidableEq

/-- What is expected of the match interrupt of a timer. -/
inductive Watch where
  /-- Anything. -/
  | free
  /-- A call of `vtmr_set_match_int` is running: nothing is queued. -/
  | changing
  /-- The call has returned, and `ticks` have followed. -/
  | armed (final : Nat) (oneshot : Bool) (ticks : Nat)
  deriving DecidableEq

/-- The virtual timers and the program. -/
structure Vtmrs where
  /-- `VTMR_NUM_TIMERS`, a constant of the build: 4 wherever there are
  virtual timers. -/
  num : Nat
  /-- `VTMR_FREQ_HZ`. -/
  freqHz : Nat
  counters : Nat → Nat := fun _ => 0
  periodLimit : Nat → Nat := fun _ => 0
  bits : Bits → Nat → Bool := fun _ _ => false
  /-- `vtmr_reset_idx`, `none` for −1. It is an `s8`, so this is the
  variable of a build with at most 128 timers. -/
  resetIdx : Option Nat := none
  /-- What is left of the running function. -/
  code : List Instr := []
  /-- The byte that was loaded, for all timers. -/
  loaded : Nat → Bool := fun _ => false
  /-- The timers in the calls of `elua_int_add`. -/
  queue : List Nat := []
  watch : Nat → Watch := fun _ => .free
  sound : Bool := true

/-! ### `cmn_virtual_timer_cb` -/

/-- The counter of a timer in the loop, before it is compared. -/
def Vtmrs.counted (s : Vtmrs) (i : Nat) : Nat := u32 (s.counters i + 1)

/-- The counter has reached the limit. -/
def Vtmrs.matches_ (s : Vtmrs) (i : Nat) : Bool := decide (s.periodLimit i ≤ s.counted i)

/-- The loop calls `elua_int_add` for the timer. -/
def Vtmrs.queues (s : Vtmrs) (i : Nat) : Bool := s.matches_ i && s.bits .enabled i

/-- The counter after the loop. -/
def Vtmrs.counterAfter (s : Vtmrs) (i : Nat) : Nat :=
  if s.matches_ i && s.bits .periodic i then 0 else s.counted i

/-- The bits after the loop. -/
def Vtmrs.bitsAfter (s : Vtmrs) (b : Bits) (i : Nat) : Bool :=
  match b with
  | .periodic => s.bits .periodic i
  | .enabled  => s.bits .enabled i && !(s.matches_ i && !s.bits .periodic i)
  | .flag     => s.bits .flag i || s.matches_ i

/-- The tick queues an interrupt of the timer exactly if it is expected to. -/
def Watch.expects : Watch → Bool → Bool
  | .free,                      _      => true
  | .changing,                  queued => !queued
  | .armed final oneshot ticks, queued =>
    queued == decide (if oneshot then ticks + 1 = final else (ticks + 1) % final = 0)

/-- A tick is counted. -/
def Watch.tick : Watch → Watch
  | .armed final oneshot ticks => .armed final oneshot (ticks + 1)
  | w                          => w

/-- `cmn_virtual_timer_cb`. -/
def Vtmrs.callback (s : Vtmrs) : Vtmrs :=
  { s with
    counters := fun i =>
      if s.resetIdx = some i then 0 else if i < s.num then s.counterAfter i else s.counters i
    bits := fun b i => if i < s.num then s.bitsAfter b i else s.bits b i
    resetIdx := none
    queue := s.queue ++ (List.range s.num).filter s.queues
    watch := fun i => (s.watch i).tick
    sound := s.sound && (List.range s.num).all fun i => (s.watch i).expects (s.queues i) }

/-! ### The functions of the program -/

/-- `vtmr_reset_timer`. -/
def resetTimer (id : Nat) : List Instr := [.reset id, .awaitReset]

/-- The ticks of a time in microseconds. -/
def Vtmrs.final (s : Vtmrs) (us : Nat) : Nat := us * s.freqHz / 1000000

/-- `vtmr_delay` for a time that is not too long. -/
def Vtmrs.delay (s : Vtmrs) (id us : Nat) : List Instr :=
  resetTimer id ++ [.awaitCounter id (s.final us)]

/-- The last part of `vtmr_set_match_int`, for a period of `final` ticks. -/
def setMatch (id final : Nat) (oneshot : Bool) : List Instr :=
  [.limit id final, .load .periodic, .store .periodic id !oneshot, .load .flag,
    .store .flag id false] ++ resetTimer id ++
  [.load .enabled, .store .enabled id true, .ret id final oneshot]

/-- `vtmr_set_match_int` for a period of 0. -/
def clearMatch (id : Nat) : List Instr :=
  [.load .enabled, .store .enabled id false, .load .flag, .store .flag id false]

/-- The timers of one byte. -/
def sameByte (i j : Nat) : Bool := i / 8 == j / 8

/-- One instruction. -/
def Vtmrs.exec (s : Vtmrs) : Option Vtmrs :=
  match s.code with
  | []                     => none
  | .limit id final :: code =>
    some { s with code, periodLimit := Function.update s.periodLimit id (u32 final) }
  | .load b :: code        => some { s with code, loaded := s.bits b }
  | .store b id v :: code  =>
    some { s with
      code
      bits := Function.update s.bits b fun i =>
        if i = id then v else if sameByte i id then s.loaded i else s.bits b i }
  | .reset id :: code      => some { s with code, resetIdx := some id }
  | .awaitReset :: code    => if s.resetIdx = none then some { s with code } else some s
  | .awaitCounter id final :: code =>
    if s.counters id < final then some s else some { s with code }
  | .ret id final oneshot :: code =>
    some { s with code, watch := Function.update s.watch id (.armed final oneshot 0) }

/-- What happens. -/
inductive VtmrEvent where
  /-- `cmn_virtual_timer_cb` is called. -/
  | tick
  /-- The running function takes a step. -/
  | step
  /-- The program starts a timer. -/
  | start (id : Nat)
  /-- The program calls `vtmr_delay`. -/
  | delay (id us : Nat)
  /-- The program calls `vtmr_set_match_int`. -/
  | setMatchInt (id us : Nat) (oneshot : Bool)

/-- A function is called that restarts or changes the timer. A timer that
is restarted, by a start or by `vtmr_delay`, is not followed any more
(`Watch.free`), also where its one-shot interrupt has not come yet: it
is due again as many ticks after the restart. -/
def Vtmrs.call (s : Vtmrs) (id : Nat) (watch : Watch) (code : List Instr) : Vtmrs :=
  { s with code, watch := Function.update s.watch id watch }

/-- One event. The program calls one function at a time, for timers that exist. -/
def Vtmrs.step (s : Vtmrs) : VtmrEvent → Option Vtmrs
  | .tick                      => some s.callback
  | .step                      => s.exec
  | .start id                  =>
    if s.code = [] ∧ id < s.num then some (s.call id .free (resetTimer id)) else none
  | .delay id us               =>
    if s.code = [] ∧ id < s.num then
      if VTMR_MAX_PERIOD < us then some s else some (s.call id .free (s.delay id us))
    else none
  | .setMatchInt id us oneshot =>
    if s.code = [] ∧ id < s.num then
      if VTMR_MAX_PERIOD < us then some s                          -- `INT_TOO_LONG`
      else if us = 0 then some (s.call id .free (clearMatch id))
      else if s.final us = 0 then some s                           -- `INT_TOO_SHORT`
      else some (s.call id .changing (setMatch id (s.final us) oneshot))
    else none

/-- The timer is reset, and `vtmr_set_match_int` has not returned yet. -/
def Vtmrs.settling (s : Vtmrs) : Bool :=
  match s.code with
  | .awaitReset :: .load _ :: _        => s.resetIdx = none
  | .load .enabled :: .store _ _ v :: _ => v
  | .store .enabled _ v :: _           => v
  | .ret _ _ _ :: _                    => true
  | _                                  => false

/-- A byte of bits has been loaded, and not yet written back. -/
def Vtmrs.modifying (s : Vtmrs) : Bool :=
  match s.code with
  | .store _ _ _ :: _ => true
  | _                 => false

/-- A tick during `vtmr_set_match_int` does not find the timer enabled and its counter at the
limit, and none comes between the reset and the return, nor while a byte is changed. The ticks of
a period are a 32-bit number. -/
def Vtmrs.Regular (s : Vtmrs) : VtmrEvent → Prop
  | .tick               => (∀ i < s.num, s.watch i = .changing → s.queues i = false) ∧
      s.settling = false ∧ s.modifying = false
  | .setMatchInt _ us _ => s.final us < 2 ^ 32
  | _                   => True

instance Vtmrs.decidableRegular (s : Vtmrs) : ∀ e, Decidable (s.Regular e)
  | .tick              => inferInstanceAs (Decidable (_ ∧ _ ∧ _))
  | .setMatchInt _ _ _ => inferInstanceAs (Decidable (_ < _))
  | .step              => .isTrue trivial
  | .start _           => .isTrue trivial
  | .delay _ _         => .isTrue trivial

end Alcor.Timers

/-!
## The difference of two timer counts

`platform_timer_op` and `platform_timer_get_diff_us` of
`src/common_tmr.c`, for the three kinds of timers. `timer_data_type` has
32 or 64 bits, by the numbers of the language; the difference itself is
computed in an `u64`. `DiffSteps` has every value that comes up on the
way, so that it can be compared with the one of exact arithmetic.
-/

namespace Alcor.Timers

/-- `PLATFORM_TIMER_SYS_ID`. -/
def PLATFORM_TIMER_SYS_ID : Nat := 0x100

/-- `PLATFORM_TIMER_SYS_FREQ`. -/
def PLATFORM_TIMER_SYS_FREQ : Nat := 1000000

/-- `VTMR_FIRST_ID`. -/
def VTMR_FIRST_ID : Nat := 0x200

/-- `PLATFORM_TIMER_OP_START` and the others. -/
inductive TimerOp where
  | START
  | READ
  | SET_CLOCK
  | GET_CLOCK
  | GET_MAX_DELAY
  | GET_MIN_DELAY
  | GET_MAX_CNT
  deriving DecidableEq

/-- The build and the timers of a platform. -/
structure TimerSetup where
  /-- `LUA_NUMBER_INTEGRAL` without `LUA_INTEGRAL_LONGLONG`, or PicoC. -/
  integral : Bool
  /-- `SYSTIMER_SUPPORT`. -/
  systimer : Bool
  /-- `VTMR_NUM_TIMERS`. -/
  vtmrNumTimers : Nat
  /-- `VTMR_FREQ_HZ`. -/
  vtmrFreqHz : Nat
  /-- `PLATFORM_TMR_COUNTS_DOWN`. -/
  countsDown : Bool
  /-- `platform_s_timer_op`. -/
  sTimerOp : Nat → TimerOp → Nat → Nat
  /-- `platform_timer_read_sys`. -/
  readSys : Nat
  /-- `vtmr_counters`. -/
  vtmrCounters : Nat → Nat

namespace TimerSetup

variable (t : TimerSetup)

/-- The bits of `timer_data_type`. -/
def width : Nat := if t.integral then 32 else 64

/-- `PLATFORM_TIMER_SYS_MAX`. -/
def sysMax : Nat := if t.integral then 2 ^ 31 - 2 else 2 ^ 52 - 2

/-- A value of type `timer_data_type`. -/
def data (n : Nat) : Nat := n % 2 ^ t.width

/-- `TIMER_IS_VIRTUAL`. -/
def isVirtual (id : Nat) : Bool :=
  0 < t.vtmrNumTimers && VTMR_FIRST_ID ≤ id && id < t.vtmrNumTimers + VTMR_FIRST_ID

/-- `platform_timer_op`, what it returns, given `platform_timer_get_diff_us` of the timer. -/
def platformTimerOp (getDiffUs : Nat → Nat → Nat) (id : Nat) (op : TimerOp) (arg : Nat) : Nat :=
  if id = PLATFORM_TIMER_SYS_ID then
    if !t.systimer then 0
    else
      match op with
      | .START | .READ           => t.data t.readSys
      | .SET_CLOCK | .GET_CLOCK  => t.data PLATFORM_TIMER_SYS_FREQ
      | .GET_MAX_DELAY           => t.data (t.sysMax + 1)
      | .GET_MAX_CNT             => t.data t.sysMax
      | .GET_MIN_DELAY           => 1
  else if !t.isVirtual id then
    match op with
    | .GET_MAX_DELAY => getDiffUs 0 (t.data (t.sTimerOp id .GET_MAX_CNT 0))
    | .GET_MIN_DELAY => getDiffUs 0 1
    | .START | .READ =>
      if t.countsDown then
        t.data (t.data (t.sTimerOp id .GET_MAX_CNT 0) + 2 ^ t.width - t.data (t.sTimerOp id op 0))
      else t.data (t.sTimerOp id op arg)
    | _              => t.data (t.sTimerOp id op arg)
  else
    match op with
    | .START                  => 0
    | .READ                   => t.data (t.vtmrCounters (id - VTMR_FIRST_ID))
    | .GET_MAX_DELAY          => getDiffUs 0 0xFFFFFFFF
    | .GET_MIN_DELAY          => getDiffUs 0 1
    | .GET_MAX_CNT            => t.data VTMR_MAX_PERIOD
    | .SET_CLOCK | .GET_CLOCK => t.data t.vtmrFreqHz

/-- The frequency of a timer; this operation needs no difference. -/
def clock (id : Nat) : Nat := t.platformTimerOp (fun _ _ => 0) id .GET_CLOCK 0

/-- The greatest count of a timer; neither does this one. -/
def maxCnt (id : Nat) : Nat := t.platformTimerOp (fun _ _ => 0) id .GET_MAX_CNT 0

end TimerSetup

/-- The values that come up in `platform_timer_get_diff_us`, in their order. -/
structure DiffSteps where
  /-- `freq` -/
  freq : Nat
  /-- What is added to `tend` when the timer has wrapped. -/
  wrap : Nat
  /-- `tend` -/
  tend : Nat
  /-- `tend - tstart` -/
  diff : Nat
  /-- `( tend - tstart ) * 1000000` -/
  product : Nat
  /-- `tstart` in the end. -/
  tstart : Nat
  result : Nat
  deriving DecidableEq

namespace TimerSetup

variable (t : TimerSetup) (id : Nat)

/-- What the function computes. -/
def diffSteps (start stop : Nat) : DiffSteps :=
  let freq := t.clock id % 2 ^ 32
  let wrap := if stop < start then t.data (t.maxCnt id + 1) else 0
  let tend := (stop + wrap) % 2 ^ 64
  let diff := (tend + 2 ^ 64 - start) % 2 ^ 64
  let product := diff * 1000000 % 2 ^ 64
  let tstart := product / freq
  { freq, wrap, tend, diff, product, tstart, result := t.data (min tstart t.sysMax) }

/-- The same in exact arithmetic. -/
def exactSteps (start stop : Nat) : DiffSteps :=
  let freq := t.clock id
  let wrap := if stop < start then t.maxCnt id + 1 else 0
  let tend := stop + wrap
  let diff := tend - start
  let product := diff * 1000000
  let tstart := product / freq
  { freq, wrap, tend, diff, product, tstart, result := min tstart t.sysMax }

/-- `platform_timer_get_diff_us`. -/
def platformTimerGetDiffUs (start stop : Nat) : Nat := (t.diffSteps id start stop).result

/-- The counts from `start` to `stop`. -/
def elapsed (start stop : Nat) : Nat := (((stop : Int) - start) % (t.maxCnt id + 1)).toNat

/-- The difference in microseconds, at most the greatest value of the system timer, without an
overflow or a truncation on the way. -/
def DiffRight (start stop : Nat) : Prop :=
  t.platformTimerGetDiffUs id start stop =
      min (t.elapsed id start stop * 1000000 / t.clock id) t.sysMax ∧
    t.diffSteps id start stop = t.exactSteps id start stop

/-- The frequency fits in an `u32`; if the timer has wrapped, its number of counts fits in a
`timer_data_type`, and the end behind them in an `u64`; and so does the product. -/
def DiffFits (start stop : Nat) : Prop :=
  t.clock id < 2 ^ 32 ∧
    (stop < start → t.maxCnt id + 1 < 2 ^ t.width ∧ stop + t.maxCnt id + 1 < 2 ^ 64) ∧
    t.elapsed id start stop * 1000000 < 2 ^ 64

end TimerSetup

end Alcor.Timers
