import Mathlib.Tactic.Ring
import Alcor.Timers.Common

/-!
# `Alcor.Proofs.Timers.Counters`: counters

The system timer counts, and differences of counters are right.

A call of `cmn_systimer_get` reads the raw counter and then the counter of
interrupts, until two reads of this one agree. What the call knows in
between is `InPhase`, and `Tracking` is the invariant of the timer. A
difference of counters is computed in 64 bits for any counter.

* `Tracking.step`: every regular event keeps the invariant.
* `systimer_exact`: each call returns the time, in every regular run.
* `interrupt_between_reads`: a run that is not regular.
* `diffRight_iff`: a difference is right exactly if nothing that can be
  too great is lost on the way.
* `not_always_diffRight`: from the last count to the first one.
-/

set_option autoImplicit false

/-!
## The time that is read

`Tracking` is the invariant: the counter has the microseconds of all
periods up to now, and a call knows of what it has read when that was
true. The loop ends when the counter has the same value before and after
a read of the raw counter (`agreed_value`). The first pass reads the raw
counter before the counter, so there the two belong together only if no
interrupt comes in between.
-/

namespace Alcor.Proofs.Timers

open Lib.Run (run AllSteps invariant_run)
open Alcor.Timers

variable {n : Nat} {s : Systimer}
variable {cfg : TimerConfig}

/-! ### Ticks and microseconds -/

theorem sysMax_lt (cfg : TimerConfig) : cfg.sysMax < 2 ^ 64 := by
  unfold TimerConfig.sysMax
  split <;> decide

theorem u64_of_lt (h : n < 2 ^ 64) : u64 n = n := Nat.mod_eq_of_lt h

/-- The microseconds are those of the periods and those of the raw counter. -/
theorem micros_eq (cfg : TimerConfig) (t : Nat) :
    t / cfg.period * cfg.usPerInterrupt + t % cfg.period / cfg.ticksForUs =
      t / cfg.ticksForUs := by
  have hsplit : cfg.ticksForUs * (t / cfg.period * cfg.usPerInterrupt) + t % cfg.period = t := by
    calc cfg.ticksForUs * (t / cfg.period * cfg.usPerInterrupt) + t % cfg.period
        = cfg.period * (t / cfg.period) + t % cfg.period := by
          rw [TimerConfig.period]
          ring
      _ = t := Nat.div_add_mod t cfg.period
  calc t / cfg.period * cfg.usPerInterrupt + t % cfg.period / cfg.ticksForUs
      = (cfg.ticksForUs * (t / cfg.period * cfg.usPerInterrupt) + t % cfg.period) /
          cfg.ticksForUs := (Nat.mul_add_div cfg.ticks_pos _ _).symm
    _ = t / cfg.ticksForUs := by rw [hsplit]

theorem periods_le (cfg : TimerConfig) (t : Nat) :
    t / cfg.period * cfg.usPerInterrupt ≤ t / cfg.ticksForUs := by
  rw [← micros_eq cfg t]
  exact Nat.le_add_right _ _

/-- The counter after the interrupts up to the time `t`. -/
def counterAt (cfg : TimerConfig) (t : Nat) : Nat := u64 (t / cfg.period * cfg.usPerInterrupt)

/-- A tick without an interrupt stays in the period. -/
theorem div_succ_of_ne {p : Nat} (h : (n + 1) % p ≠ 0) : (n + 1) / p = n / p := by
  rw [Nat.succ_div, if_neg fun hd => h (Nat.mod_eq_zero_of_dvd hd), Nat.add_zero]

theorem div_succ_of_eq {p : Nat} (h : (n + 1) % p = 0) : (n + 1) / p = n / p + 1 := by
  rw [Nat.succ_div, if_pos (Nat.dvd_of_mod_eq_zero h)]

theorem counterAt_interrupt (h : (n + 1) % cfg.period = 0) :
    u64 (counterAt cfg n + cfg.usPerInterrupt) = counterAt cfg (n + 1) := by
  rw [counterAt, counterAt, div_succ_of_eq h, Nat.add_mul, Nat.one_mul]
  exact Nat.mod_add_mod _ _ _

/-! ### The invariant -/

/-- What a call knows. -/
def InPhase (cfg : TimerConfig) (started now : Nat) : GetPhase → Prop
  | .idle                    => True
  | .start                   => started ≤ now
  | .rawRead tempcnt         => ∃ t, started ≤ t ∧ t ≤ now ∧ tempcnt = t % cfg.period ∧
      t / cfg.period = now / cfg.period
  | .sysRead tempcnt tempsys => ∃ t k, started ≤ t ∧ t ≤ now ∧ tempcnt = t % cfg.period ∧
      k ≤ t / cfg.period ∧ tempsys = u64 (k * cfg.usPerInterrupt)
  | .changed crtsys          => ∃ k, started ≤ now ∧ k ≤ now / cfg.period ∧
      crtsys = u64 (k * cfg.usPerInterrupt)
  | .agreed tempcnt crtsys   => ∃ t t' k, started ≤ t ∧ t ≤ t' ∧ t' ≤ now ∧
      tempcnt = t % cfg.period ∧ k ≤ t / cfg.period ∧ crtsys = u64 (k * cfg.usPerInterrupt) ∧
      crtsys = counterAt cfg t'
  | .overflow _              => False
  | .cleared _               => False

/-- The invariant of the timer. -/
structure Tracking (cfg : TimerConfig) (s : Systimer) : Prop where
  enabled : s.enabled = true
  counter : s.counter = counterAt cfg s.now
  phase : InPhase cfg s.started s.now s.phase
  exact_ : s.Exact cfg

/-- The value that the loop ends with is the time at which the raw counter was read. -/
theorem agreed_value {t t' k now : Nat} (htt : t ≤ t') (hnow : t' ≤ now)
    (hk : k ≤ t / cfg.period)
    (heq : u64 (k * cfg.usPerInterrupt) = counterAt cfg t')
    (hmax : now / cfg.ticksForUs ≤ cfg.sysMax) :
    u64 (u64 (k * cfg.usPerInterrupt) + t % cfg.period / cfg.ticksForUs) =
      t / cfg.ticksForUs := by
  have hlt := sysMax_lt cfg
  have hmono : t / cfg.period ≤ t' / cfg.period := Nat.div_le_div_right htt
  have hle' : t' / cfg.period * cfg.usPerInterrupt < 2 ^ 64 := by
    have h1 := periods_le cfg t'
    have h2 : t' / cfg.ticksForUs ≤ now / cfg.ticksForUs := Nat.div_le_div_right hnow
    omega
  have hkle : k * cfg.usPerInterrupt ≤ t' / cfg.period * cfg.usPerInterrupt :=
    Nat.mul_le_mul_right _ (Nat.le_trans hk hmono)
  -- no interrupt came between the two reads of the counter
  have hsame : k = t' / cfg.period := by
    rw [counterAt, u64_of_lt hle', u64_of_lt (Nat.lt_of_le_of_lt hkle hle')] at heq
    exact Nat.eq_of_mul_eq_mul_right cfg.us_pos heq
  have hkt : k = t / cfg.period := by omega
  have ht : t / cfg.ticksForUs < 2 ^ 64 := by
    have h2 : t / cfg.ticksForUs ≤ now / cfg.ticksForUs :=
      Nat.div_le_div_right (Nat.le_trans htt hnow)
    omega
  rw [u64_of_lt (Nat.lt_of_le_of_lt hkle hle'), hkt, micros_eq, u64_of_lt ht]

/-- What a call knows stays true when a tick comes, except after the first read. -/
theorem InPhase.tick {started now : Nat} {phase : GetPhase} (h : InPhase cfg started now phase)
    (hok : phase.isRawRead = true → (now + 1) % cfg.period ≠ 0) :
    InPhase cfg started (now + 1) phase := by
  cases phase with
  | idle => trivial
  | start => exact Nat.le_succ_of_le h
  | rawRead tempcnt =>
    obtain ⟨t, hstart, hle, hcnt, hperiod⟩ := h
    exact ⟨t, hstart, Nat.le_succ_of_le hle, hcnt,
      hperiod.trans (div_succ_of_ne (hok rfl)).symm⟩
  | sysRead tempcnt tempsys =>
    obtain ⟨t, k, hstart, hle, hrest⟩ := h
    exact ⟨t, k, hstart, Nat.le_succ_of_le hle, hrest⟩
  | changed crtsys =>
    obtain ⟨k, hstart, hk, hcrt⟩ := h
    exact ⟨k, Nat.le_succ_of_le hstart,
      Nat.le_trans hk (Nat.div_le_div_right (Nat.le_succ now)), hcrt⟩
  | agreed tempcnt crtsys =>
    obtain ⟨t, t', k, hstart, htt, hle, hrest⟩ := h
    exact ⟨t, t', k, hstart, htt, Nat.le_succ_of_le hle, hrest⟩
  | overflow crtsys => exact h
  | cleared crtsys => exact h

/-- A tick keeps the invariant. -/
theorem Tracking.tick (h : Tracking cfg s) (hok : s.Regular cfg .tick) :
    Tracking cfg (s.tick cfg) := by
  have hphase := h.phase.tick hok
  by_cases hint : (s.now + 1) % cfg.period = 0
  · -- the interrupt adds its microseconds
    have htick : s.tick cfg =
        { s with now := s.now + 1, counter := u64 (s.counter + cfg.usPerInterrupt) } := by
      simp only [Systimer.tick, if_pos hint, h.enabled, if_true, Systimer.periodic]
    rw [htick]
    refine ⟨h.enabled, ?_, hphase, h.exact_⟩
    show u64 (s.counter + cfg.usPerInterrupt) = counterAt cfg (s.now + 1)
    rw [h.counter, counterAt_interrupt hint]
  · have htick : s.tick cfg = { s with now := s.now + 1 } := by
      simp only [Systimer.tick, if_neg hint]
    rw [htick]
    refine ⟨h.enabled, ?_, hphase, h.exact_⟩
    show s.counter = counterAt cfg (s.now + 1)
    rw [h.counter, counterAt, counterAt, div_succ_of_ne hint]

/-- A step of a call keeps the invariant. -/
theorem Tracking.getStep {s' : Systimer} (h : Tracking cfg s) (hok : s.Regular cfg .step)
    (hstep : s.getStep cfg = some s') : Tracking cfg s' := by
  have hphase := h.phase
  cases hp : s.phase with
  | idle => simp [Systimer.getStep, hp] at hstep
  | start =>
    simp only [Systimer.getStep, hp, Option.some.injEq] at hstep
    rw [hp] at hphase
    subst hstep
    exact ⟨h.enabled, h.counter, ⟨s.now, hphase, Nat.le_refl _, rfl, rfl⟩, h.exact_⟩
  | rawRead tempcnt =>
    simp only [Systimer.getStep, hp, Option.some.injEq] at hstep
    rw [hp] at hphase
    obtain ⟨t, hstart, hle, hcnt, hperiod⟩ := hphase
    subst hstep
    refine ⟨h.enabled, h.counter, ⟨t, s.now / cfg.period, hstart, hle, hcnt,
      Nat.le_of_eq hperiod.symm, ?_⟩, h.exact_⟩
    exact h.counter
  | sysRead tempcnt tempsys =>
    rw [hp] at hphase
    obtain ⟨t, k, hstart, hle, hcnt, hk, hsys⟩ := hphase
    simp only [Systimer.getStep, hp] at hstep
    split at hstep
    · -- an interrupt came between the reads: the timer is read once more
      obtain rfl := Option.some.inj hstep
      refine ⟨h.enabled, h.counter, ⟨s.now / cfg.period, Nat.le_trans hstart hle,
        Nat.le_refl _, ?_⟩, h.exact_⟩
      exact h.counter
    · next hsame =>
      obtain rfl := Option.some.inj hstep
      exact ⟨h.enabled, h.counter, ⟨t, s.now, k, hstart, hle, Nat.le_refl _, hcnt, hk,
        (not_not.mp hsame).trans hsys, h.counter⟩, h.exact_⟩
  | changed crtsys =>
    rw [hp] at hphase
    obtain ⟨k, hstart, hk, hcrt⟩ := hphase
    simp only [Systimer.getStep, hp, Option.some.injEq] at hstep
    subst hstep
    exact ⟨h.enabled, h.counter, ⟨s.now, k, hstart, Nat.le_refl _, rfl, hk, hcrt⟩, h.exact_⟩
  | agreed tempcnt crtsys =>
    rw [hp] at hphase
    obtain ⟨t, t', k, hstart, htt, hle, hcnt, hk, hcrt, hcounter⟩ := hphase
    have hmax := hok (by rw [hp]; rfl)
    have hvalue : u64 (crtsys + tempcnt / cfg.ticksForUs) = t / cfg.ticksForUs := by
      rw [hcnt, hcrt]
      exact agreed_value htt hle hk (hcrt ▸ hcounter) hmax
    have htle : t / cfg.ticksForUs ≤ cfg.sysMax :=
      Nat.le_trans (Nat.div_le_div_right (Nat.le_trans htt hle)) hmax
    simp only [Systimer.getStep, hp, hvalue, if_neg (Nat.not_lt.mpr htle),
      Option.some.injEq] at hstep
    subst hstep
    refine ⟨h.enabled, h.counter, trivial, fun r hr => ?_⟩
    obtain hr | hr := List.mem_append.mp hr
    · exact h.exact_ r hr
    · rw [List.mem_singleton.mp hr]
      exact ⟨t, hstart, Nat.le_trans htt hle, (Nat.mod_eq_of_lt (Nat.lt_succ_of_le htle)).symm⟩
  | overflow crtsys =>
    -- a regular call does not come here
    rw [hp] at hphase
    exact hphase.elim
  | cleared crtsys =>
    rw [hp] at hphase
    exact hphase.elim

/-- Every regular event keeps the invariant. -/
theorem Tracking.step {s' : Systimer} (h : Tracking cfg s) {e : TimerEvent}
    (hok : s.Regular cfg e) (hstep : s.step cfg e = some s') : Tracking cfg s' := by
  cases e with
  | tick => exact Option.some.inj hstep ▸ h.tick hok
  | get =>
    simp only [Systimer.step] at hstep
    split at hstep
    · obtain rfl := Option.some.inj hstep
      exact ⟨h.enabled, h.counter, Nat.le_refl _, h.exact_⟩
    · cases hstep
  | step => exact h.getStep hok hstep

theorem tracking_start (cfg : TimerConfig) : Tracking cfg {} :=
  ⟨rfl, by simp [counterAt, u64], trivial, fun _ hr => absurd hr List.not_mem_nil⟩

/-- **The system timer**: in every run in which no interrupt comes
between the first two reads of a call, and no call is made when the
timer has overflowed, each call returns the time at which it has read
the raw counter. -/
theorem systimer_exact (cfg : TimerConfig) (es : List TimerEvent) (s : Systimer)
    (hok : AllSteps (Systimer.step cfg) (Systimer.Regular cfg) {} es)
    (hrun : run (Systimer.step cfg) {} es = some s) : s.Exact cfg :=
  (invariant_run (fun _ _ _ h hreg hstep => Tracking.step h hreg hstep) es _ _
    (tracking_start cfg) hok hrun).exact_

/-- A timer with an interrupt every three microseconds, and two ticks
in each microsecond. -/
def slowTimer : TimerConfig := ⟨2, 3, false, by decide, by decide⟩

/-- Three calls: one after three ticks; one that begins after five, with
the interrupt between its second read and its third, so that it reads
once more; and one after thirteen, behind two interrupts. -/
def threeGets : List TimerEvent :=
  [.tick, .tick, .tick, .get, .step, .step, .step, .step,
    .tick, .tick, .get, .step, .step, .tick, .step, .step, .step, .step] ++
  List.replicate 7 .tick ++ [.get, .step, .step, .step, .step]

theorem threeGets_ok :
    AllSteps (Systimer.step slowTimer) (Systimer.Regular slowTimer) {} threeGets := by
  decide

/-- The hypotheses of `systimer_exact` hold of the three calls, the
second of which goes through its loop once more. -/
theorem systimer_exact_three :
    ∃ s, run (Systimer.step slowTimer) {} threeGets = some s ∧
      s.results = [⟨3, 3, 1⟩, ⟨5, 6, 3⟩, ⟨13, 13, 6⟩] ∧ s.Exact slowTimer :=
  ⟨_, rfl, rfl, systimer_exact slowTimer threeGets _ threeGets_ok rfl⟩

/-- A timer with a period of two microseconds and one tick in each. -/
def smallTimer : TimerConfig := ⟨1, 2, false, by decide, by decide⟩

/-- An interrupt between the first two reads: the call begins after one microsecond and ends after
two, and its result is 3. -/
theorem interrupt_between_reads :
    ∃ s, run (Systimer.step smallTimer) {} [.tick, .get, .step, .tick, .step, .step, .step] =
        some s ∧ s.results = [⟨1, 2, 3⟩] ∧ ¬ s.Exact smallTimer := by
  refine ⟨_, rfl, rfl, fun h => ?_⟩
  obtain ⟨t, hstart, hend, hvalue⟩ := h ⟨1, 2, 3⟩ (by decide)
  have ht : t = 1 ∨ t = 2 := by
    have h1 : 1 ≤ t := hstart
    have h2 : t ≤ 2 := hend
    omega
  obtain rfl | rfl := ht
  · exact absurd hvalue (by decide)
  · exact absurd hvalue (by decide)

end Alcor.Proofs.Timers

/-!
## When a timer difference is right

Every value on the way is compared with its exact one. The wrap and the
product are where the code can overflow: a 32-bit `timer_data_type` does
not hold the 2^32 counts of a 32-bit timer, and microseconds times a
million exceed 64 bits after 213 days.
-/

namespace Alcor.Proofs.Timers

open Alcor.Timers

variable (t : TimerSetup) (id : Nat)

theorem width_le : t.width ≤ 64 := by
  unfold TimerSetup.width
  split <;> decide

theorem sysMax_lt_width : t.sysMax < 2 ^ t.width := by
  unfold TimerSetup.sysMax TimerSetup.width
  split <;> decide

theorem data_lt (n : Nat) : t.data n < 2 ^ t.width := Nat.mod_lt _ (Nat.two_pow_pos _)

theorem data_eq_iff (n : Nat) : t.data n = n ↔ n < 2 ^ t.width :=
  ⟨fun h => h ▸ data_lt t n, Nat.mod_eq_of_lt⟩

/-- The greatest count is a `timer_data_type`. -/
theorem maxCnt_lt : t.maxCnt id < 2 ^ t.width := by
  have hpos : 0 < 2 ^ t.width := Nat.two_pow_pos _
  unfold TimerSetup.maxCnt TimerSetup.platformTimerOp
  dsimp only
  split
  · split
    · exact hpos
    · exact data_lt t _
  · split
    · exact data_lt t _
    · exact data_lt t _

/-- A `tend` in the unsigned type is not before `tstart`. -/
theorem sub_mod_eq {start tend : Nat} (hle : start ≤ tend) (htend : tend < 2 ^ 64) :
    (tend + 2 ^ 64 - start) % 2 ^ 64 = tend - start := by
  rw [show tend + 2 ^ 64 - start = tend - start + 2 ^ 64 by omega, Nat.add_mod_right,
    Nat.mod_eq_of_lt (by omega)]

section Counts
variable {t id} {start stop : Nat} (hstart : start ≤ t.maxCnt id) (hstop : stop ≤ t.maxCnt id)
include hstart hstop

/-- The counts that have elapsed, without a remainder. -/
theorem elapsed_eq : t.elapsed id start stop =
    stop + (if stop < start then t.maxCnt id + 1 else 0) - start := by
  unfold TimerSetup.elapsed
  split
  · next h =>
      -- the counter has wrapped
      have hmod : ((stop : Int) - start) % (t.maxCnt id + 1) =
          stop + (t.maxCnt id + 1) - start := by
        rw [show (stop : Int) - start =
            stop + (t.maxCnt id + 1) - start - (t.maxCnt id + 1) by omega,
          Int.sub_emod_right]
        exact Int.emod_eq_of_lt (by omega) (by omega)
      rw [hmod]
      omega
  · next h =>
      rw [Int.emod_eq_of_lt (by omega) (by omega)]
      omega

/-- In exact arithmetic the difference is right. -/
theorem exactSteps_result : (t.exactSteps id start stop).result =
    min (t.elapsed id start stop * 1000000 / t.clock id) t.sysMax := by
  rw [elapsed_eq hstart hstop]
  rfl

/-- No value is truncated exactly if those that can be too great fit. -/
theorem diffSteps_eq_iff :
    t.diffSteps id start stop = t.exactSteps id start stop ↔ t.DiffFits id start stop := by
  have hmax := maxCnt_lt t id
  have hwidth := Nat.pow_le_pow_right (by decide : 0 < 2) (width_le t)
  unfold TimerSetup.DiffFits
  rw [elapsed_eq hstart hstop]
  constructor
  · intro heq
    simp only [TimerSetup.diffSteps, TimerSetup.exactSteps, DiffSteps.mk.injEq] at heq
    obtain ⟨hfreq, hwrap, htend, -, hproduct, -, -⟩ := heq
    refine ⟨?_, fun h => ?_, ?_⟩
    · rw [← hfreq]
      exact Nat.mod_lt _ (by decide)
    · rw [if_pos h, if_pos h, data_eq_iff] at hwrap
      refine ⟨hwrap, ?_⟩
      rw [if_pos h, if_pos h, (data_eq_iff t _).mpr hwrap, ← Nat.add_assoc] at htend
      rw [← htend]
      exact Nat.mod_lt _ (by decide)
    · rw [← hproduct]
      exact Nat.mod_lt _ (by decide)
  · rintro ⟨hfreq, hwrap, hproduct⟩
    -- one value after the other
    have hadded : (if stop < start then t.data (t.maxCnt id + 1) else 0) =
        if stop < start then t.maxCnt id + 1 else 0 := by
      split
      · next h => exact (data_eq_iff t _).mpr (hwrap h).1
      · rfl
    obtain ⟨wrap, hw⟩ : ∃ wrap, wrap = if stop < start then t.maxCnt id + 1 else 0 := ⟨_, rfl⟩
    have htend : stop + wrap < 2 ^ 64 := by
      rw [hw]
      split
      · next h =>
          have := (hwrap h).2
          omega
      · omega
    have hle : start ≤ stop + wrap := by
      rw [hw]
      split <;> omega
    rw [← hw] at hproduct
    have hres : min ((stop + wrap - start) * 1000000 / t.clock id) t.sysMax < 2 ^ t.width :=
      Nat.lt_of_le_of_lt (Nat.min_le_right _ _) (sysMax_lt_width t)
    simp only [TimerSetup.diffSteps, TimerSetup.exactSteps, hadded, ← hw,
      Nat.mod_eq_of_lt hfreq, Nat.mod_eq_of_lt htend, sub_mod_eq hle htend,
      Nat.mod_eq_of_lt hproduct, (data_eq_iff t _).mpr hres]

end Counts

/-- **Timer differences**: right, with nothing lost on the way,
exactly if what can be too great fits. The steps of the computation
are those of exact arithmetic then, and the other way round. -/
theorem diffRight_iff {start stop : Nat} (_hclock : 0 < t.clock id) (hstart : start ≤ t.maxCnt id)
    (hstop : stop ≤ t.maxCnt id) : t.DiffRight id start stop ↔ t.DiffFits id start stop := by
  rw [← diffSteps_eq_iff hstart hstop]
  constructor
  · exact And.right
  · intro heq
    refine ⟨?_, heq⟩
    rw [TimerSetup.platformTimerGetDiffUs, heq, exactSteps_result hstart hstop]

/-- A hardware timer of 32 bits that counts microseconds, in a build with integers as numbers. -/
def integralTimer : TimerSetup where
  integral := true
  systimer := true
  vtmrNumTimers := 0
  vtmrFreqHz := 0
  countsDown := false
  sTimerOp _ op _ := if op = .GET_CLOCK then 1000000 else 0xFFFFFFFF
  readSys := 0
  vtmrCounters _ := 0

/-- Five microseconds. -/
theorem diffRight_five : integralTimer.DiffRight 0 10 15 :=
  (diffRight_iff integralTimer 0 (by decide) (by decide) (by decide)).mpr (by
    refine ⟨by decide, fun h => absurd h (by decide), by decide⟩)

/-- From the last count to the first one, the difference is the greatest value instead of one
microsecond. -/
theorem not_always_diffRight :
    ¬ ∀ (t : TimerSetup) (id start stop : Nat), 0 < t.clock id → start ≤ t.maxCnt id →
      stop ≤ t.maxCnt id → t.DiffRight id start stop := by
  intro h
  have hright := (h integralTimer 0 0xFFFFFFFF 0 (by decide) (by decide) (by decide)).1
  revert hright
  decide

end Alcor.Proofs.Timers
