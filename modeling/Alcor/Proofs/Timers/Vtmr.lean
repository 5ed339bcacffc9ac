import Alcor.Timers.Common

/-!
# `Alcor.Proofs.Timers.Vtmr`: match interrupts at the right tick

`Armed` is what the variables of a timer are after `vtmr_set_match_int`
has returned and `ticks` have followed, `Changing` what they are while
the call runs, for each instruction that is left. The instructions of one
timer leave the others alone: the other bits of a byte are written back
as they were loaded.

* `Kept.callback`: the step lemma for a tick.
* `Kept.exec`: the step lemma for an instruction, with `exec_frame` for
  the timers that it does not name.
* `vtmr_sound`: in every run whose ticks are regular each tick queues
  what is expected.
* `settings_leak`: two runs with a tick inside a call.
-/

set_option autoImplicit false

namespace Alcor.Proofs.Timers

open Lib (u32)
open Lib.Run (run AllSteps invariant_run)
open Alcor.Timers

variable {s s' : Vtmrs} {i final ticks : Nat} {oneshot : Bool}

/-- The timer that an instruction changes. -/
def target : Instr → Option Nat
  | .limit id _     => some id
  | .load _         => none
  | .store _ id _   => some id
  | .reset id       => some id
  | .awaitReset     => none
  | .awaitCounter _ _ => none
  | .ret id _ _     => some id

/-- The variables of a timer after `ticks` ticks of a match interrupt. -/
structure Armed (s : Vtmrs) (i final : Nat) (oneshot : Bool) (ticks : Nat) : Prop where
  pos : 0 < final
  lt : final < 2 ^ 32
  limit : s.periodLimit i = final
  periodic : s.bits .periodic i = !oneshot
  once : oneshot = true →
    (s.bits .enabled i = true ∧ s.counters i = ticks ∧ ticks < final) ∨
      (s.bits .enabled i = false ∧ final ≤ ticks)
  cyclic : oneshot = false → s.bits .enabled i = true ∧ s.counters i = ticks % final

/-- No instruction is left that changes the timer. -/
def Untouched (s : Vtmrs) (i : Nat) : Prop :=
  s.resetIdx ≠ some i ∧ ∀ instr ∈ s.code, target instr ≠ some i

/-- The variables of a timer while `vtmr_set_match_int` runs, after `k` of its instructions. -/
structure Changing (s : Vtmrs) (i final : Nat) (oneshot : Bool) (k : Nat) : Prop where
  pos : 0 < final
  lt : final < 2 ^ 32
  code : s.code = (setMatch i final oneshot).drop k
  le : k ≤ 9
  limit : 1 ≤ k → s.periodLimit i = final
  periodic : 3 ≤ k → s.bits .periodic i = !oneshot
  waiting : k = 6 → s.resetIdx = some i ∨ (s.resetIdx = none ∧ s.counters i = 0)
  reset : 7 ≤ k → s.resetIdx = none ∧ s.counters i = 0
  enabled : 9 ≤ k → s.bits .enabled i = true

/-- A byte is loaded before it is stored. -/
def Paired : List Instr → Prop
  | []            => True
  | instr :: code =>
    (match code with | .store b _ _ :: _ => instr = .load b | _ => True) ∧ Paired code

/-- The invariant of the timers. -/
structure Kept (s : Vtmrs) : Prop where
  sound : s.sound = true
  inRange : ∀ i, s.watch i ≠ .free → i < s.num
  paired : Paired s.code
  loaded : ∀ b id v code, s.code = .store b id v :: code → s.loaded = s.bits b
  ret : ∀ id final oneshot, .ret id final oneshot ∈ s.code → s.watch id = .changing
  armed : ∀ i final oneshot ticks, s.watch i = .armed final oneshot ticks →
    Armed s i final oneshot ticks ∧ Untouched s i
  changing : ∀ i, s.watch i = .changing → ∃ final oneshot k, Changing s i final oneshot k

/-! ### A tick -/

/-- A timer that is armed queues its interrupt at the tick at which it should, and no other. -/
theorem Armed.queues (h : Armed s i final oneshot ticks) :
    s.queues i = decide (if oneshot then ticks + 1 = final else (ticks + 1) % final = 0) := by
  have hlt := h.lt
  have hpos := h.pos
  cases oneshot with
  | true =>
    -- the counter is the number of ticks until the interrupt, which disables itself
    obtain ⟨hen, hcount, hmore⟩ | ⟨hen, hdone⟩ := h.once rfl
    · have hcounted : s.counted i = ticks + 1 := by
        rw [Vtmrs.counted, hcount, Lib.u32_of_lt (by omega)]
      simp only [Vtmrs.queues, Vtmrs.matches_, hen, hcounted, h.limit, Bool.and_true, if_true]
      exact decide_eq_decide.mpr ⟨fun hle => by omega, fun heq => by omega⟩
    · have hne : ¬ ticks + 1 = final := by omega
      simp only [Vtmrs.queues, hen, Bool.and_false, if_true, hne, decide_false]
  | false =>
    -- the counter starts again at each interrupt, so it is the number of ticks modulo the limit
    obtain ⟨hen, hcount⟩ := h.cyclic rfl
    have hmod : ticks % final < final := Nat.mod_lt _ hpos
    have hcounted : s.counted i = ticks % final + 1 := by
      rw [Vtmrs.counted, hcount, Lib.u32_of_lt (by omega)]
    simp only [Vtmrs.queues, Vtmrs.matches_, hen, hcounted, h.limit, Bool.and_true,
      Bool.false_eq_true, if_false]
    refine decide_eq_decide.mpr ?_
    rw [Nat.add_mod ticks 1 final]
    by_cases hone : final = 1
    · -- an interrupt at every tick
      subst hone
      simp [Nat.mod_one]
    · have h1 : 1 % final = 1 := Nat.mod_eq_of_lt (by omega)
      rw [h1]
      constructor
      · intro hle
        have heq : ticks % final + 1 = final := by omega
        rw [heq, Nat.mod_self]
      · intro hzero
        by_contra hnot
        rw [Nat.mod_eq_of_lt (by omega)] at hzero
        omega

/-- A timer that is armed stays armed, one tick later. -/
theorem Armed.callback (h : Armed s i final oneshot ticks) (hi : i < s.num)
    (hreset : s.resetIdx ≠ some i) : Armed s.callback i final oneshot (ticks + 1) := by
  have hlt := h.lt
  have hpos := h.pos
  have hcounter : s.callback.counters i = s.counterAfter i := by
    simp only [Vtmrs.callback, if_neg hreset, if_pos hi]
  have hbits : ∀ b, s.callback.bits b i = s.bitsAfter b i := fun b => by
    simp only [Vtmrs.callback, if_pos hi]
  refine ⟨h.pos, h.lt, h.limit, (hbits _).trans h.periodic, ?_, ?_⟩
  · -- one-shot: the tick at which the limit is reached clears the enable flag
    rintro rfl
    have hper : s.bits .periodic i = false := h.periodic
    rw [hcounter, hbits, Vtmrs.counterAfter, Vtmrs.bitsAfter, hper]
    obtain ⟨hen, hcount, hmore⟩ | ⟨hen, hdone⟩ := h.once rfl
    · have hcounted : s.counted i = ticks + 1 := by
        rw [Vtmrs.counted, hcount, Lib.u32_of_lt (by omega)]
      simp only [Vtmrs.matches_, hcounted, h.limit, hen, Bool.and_false, Bool.false_eq_true,
        if_false, Bool.not_false, Bool.and_true, Bool.true_and]
      by_cases hle : final ≤ ticks + 1
      · exact .inr ⟨by simp [hle], hle⟩
      · exact .inl ⟨by simp [hle], trivial, Nat.lt_of_not_le hle⟩
    · exact .inr ⟨by simp [hen], by omega⟩
  · -- cyclic: that tick starts the counter again
    rintro rfl
    have hper : s.bits .periodic i = true := h.periodic
    obtain ⟨hen, hcount⟩ := h.cyclic rfl
    have hmod : ticks % final < final := Nat.mod_lt _ hpos
    have hcounted : s.counted i = ticks % final + 1 := by
      rw [Vtmrs.counted, hcount, Lib.u32_of_lt (by omega)]
    rw [hcounter, hbits, Vtmrs.counterAfter, Vtmrs.bitsAfter, hper]
    refine ⟨by simp [hen], ?_⟩
    simp only [Vtmrs.matches_, hcounted, h.limit, Bool.and_true, decide_eq_true_eq]
    have hnext : (ticks + 1) % final = (ticks % final + 1) % final := by
      rw [Nat.mod_add_mod]
    rw [hnext]
    by_cases hle : final ≤ ticks % final + 1
    · have heq : ticks % final + 1 = final := by omega
      rw [if_pos hle, heq, Nat.mod_self]
    · have hsmall : ticks % final + 1 < final := Nat.lt_of_not_le hle
      rw [if_neg hle, Nat.mod_eq_of_lt hsmall]

/-- A call that is running has nothing to fear from a tick before its reset. -/
theorem Changing.callback {k : Nat} (h : Changing s i final oneshot k)
    (hsettling : s.settling = false) : Changing s.callback i final oneshot k := by
  have hcode := h.code
  have hk := h.le
  -- from the seventh instruction on the timer is settling
  have hearly : k < 7 := by
    by_contra hnot
    have hcases : k = 7 ∨ k = 8 ∨ k = 9 := by omega
    obtain rfl | rfl | rfl := hcases <;>
      simp [Vtmrs.settling, hcode, setMatch, resetTimer] at hsettling
  refine ⟨h.pos, h.lt, hcode, hk, h.limit, ?_, ?_, fun hge => by omega, fun hge => by omega⟩
  · intro hge
    show (if i < s.num then s.bitsAfter .periodic i else s.bits .periodic i) = _
    split
    · exact h.periodic hge
    · exact h.periodic hge
  · -- the tick does the reset that the call waits for
    rintro rfl
    refine .inr ⟨rfl, ?_⟩
    obtain hsome | ⟨hnone, -⟩ := h.waiting rfl
    · simp only [Vtmrs.callback, hsome, if_true]
    · simp [Vtmrs.settling, hcode, setMatch, resetTimer, hnone] at hsettling

/-- A regular tick keeps the invariant. -/
theorem Kept.callback (h : Kept s) (hok : s.Regular .tick) : Kept s.callback := by
  obtain ⟨hquiet, hsettling, hmodifying⟩ := hok
  have hwatch : ∀ i, s.callback.watch i = (s.watch i).tick := fun _ => rfl
  refine ⟨?_, ?_, h.paired, ?_, ?_, ?_, ?_⟩
  · -- every timer queues what is expected
    show (s.sound && _) = true
    rw [h.sound, Bool.true_and, List.all_eq_true]
    intro i hi
    have hnum := List.mem_range.mp hi
    cases hw : s.watch i with
    | free => rfl
    | changing => simp [Watch.expects, hquiet i hnum hw]
    | armed final oneshot ticks =>
      simp [Watch.expects, (h.armed i final oneshot ticks hw).1.queues]
  · intro i hne
    refine h.inRange i fun hfree => hne ?_
    rw [hwatch, hfree]
    rfl
  · -- no flag of a timer is stored at this tick
    intro b id v code hcode
    have hmod : s.modifying = true := by
      have hscode : s.code = .store b id v :: code := hcode
      rw [Vtmrs.modifying, hscode]
    rw [hmodifying] at hmod
    cases hmod
  · intro id final oneshot hret
    rw [hwatch, h.ret id final oneshot hret]
    rfl
  · -- what is armed after the tick was armed before it
    intro i final oneshot ticks hw
    rw [hwatch] at hw
    cases hold : s.watch i with
    | free => rw [hold] at hw; cases hw
    | changing => rw [hold] at hw; cases hw
    | armed f o t =>
      rw [hold] at hw
      obtain ⟨rfl, rfl, rfl⟩ := Watch.armed.inj hw
      obtain ⟨harmed, huntouched⟩ := h.armed i _ _ _ hold
      refine ⟨harmed.callback (h.inRange i (by rw [hold]; exact Watch.noConfusion))
        huntouched.1, ?_, huntouched.2⟩
      exact (Option.some_ne_none i).symm
  · intro i hw
    rw [hwatch] at hw
    cases hold : s.watch i with
    | free => rw [hold] at hw; cases hw
    | armed f o t => rw [hold] at hw; cases hw
    | changing =>
      obtain ⟨final, oneshot, k, hchanging⟩ := h.changing i hold
      exact ⟨final, oneshot, k, hchanging.callback hsettling⟩

/-! ### An instruction -/

/-- An instruction leaves the timers alone that it does not name. -/
theorem exec_frame (h : Kept s) (hexec : s.exec = some s') (hi : Untouched s i) :
    s'.periodLimit i = s.periodLimit i ∧ (∀ b, s'.bits b i = s.bits b i) ∧
      s'.counters i = s.counters i ∧ s'.watch i = s.watch i ∧ Untouched s' i := by
  obtain ⟨hreset, hcode⟩ := hi
  -- each instruction writes at most to the timer it names, which is not this one
  unfold Vtmrs.exec at hexec
  split at hexec
  · cases hexec
  · next id final code heq =>
    obtain rfl := Option.some.inj hexec
    have hne : i ≠ id := fun hid => hcode (.limit id final) (heq ▸ List.mem_cons_self) (hid ▸ rfl)
    exact ⟨Function.update_of_ne hne _ _, fun _ => rfl, rfl, rfl, hreset,
      fun instr hmem => hcode instr (heq ▸ List.mem_cons_of_mem _ hmem)⟩
  · next b code heq =>
    obtain rfl := Option.some.inj hexec
    exact ⟨rfl, fun _ => rfl, rfl, rfl, hreset,
      fun instr hmem => hcode instr (heq ▸ List.mem_cons_of_mem _ hmem)⟩
  · next b id v code heq =>
    obtain rfl := Option.some.inj hexec
    have hne : i ≠ id := fun hid => hcode (.store b id v) (heq ▸ List.mem_cons_self) (hid ▸ rfl)
    have hloaded := h.loaded b id v code heq
    refine ⟨rfl, fun b' => ?_, rfl, rfl, hreset,
      fun instr hmem => hcode instr (heq ▸ List.mem_cons_of_mem _ hmem)⟩
    by_cases hb : b' = b
    · -- the other bits of the byte are those that were loaded
      subst hb
      simp only [Function.update_self, if_neg hne, hloaded, ite_self]
    · simp only [Function.update_of_ne hb]
  · next id code heq =>
    obtain rfl := Option.some.inj hexec
    have hne : id ≠ i := fun hid => hcode (.reset id) (heq ▸ List.mem_cons_self) (hid ▸ rfl)
    exact ⟨rfl, fun _ => rfl, rfl, rfl, fun hsome => hne (Option.some.inj hsome),
      fun instr hmem => hcode instr (heq ▸ List.mem_cons_of_mem _ hmem)⟩
  · next code heq =>
    split at hexec <;> obtain rfl := Option.some.inj hexec
    · exact ⟨rfl, fun _ => rfl, rfl, rfl, hreset,
        fun instr hmem => hcode instr (heq ▸ List.mem_cons_of_mem _ hmem)⟩
    · exact ⟨rfl, fun _ => rfl, rfl, rfl, hreset, hcode⟩
  · next id final code heq =>
    split at hexec <;> obtain rfl := Option.some.inj hexec
    · exact ⟨rfl, fun _ => rfl, rfl, rfl, hreset, hcode⟩
    · exact ⟨rfl, fun _ => rfl, rfl, rfl, hreset,
        fun instr hmem => hcode instr (heq ▸ List.mem_cons_of_mem _ hmem)⟩
  · next id final oneshot code heq =>
    obtain rfl := Option.some.inj hexec
    have hne : i ≠ id :=
      fun hid => hcode (.ret id final oneshot) (heq ▸ List.mem_cons_self) (hid ▸ rfl)
    exact ⟨rfl, fun _ => rfl, rfl, Function.update_of_ne hne _ _, hreset,
      fun instr hmem => hcode instr (heq ▸ List.mem_cons_of_mem _ hmem)⟩

/-- The next instruction of a call that changes a timer. -/
theorem Changing.exec {k : Nat} (h : Changing s i final oneshot k) (hexec : s.exec = some s') :
    (∃ k', Changing s' i final oneshot k' ∧ s'.watch = s.watch) ∨
      (s'.watch = Function.update s.watch i (.armed final oneshot 0) ∧
        Armed s' i final oneshot 0 ∧ Untouched s' i) := by
  have hk := h.le
  have hcode := h.code
  -- one case for each instruction of `vtmr_set_match_int`
  have hcases : k = 0 ∨ k = 1 ∨ k = 2 ∨ k = 3 ∨ k = 4 ∨ k = 5 ∨ k = 6 ∨ k = 7 ∨ k = 8 ∨ k = 9 := by
    omega
  obtain rfl | rfl | rfl | rfl | rfl | rfl | rfl | rfl | rfl | rfl := hcases <;>
    simp only [setMatch, resetTimer, List.cons_append, List.nil_append, List.drop_succ_cons,
      List.drop_zero] at hcode <;>
    simp only [Vtmrs.exec, hcode] at hexec
  · -- the limit is set
    obtain rfl := Option.some.inj hexec
    refine .inl ⟨1, ⟨h.pos, h.lt, rfl, by omega, fun _ => ?_, fun hge => by omega,
      fun heq => by omega, fun hge => by omega, fun hge => by omega⟩, rfl⟩
    show Function.update s.periodLimit i (u32 final) i = final
    rw [Function.update_self, Lib.u32_of_lt h.lt]
  · obtain rfl := Option.some.inj hexec
    exact .inl ⟨2, ⟨h.pos, h.lt, rfl, by omega, fun _ => h.limit (by omega),
      fun hge => by omega, fun heq => by omega, fun hge => by omega, fun hge => by omega⟩, rfl⟩
  · -- the periodic flag is set
    obtain rfl := Option.some.inj hexec
    refine .inl ⟨3, ⟨h.pos, h.lt, rfl, by omega, fun _ => h.limit (by omega), fun _ => ?_,
      fun heq => by omega, fun hge => by omega, fun hge => by omega⟩, rfl⟩
    simp only [Function.update_self, if_true]
  · obtain rfl := Option.some.inj hexec
    exact .inl ⟨4, ⟨h.pos, h.lt, rfl, by omega, fun _ => h.limit (by omega),
      fun _ => h.periodic (by omega), fun heq => by omega, fun hge => by omega,
      fun hge => by omega⟩, rfl⟩
  · obtain rfl := Option.some.inj hexec
    exact .inl ⟨5, ⟨h.pos, h.lt, rfl, by omega, fun _ => h.limit (by omega),
      fun _ => h.periodic (by omega), fun heq => by omega, fun hge => by omega,
      fun hge => by omega⟩, rfl⟩
  · -- the reset is requested
    obtain rfl := Option.some.inj hexec
    exact .inl ⟨6, ⟨h.pos, h.lt, rfl, by omega, fun _ => h.limit (by omega),
      fun _ => h.periodic (by omega), fun _ => .inl rfl, fun hge => by omega,
      fun hge => by omega⟩, rfl⟩
  · -- the wait ends when a tick has done the reset, and goes on otherwise
    split at hexec
    · next hnone =>
      obtain rfl := Option.some.inj hexec
      refine .inl ⟨7, ⟨h.pos, h.lt, rfl, by omega, fun _ => h.limit (by omega),
        fun _ => h.periodic (by omega), fun heq => by omega, fun _ => ⟨hnone, ?_⟩,
        fun hge => by omega⟩, rfl⟩
      obtain hsome | ⟨-, hzero⟩ := h.waiting rfl
      · rw [hnone] at hsome
        cases hsome
      · exact hzero
    · obtain rfl := Option.some.inj hexec
      exact .inl ⟨6, h, rfl⟩
  · obtain rfl := Option.some.inj hexec
    exact .inl ⟨8, ⟨h.pos, h.lt, rfl, by omega, fun _ => h.limit (by omega),
      fun _ => h.periodic (by omega), fun heq => by omega, fun _ => h.reset (by omega),
      fun hge => by omega⟩, rfl⟩
  · -- the interrupt is enabled
    obtain rfl := Option.some.inj hexec
    refine .inl ⟨9, ⟨h.pos, h.lt, rfl, by omega, fun _ => h.limit (by omega),
      fun _ => h.periodic (by omega), fun heq => by omega, fun _ => h.reset (by omega),
      fun _ => ?_⟩, rfl⟩
    simp only [Function.update_self, if_true]
  · -- the call returns
    obtain rfl := Option.some.inj hexec
    obtain ⟨hnone, hzero⟩ := h.reset (by omega)
    have hen := h.enabled (by omega)
    refine .inr ⟨rfl, ⟨h.pos, h.lt, h.limit (by omega), h.periodic (by omega), fun _ => ?_,
      fun _ => ⟨hen, ?_⟩⟩, ?_, fun _ hmem => absurd hmem List.not_mem_nil⟩
    · exact .inl ⟨hen, hzero, h.pos⟩
    · rw [Nat.zero_mod]
      exact hzero
    · rw [hnone]
      exact (Option.some_ne_none i).symm

/-- What an instruction does to the code. -/
theorem exec_code (hexec : s.exec = some s') :
    s' = s ∨ ∃ instr, s.code = instr :: s'.code ∧
      ∀ b, instr = .load b → s'.loaded = s'.bits b := by
  unfold Vtmrs.exec at hexec
  split at hexec
  · cases hexec
  · next heq =>
    obtain rfl := Option.some.inj hexec
    exact .inr ⟨_, heq, fun _ hload => by cases hload⟩
  · next b code heq =>
    obtain rfl := Option.some.inj hexec
    exact .inr ⟨_, heq, fun b' hload => by cases hload; rfl⟩
  · next heq =>
    obtain rfl := Option.some.inj hexec
    exact .inr ⟨_, heq, fun _ hload => by cases hload⟩
  · next heq =>
    obtain rfl := Option.some.inj hexec
    exact .inr ⟨_, heq, fun _ hload => by cases hload⟩
  · next heq =>
    split at hexec <;> obtain rfl := Option.some.inj hexec
    · exact .inr ⟨_, heq, fun _ hload => by cases hload⟩
    · exact .inl rfl
  · next heq =>
    split at hexec <;> obtain rfl := Option.some.inj hexec
    · exact .inl rfl
    · exact .inr ⟨_, heq, fun _ hload => by cases hload⟩
  · next heq =>
    obtain rfl := Option.some.inj hexec
    exact .inr ⟨_, heq, fun _ hload => by cases hload⟩

/-- What an instruction does to what is expected: only a return changes it. -/
theorem exec_watch (hexec : s.exec = some s') :
    s'.sound = s.sound ∧ s'.num = s.num ∧ (s'.watch = s.watch ∨
      ∃ id final oneshot, .ret id final oneshot ∈ s.code ∧
        s'.watch = Function.update s.watch id (.armed final oneshot 0)) := by
  unfold Vtmrs.exec at hexec
  split at hexec
  · cases hexec
  · obtain rfl := Option.some.inj hexec
    exact ⟨rfl, rfl, .inl rfl⟩
  · obtain rfl := Option.some.inj hexec
    exact ⟨rfl, rfl, .inl rfl⟩
  · obtain rfl := Option.some.inj hexec
    exact ⟨rfl, rfl, .inl rfl⟩
  · obtain rfl := Option.some.inj hexec
    exact ⟨rfl, rfl, .inl rfl⟩
  · split at hexec <;> obtain rfl := Option.some.inj hexec <;> exact ⟨rfl, rfl, .inl rfl⟩
  · split at hexec <;> obtain rfl := Option.some.inj hexec <;> exact ⟨rfl, rfl, .inl rfl⟩
  · next id final oneshot code heq =>
    obtain rfl := Option.some.inj hexec
    exact ⟨rfl, rfl, .inr ⟨id, final, oneshot, heq ▸ List.mem_cons_self, rfl⟩⟩

/-- What is expected of a timer is about the variables that stay the same. -/
theorem Armed.frame (h : Armed s i final oneshot ticks)
    (hlimit : s'.periodLimit i = s.periodLimit i) (hbits : ∀ b, s'.bits b i = s.bits b i)
    (hcounters : s'.counters i = s.counters i) : Armed s' i final oneshot ticks := by
  refine ⟨h.pos, h.lt, hlimit.trans h.limit, (hbits _).trans h.periodic, ?_, ?_⟩
  · rw [hbits, hcounters]
    exact h.once
  · rw [hbits, hcounters]
    exact h.cyclic

/-- An instruction keeps the invariant. -/
theorem Kept.exec (h : Kept s) (hexec : s.exec = some s') : Kept s' := by
  obtain ⟨hsound, hnum, hwatch⟩ := exec_watch hexec
  have hcode := exec_code hexec
  have hsub : ∀ instr ∈ s'.code, instr ∈ s.code := by
    obtain rfl | ⟨instr, heq, -⟩ := hcode
    · exact fun _ hmem => hmem
    · exact fun _ hmem => heq ▸ List.mem_cons_of_mem _ hmem
  -- a timer that is not changing has the same watch as before
  have hsame : ∀ i, s.watch i ≠ .changing → s'.watch i = s.watch i := by
    intro i hne
    obtain heq | ⟨id, final, oneshot, hret, heq⟩ := hwatch
    · rw [heq]
    · have hid : i ≠ id := fun hid => hne (hid ▸ h.ret id final oneshot hret)
      rw [heq, Function.update_of_ne hid]
  refine ⟨hsound.trans h.sound, ?_, ?_, ?_, ?_, ?_, ?_⟩
  · intro i hne
    rw [hnum]
    refine h.inRange i fun hfree => hne ?_
    rw [hsame i (by rw [hfree]; exact fun hc => by cases hc), hfree]
  · obtain rfl | ⟨instr, heq, -⟩ := hcode
    · exact h.paired
    · have hpaired := h.paired
      rw [heq] at hpaired
      exact hpaired.2
  · -- a store is preceded by the load of the same byte
    intro b id v code hstore
    obtain rfl | ⟨instr, heq, hload⟩ := hcode
    · exact h.loaded b id v code hstore
    · have hpaired := h.paired
      rw [heq, hstore] at hpaired
      exact hload b hpaired.1
  · intro id final oneshot hret
    have hchanging := h.ret id final oneshot (hsub _ hret)
    obtain ⟨f, o, k, hch⟩ := h.changing id hchanging
    obtain ⟨k', -, heq⟩ | ⟨-, -, huntouched⟩ := hch.exec hexec
    · rw [heq]
      exact hchanging
    · exact absurd rfl (huntouched.2 _ hret)
  · intro i final oneshot ticks hw
    cases hold : s.watch i with
    | free =>
      rw [hsame i (by rw [hold]; exact fun hc => by cases hc), hold] at hw
      cases hw
    | changing =>
      -- the call has returned with this instruction
      obtain ⟨f, o, k, hch⟩ := h.changing i hold
      obtain ⟨k', -, heq⟩ | ⟨heq, harmed, huntouched⟩ := hch.exec hexec
      · rw [heq, hold] at hw
        cases hw
      · rw [heq, Function.update_self] at hw
        obtain ⟨rfl, rfl, rfl⟩ := Watch.armed.inj hw
        exact ⟨harmed, huntouched⟩
    | armed f o t =>
      rw [hsame i (by rw [hold]; exact fun hc => by cases hc)] at hw
      obtain ⟨harmed, huntouched⟩ := h.armed i _ _ _ hw
      obtain ⟨hlimit, hbits, hcounters, -, huntouched'⟩ := exec_frame h hexec huntouched
      exact ⟨harmed.frame hlimit hbits hcounters, huntouched'⟩
  · intro i hw
    have hold : s.watch i = .changing := by
      by_contra hne
      exact hne (hsame i hne ▸ hw)
    obtain ⟨f, o, k, hch⟩ := h.changing i hold
    obtain ⟨k', hch', -⟩ | ⟨heq, -, -⟩ := hch.exec hexec
    · exact ⟨f, o, k', hch'⟩
    · rw [heq, Function.update_self] at hw
      cases hw

/-! ### A call -/

/-- A call that changes one timer keeps the invariant. -/
theorem Kept.call (h : Kept s) (hidle : s.code = []) {id : Nat} (hid : id < s.num)
    {watch : Watch} {code : List Instr} (hpaired : Paired code)
    (hhead : ∀ b j v rest, code ≠ .store b j v :: rest)
    (htarget : ∀ instr ∈ code, ∀ j, target instr = some j → j = id)
    (hwatch : (watch = .free ∧ ∀ final oneshot, .ret id final oneshot ∉ code) ∨
      (watch = .changing ∧ ∃ final oneshot, 0 < final ∧ final < 2 ^ 32 ∧
        code = setMatch id final oneshot)) : Kept (s.call id watch code) := by
  have hother : ∀ i, i ≠ id → (s.call id watch code).watch i = s.watch i :=
    fun i hne => Function.update_of_ne hne _ _
  have hself : (s.call id watch code).watch id = watch := Function.update_self _ _ _
  -- the code names this timer only, so the others stay untouched
  refine ⟨h.sound, ?_, hpaired, ?_, ?_, ?_, ?_⟩
  · intro i hne
    by_cases heq : i = id
    · exact heq ▸ hid
    · rw [hother i heq] at hne
      exact h.inRange i hne
  · exact fun b j v rest hcode => absurd hcode (hhead b j v rest)
  · intro j final oneshot hret
    have hj : j = id := htarget _ hret j rfl
    subst hj
    rw [hself]
    obtain ⟨-, hno⟩ | ⟨hchanging, -⟩ := hwatch
    · exact absurd hret (hno final oneshot)
    · exact hchanging
  · intro i final oneshot ticks hw
    by_cases heq : i = id
    · subst heq
      rw [hself] at hw
      obtain ⟨rfl, -⟩ | ⟨rfl, -⟩ := hwatch <;> cases hw
    · rw [hother i heq] at hw
      obtain ⟨harmed, huntouched⟩ := h.armed i final oneshot ticks hw
      refine ⟨harmed.frame rfl (fun _ => rfl) rfl, huntouched.1, fun instr hmem htar => ?_⟩
      exact heq (htarget instr hmem i htar)
  · intro i hw
    by_cases heq : i = id
    · subst heq
      rw [hself] at hw
      obtain ⟨rfl, -⟩ | ⟨-, final, oneshot, hpos, hlt, hcode⟩ := hwatch
      · cases hw
      · exact ⟨final, oneshot, 0, hpos, hlt, hcode, Nat.zero_le _, fun hge => by omega,
          fun hge => by omega, fun hk => by omega, fun hge => by omega, fun hge => by omega⟩
    · -- nothing was running before
      rw [hother i heq] at hw
      obtain ⟨final, oneshot, k, hch⟩ := h.changing i hw
      have hlen := congrArg List.length (hidle.symm.trans hch.code)
      have hk := hch.le
      simp only [List.length_nil, List.length_drop, setMatch, resetTimer, List.length_append,
        List.length_cons] at hlen
      omega

/-- Every regular event keeps the invariant. -/
theorem Kept.step (h : Kept s) {e : VtmrEvent} (hok : s.Regular e) (hstep : s.step e = some s') :
    Kept s' := by
  cases e with
  | tick => exact Option.some.inj hstep ▸ h.callback hok
  | step => exact h.exec hstep
  | start id =>
    simp only [Vtmrs.step] at hstep
    split at hstep
    · next hcond =>
      obtain rfl := Option.some.inj hstep
      refine h.call hcond.1 hcond.2 ?_ ?_ ?_ (.inl ⟨rfl, ?_⟩)
      · simp [resetTimer, Paired]
      · simp [resetTimer]
      · simp [resetTimer, target]
      · simp [resetTimer]
    · cases hstep
  | delay id us =>
    simp only [Vtmrs.step] at hstep
    split at hstep
    · next hcond =>
      split at hstep
      · exact Option.some.inj hstep ▸ h
      · obtain rfl := Option.some.inj hstep
        refine h.call hcond.1 hcond.2 ?_ ?_ ?_ (.inl ⟨rfl, ?_⟩)
        · simp [Vtmrs.delay, resetTimer, Paired]
        · simp [Vtmrs.delay, resetTimer]
        · simp [Vtmrs.delay, resetTimer, target]
        · simp [Vtmrs.delay, resetTimer]
    · cases hstep
  | setMatchInt id us oneshot =>
    simp only [Vtmrs.step] at hstep
    split at hstep
    · next hcond =>
      split at hstep
      · exact Option.some.inj hstep ▸ h
      · -- a period of zero clears the interrupt, one below a tick is refused
        split at hstep
        · obtain rfl := Option.some.inj hstep
          refine h.call hcond.1 hcond.2 ?_ ?_ ?_ (.inl ⟨rfl, ?_⟩)
          · simp [clearMatch, Paired]
          · simp [clearMatch]
          · simp [clearMatch, target]
          · simp [clearMatch]
        · split at hstep
          · exact Option.some.inj hstep ▸ h
          · next hshort =>
            obtain rfl := Option.some.inj hstep
            refine h.call hcond.1 hcond.2 ?_ ?_ ?_
              (.inr ⟨rfl, s.final us, oneshot, Nat.pos_of_ne_zero hshort, hok, rfl⟩)
            · simp [setMatch, resetTimer, Paired]
            · simp [setMatch]
            · simp [setMatch, resetTimer, target]
    · cases hstep

/-- Timers that were never used. -/
theorem kept_start (num freqHz : Nat) : Kept { num, freqHz } :=
  ⟨rfl, fun _ hne => absurd rfl hne, trivial, fun _ _ _ _ hcode => (by cases hcode),
    fun _ _ _ hret => absurd hret List.not_mem_nil, fun _ _ _ _ hw => (by cases hw),
    fun _ hw => (by cases hw)⟩

/-- **Virtual timers**: in every run whose ticks are regular, each
tick queues for each timer what is expected: an interrupt when the
period of its setting is over, once or again and again, and nothing
otherwise. By the run rule, from `Kept.step`. -/
theorem vtmr_sound (num freqHz : Nat) (es : List VtmrEvent) (s : Vtmrs)
    (hok : AllSteps Vtmrs.step Vtmrs.Regular { num, freqHz } es)
    (hrun : run Vtmrs.step { num, freqHz } es = some s) : s.sound = true :=
  (invariant_run (fun _ _ _ h hreg hstep => Kept.step h hreg hstep) es _ _
    (kept_start num freqHz) hok hrun).sound

/-- The steps of a call of `vtmr_set_match_int`, with the tick that resets the counter. -/
def settingSteps : List VtmrEvent :=
  List.replicate 6 .step ++ [.tick] ++ List.replicate 4 .step

/-- One timer at 10 Hz: a cyclic interrupt every two ticks, and three ticks. -/
def plainMatch : List VtmrEvent :=
  .setMatchInt 0 200000 false :: settingSteps ++ [.tick, .tick, .tick]

theorem plainMatch_ok :
    AllSteps Vtmrs.step Vtmrs.Regular { num := 1, freqHz := 10 } plainMatch := by
  decide

/-- The hypotheses of `vtmr_sound` hold of a run with one cyclic
interrupt. -/
theorem vtmr_sound_plain : ∃ s, run Vtmrs.step { num := 1, freqHz := 10 } plainMatch = some s ∧
    s.sound = true ∧ s.queue = [0] :=
  ⟨_, rfl, vtmr_sound 1 10 plainMatch _ plainMatch_ok rfl, rfl⟩

/-- A tick between the reset of the counter and the return: the one-shot interrupt with a period
of two ticks is queued at the first tick after the call. And a timer that has an interrupt with a
long period gets one with a short period: it is queued while the call waits for its reset. -/
theorem settings_leak :
    (∃ s, run Vtmrs.step { num := 1, freqHz := 10 }
        (.setMatchInt 0 200000 true :: (List.replicate 6 .step ++ [.tick, .tick] ++
          List.replicate 4 .step ++ [.tick])) = some s ∧
      s.queue = [0] ∧ s.watch 0 = .armed 2 true 1 ∧ s.sound = false) ∧
    ∃ s, run Vtmrs.step { num := 1, freqHz := 10 }
        (.setMatchInt 0 900000 false :: settingSteps ++ [.tick, .tick, .tick] ++
          .setMatchInt 0 200000 false :: (List.replicate 6 .step ++ [.tick])) = some s ∧
      s.queue = [0] ∧ s.watch 0 = .changing ∧ s.sound = false := by
  exact ⟨⟨_, rfl, rfl, rfl, rfl⟩, ⟨_, rfl, rfl, rfl, rfl⟩⟩

end Alcor.Proofs.Timers
