import Alcor.Interrupts.Queue
import Alcor.Lib.Circular

/-!
# `Alcor.Proofs.Interrupts.Queue`: interrupts are dequeued in order

The queue is a circular buffer of which only the filled slots matter
and all others are marked empty (`Slots`). `elua_int_add` fills the
slot behind the last one, which is empty exactly if the queue is not
full (`Slots.full_iff`). The hook empties the first slot, and only
then moves the read index; an interrupt in between may fill the slot
that was just emptied.

* `Tidy` is the invariant: the slots, the counters, and the queue that
  they stand for. `Tidy.add`, `Tidy.hookStep`, `Tidy.leave` and
  `Tidy.setHandler` are the events, `Tidy.step` is all of them.
* `handled_in_order` is the result about runs. The hook must find an
  interrupt when it is called: if it does not, it takes an empty slot
  and moves the read index past the write index.
* `hookHasWork_of_errors` shows that this needs a Lua function that
  raises an error while the queue is empty.
-/

set_option autoImplicit false

namespace Alcor.Proofs.Interrupts

open Lib.Circular
open Lib.Run
open Alcor.Interrupts

variable {s' : Ints} {e : Element}

theorem nextIdx_eq (pf : Platform) (i : Nat) : nextIdx pf i = (i + 1) % pf.capacity := by
  rw [nextIdx, Nat.one_shiftLeft, Nat.and_two_pow_sub_one_eq_mod, Platform.capacity]

theorem nextIdx_mod (pf : Platform) (k : Nat) :
    nextIdx pf (k % pf.capacity) = (k + 1) % pf.capacity := by
  rw [nextIdx_eq, Nat.mod_add_mod]

theorem Platform.capacity_pos (pf : Platform) : 0 < pf.capacity := Nat.two_pow_pos _

/-! ### The slots -/

/-- The queue holds `pending` from slot `r` on, and all other slots are empty. -/
structure Slots (pf : Platform) (queue : Nat → Element) (r : Nat) (pending : List Element) :
    Prop where
  le : pending.length ≤ pf.capacity
  contents : contents queue pf.capacity r pending.length = pending
  filled : ∀ e ∈ pending, e.id ≠ ELUA_INT_EMPTY_SLOT
  empty : ∀ i, pending.length ≤ i → i < pf.capacity →
    (queue ((r + i) % pf.capacity)).id = ELUA_INT_EMPTY_SLOT

section Slots
variable {pf : Platform} {queue : Nat → Element} {r : Nat} {pending : List Element}

/-- The first interrupt stands in its slot. -/
theorem Slots.head (h : Slots pf queue r (e :: pending)) : queue (r % pf.capacity) = e := by
  have hc := h.contents
  rw [List.length_cons, contents_succ, List.cons.injEq] at hc
  exact hc.1

/-- The first slot is empty exactly if the queue is. -/
theorem Slots.head_empty_iff (h : Slots pf queue r pending) :
    (queue (r % pf.capacity)).id = ELUA_INT_EMPTY_SLOT ↔ pending = [] := by
  cases pending with
  | nil => exact iff_of_true (h.empty 0 (Nat.le_refl 0) (Platform.capacity_pos pf)) rfl
  | cons e rest =>
    rw [h.head]
    exact iff_of_false (h.filled e List.mem_cons_self) (List.cons_ne_nil _ _)

/-- The slot behind the last one is filled exactly if the queue is full. -/
theorem Slots.full_iff (h : Slots pf queue r pending) :
    (queue ((r + pending.length) % pf.capacity)).id ≠ ELUA_INT_EMPTY_SLOT ↔
      pending.length = pf.capacity := by
  constructor
  · intro hfilled
    refine Nat.le_antisymm h.le (Nat.le_of_not_lt fun hlt => hfilled ?_)
    exact h.empty _ (Nat.le_refl _) hlt
  · intro hfull
    have hpos := Platform.capacity_pos pf
    rw [hfull, Nat.add_mod_right, Ne, h.head_empty_iff]
    rintro rfl
    rw [List.length_nil] at hfull
    omega

/-- An interrupt is put into the slot behind the last one. -/
theorem Slots.push (h : Slots pf queue r pending) (hlt : pending.length < pf.capacity)
    (he : e.id ≠ ELUA_INT_EMPTY_SLOT) :
    Slots pf (Function.update queue ((r + pending.length) % pf.capacity) e) r
      (pending ++ [e]) where
  le := by
    rw [List.length_append, List.length_singleton]
    exact hlt
  contents := by
    rw [List.length_append, List.length_singleton]
    refine (contents_push hlt (Function.update_self ..) fun i hi => ?_).trans
      (congrArg (· ++ [e]) h.contents)
    exact Function.update_of_ne hi ..
  filled := by
    intro e' he'
    obtain hmem | hmem := List.mem_append.mp he'
    · exact h.filled e' hmem
    · exact List.mem_singleton.mp hmem ▸ he
  empty := by
    intro i hle hi
    rw [List.length_append, List.length_singleton] at hle
    rw [Function.update_of_ne (index_ne (Nat.lt_of_succ_le hle) hi).symm]
    exact h.empty i (by omega) hi

/-- The first slot is marked empty. -/
theorem Slots.pop (h : Slots pf queue r (e :: pending)) (x : UInt16) :
    Slots pf (Function.update queue (r % pf.capacity) ⟨ELUA_INT_EMPTY_SLOT, x⟩) (r + 1)
      pending where
  le := Nat.le_of_succ_le h.le
  contents := by
    have hc := h.contents
    have hle := h.le
    rw [List.length_cons] at hle
    rw [List.length_cons, contents_succ, List.cons.injEq] at hc
    refine (contents_congr fun i hi => ?_).trans hc.2
    -- the slots of the other interrupts are different from the first one
    have hne := index_ne (r := r) (show 0 < i + 1 by omega)
      (show i + 1 < pf.capacity by omega)
    rw [Nat.add_zero] at hne
    rw [Function.update_of_ne (by rw [Nat.add_right_comm, Nat.add_assoc]; exact hne.symm)]
  filled := fun e' he' => h.filled e' (List.mem_cons_of_mem _ he')
  empty := by
    intro i hle hi
    obtain hlast | hlt := Nat.eq_or_lt_of_le (Nat.succ_le_of_lt hi)
    · -- the slot just emptied is the last of the empty ones
      rw [show r + 1 + i = r + pf.capacity by omega, Nat.add_mod_right, Function.update_self]
    · have hne := index_ne (r := r) (show 0 < i + 1 by omega) hlt
      rw [Nat.add_zero] at hne
      rw [show r + 1 + i = r + (i + 1) by omega, Function.update_of_ne hne.symm]
      exact h.empty (i + 1) (by rw [List.length_cons]; omega) hlt

end Slots

/-! ### The invariant -/

/-- Where the read index is, and what the hook has in hand. -/
def InHook (pf : Platform) (r : Nat) (pending : List Element) (readIdx : Nat) :
    HookPhase → Prop
  | .fetched crt => readIdx = r % pf.capacity ∧ ∃ rest, pending = crt :: rest
  | .emptied _   => ∃ r₀, r = r₀ + 1 ∧ readIdx = r₀ % pf.capacity
  | _            => readIdx = r % pf.capacity

/-- The invariant of the module. -/
structure Tidy (pf : Platform) (s : Ints) (r : Nat) (pending : List Element) : Prop where
  slots : Slots pf s.queue r pending
  writeIdx : s.writeIdx = (r + pending.length) % pf.capacity
  inHook : InHook pf r pending s.readIdx s.phase
  hook : pending ≠ [] → s.hookSet = true
  flags : ∀ id, s.flags id = (s.handlers id).isSome
  accepted : s.accepted = s.dequeued ++ pending
  outcomes : s.dequeued = s.outcomes.map (·.crt) ++ s.phase.inHand
  delivered : ∀ o ∈ s.outcomes,
    (o.enabled = true ∧ o.called = o.registered ∧ o.called ≠ none) ∨
    (o.enabled = false ∧ o.called = none)
  fails : s.FailsAsDesigned pf

theorem Tidy.ordered {pf : Platform} {s : Ints} {r : Nat} {pending : List Element}
    (h : Tidy pf s r pending) : s.Ordered :=
  ⟨⟨pending, h.accepted, h.hook⟩, h.outcomes, h.delivered⟩

/-- What left the queue are the first of the interrupts that were accepted. -/
theorem prefix_of_ordered {s : Ints} (h : s.Ordered) : s.dequeued <+: s.accepted := by
  obtain ⟨pending, hq, -⟩ := h.queue
  exact ⟨pending, hq.symm⟩

theorem tidy_init (pf : Platform) (luaState : Bool) :
    Tidy pf { luaState := luaState } 0 [] where
  slots := ⟨Nat.zero_le _, rfl, by simp, fun _ _ _ => rfl⟩
  writeIdx := by simp
  inHook := by simp [InHook]
  hook := by simp
  flags := by simp
  accepted := rfl
  outcomes := rfl
  delivered := by simp
  fails := by simp [Ints.FailsAsDesigned]

/-! ### One step -/

section Step
variable {pf : Platform} {s : Ints} {r : Nat} {pending : List Element}

/-- `elua_int_add` refuses for one of four reasons, and else fills the slot. -/
theorem eluaIntAdd_cases (pf : Platform) (s : Ints) (inttype : UInt8) (resnum : UInt16) :
    (eluaIntAdd pf s inttype resnum = (false, s) ∧
      (¬ (ELUA_INT_FIRST_ID ≤ inttype ∧ inttype ≤ pf.last) ∨ s.luaState = false ∨
        eluaIntIsEnabled s inttype = false ∨
        (s.queue s.writeIdx).id ≠ ELUA_INT_EMPTY_SLOT)) ∨
    (ELUA_INT_FIRST_ID ≤ inttype ∧ (s.queue s.writeIdx).id = ELUA_INT_EMPTY_SLOT ∧
      eluaIntAdd pf s inttype resnum = (true, { s with
        queue := Function.update s.queue s.writeIdx ⟨inttype, resnum⟩
        writeIdx := nextIdx pf s.writeIdx
        hookSet := true })) := by
  unfold eluaIntAdd
  split
  · next hid =>
      refine .inl ⟨rfl, .inl fun hvalid => ?_⟩
      rcases hid with hlow | hhigh
      · exact UInt8.not_le.mpr hlow hvalid.1
      · exact UInt8.not_le.mpr hhigh hvalid.2
  · next hid =>
      simp only [not_or, UInt8.not_lt] at hid
      split
      · next hoff =>
          rw [Bool.not_eq_true, Bool.not_eq_true] at hoff
          exact .inl ⟨rfl, .inr (hoff.imp_right .inl)⟩
      · split
        · next hfull => exact .inl ⟨rfl, .inr (.inr (.inr hfull))⟩
        · next hempty => exact .inr ⟨hid.1, not_not.mp hempty, rfl⟩

/-- An interrupt that comes while the hook runs does not disturb it. -/
theorem InHook.push {readIdx : Nat} {phase : HookPhase} (h : InHook pf r pending readIdx phase)
    (e : Element) : InHook pf r (pending ++ [e]) readIdx phase := by
  cases phase with
  | fetched crt =>
    obtain ⟨hidx, rest, rfl⟩ := h
    exact ⟨hidx, rest ++ [e], rfl⟩
  | idle | emptied _ | advanced _ | calling | finishing => exact h

/-- The number of entries a call of `elua_int_add` finds. -/
theorem Tidy.entries (h : Tidy pf s r pending) :
    s.accepted.length - s.dequeued.length = pending.length := by
  rw [h.accepted, List.length_append, Nat.add_sub_cancel_left]

/-- A call of `elua_int_add` keeps the invariant. -/
theorem Tidy.add (h : Tidy pf s r pending) (inttype : UInt8) (resnum : UInt16)
    (hstep : s.step pf (.add inttype resnum) = some s') : ∃ pending', Tidy pf s' r pending' := by
  obtain ⟨hadd, hwhy⟩ | ⟨hfirst, hempty, hadd⟩ := eluaIntAdd_cases pf s inttype resnum
  · -- refused: only the attempt is noted
    rw [Ints.step, hadd, Option.some.injEq] at hstep
    subst hstep
    refine ⟨pending, { h with fails := fun a ha hok => ?_ }⟩
    obtain hold | hnew := List.mem_append.mp ha
    · exact h.fails a hold hok
    · rw [List.mem_singleton.mp hnew]
      rcases hwhy with hid | hstate | hdisabled | hfilled
      · exact .inl (decide_eq_false hid)
      · exact .inr (.inl hstate)
      · exact .inr (.inr (.inl hdisabled))
      · -- the slot at the write index is filled, so the queue is full
        rw [h.writeIdx, h.slots.full_iff] at hfilled
        exact .inr (.inr (.inr (h.entries.trans hfilled)))
  · rw [Ints.step, hadd, Option.some.injEq] at hstep
    subst hstep
    have hlt : pending.length < pf.capacity := by
      have hnot := mt h.slots.full_iff.mpr (by rw [← h.writeIdx, not_not]; exact hempty)
      exact Nat.lt_of_le_of_ne h.slots.le hnot
    have hid : inttype ≠ ELUA_INT_EMPTY_SLOT := by
      rintro rfl
      exact absurd hfirst (by decide)
    refine ⟨pending ++ [⟨inttype, resnum⟩], ?_⟩
    exact {
      slots := h.writeIdx ▸ h.slots.push hlt hid
      writeIdx := by
        rw [List.length_append, List.length_singleton, ← Nat.add_assoc]
        show nextIdx pf s.writeIdx = _
        rw [h.writeIdx, nextIdx_mod]
      inHook := h.inHook.push _
      hook := fun _ => rfl
      flags := h.flags
      accepted := by
        show s.accepted ++ _ = _
        rw [h.accepted, List.append_assoc]
      outcomes := h.outcomes
      delivered := h.delivered
      fails := fun a ha hok => by
        obtain hold | hnew := List.mem_append.mp ha
        · exact h.fails a hold hok
        · rw [List.mem_singleton.mp hnew] at hok
          exact absurd hok (by simp) }

/-- The hook calls the function that is registered, and no function for a disabled
interrupt. -/
theorem Tidy.outcome (h : Tidy pf s r pending) (crt : Element) :
    let f := if eluaIntIsEnabled s crt.id then s.handlers crt.id else none
    (eluaIntIsEnabled s crt.id = true ∧ f = s.handlers crt.id ∧ f ≠ none) ∨
      (eluaIntIsEnabled s crt.id = false ∧ f = none) := by
  cases henabled : eluaIntIsEnabled s crt.id with
  | false => exact .inr ⟨rfl, rfl⟩
  | true =>
    -- an interrupt is enabled only together with the registration of its function
    rw [eluaIntIsEnabled, Bool.and_eq_true, h.flags, Option.isSome_iff_ne_none] at henabled
    exact .inl ⟨rfl, rfl, henabled.2⟩

/-- A step of the hook keeps the invariant, if it is called with an interrupt in the queue. -/
theorem Tidy.hookStep (h : Tidy pf s r pending) (hwork : s.HookHasWork .hook)
    (hstep : hookStep pf s = some s') : ∃ r' pending', Tidy pf s' r' pending' := by
  unfold Alcor.Interrupts.hookStep at hstep
  have hin := h.inHook
  have hout := h.outcomes
  cases hphase : s.phase with
  | idle =>
    rw [hphase] at hin hout
    simp only [hphase] at hstep
    split at hstep
    · next hset =>
        cases hstep
        have hne := hwork hphase hset
        rw [show s.readIdx = r % pf.capacity from hin, Ne, h.slots.head_empty_iff] at hne
        obtain ⟨e, rest, rfl⟩ := List.exists_cons_of_ne_nil hne
        refine ⟨r, e :: rest, { h with inHook := ⟨hin, rest, ?_⟩, outcomes := hout }⟩
        rw [show s.readIdx = r % pf.capacity from hin, h.slots.head]
    · cases hstep
  | fetched crt =>
    rw [hphase] at hin hout
    simp only [hphase, Option.some.injEq] at hstep
    subst hstep
    obtain ⟨hidx, rest, rfl⟩ := hin
    refine ⟨r + 1, rest, ?_⟩
    exact {
      slots := hidx ▸ h.slots.pop _
      writeIdx := h.writeIdx.trans (by rw [List.length_cons]; congr 1; omega)
      inHook := ⟨r, rfl, hidx⟩
      hook := fun _ => h.hook (List.cons_ne_nil _ _)
      flags := h.flags
      accepted := by
        show s.accepted = s.dequeued ++ [crt] ++ rest
        rw [h.accepted, List.append_assoc, List.singleton_append]
      outcomes := by
        show s.dequeued ++ [crt] = _
        rw [hout]
        simp [HookPhase.inHand]
      delivered := h.delivered
      fails := h.fails }
  | emptied crt =>
    rw [hphase] at hin hout
    simp only [hphase, Option.some.injEq] at hstep
    subst hstep
    obtain ⟨r₀, rfl, hidx⟩ := hin
    refine ⟨r₀ + 1, pending, { h with inHook := ?_, outcomes := hout }⟩
    show nextIdx pf s.readIdx = _
    rw [hidx, nextIdx_mod]
  | advanced crt =>
    rw [hphase] at hin hout
    simp only [hphase, Option.some.injEq] at hstep
    subst hstep
    refine ⟨r, pending, { h with inHook := ?_, outcomes := ?_, delivered := fun o ho => ?_ }⟩
    · dsimp only
      generalize Option.isSome _ = called
      cases called <;> exact hin
    · show s.dequeued = _ ++ HookPhase.inHand _
      -- the interrupt in hand becomes the last outcome
      rw [apply_ite HookPhase.inHand, hout]
      simp [HookPhase.inHand]
    · obtain hold | hnew := List.mem_append.mp ho
      · exact h.delivered o hold
      · rw [List.mem_singleton.mp hnew]
        exact h.outcome crt
  | calling =>
    simp only [hphase] at hstep
    cases hstep
  | finishing =>
    rw [hphase] at hin hout
    simp only [hphase, Option.some.injEq] at hstep
    subst hstep
    refine ⟨r, pending, { h with inHook := hin, outcomes := hout, hook := fun hne => ?_ }⟩
    -- the hook is only removed from an empty queue
    have hfilled := mt h.slots.head_empty_iff.mp hne
    rw [← show s.readIdx = r % pf.capacity from hin] at hfilled
    exact (if_neg hfilled).trans (h.hook hne)

/-- The end of a Lua function, in either way, keeps the invariant. -/
theorem Tidy.leave (h : Tidy pf s r pending) (hphase : s.phase = .calling) {phase : HookPhase}
    (hleft : phase = .finishing ∨ phase = .idle) :
    Tidy pf { s with phase := phase } r pending := by
  have hin := h.inHook
  have hout := h.outcomes
  rw [hphase] at hin hout
  rcases hleft with rfl | rfl <;> exact { h with inHook := hin, outcomes := hout }

/-- Registering and unregistering a function keeps the invariant. -/
theorem Tidy.setHandler (h : Tidy pf s r pending) (id : UInt8) (f : Option Handler) :
    Tidy pf (cpuSetIntHandler s id f) r pending where
  __ := h
  flags := by
    intro i
    by_cases hi : i = id <;> simp [cpuSetIntHandler, hi, h.flags]

/-- Every event keeps the invariant, if the hook has work when it is called. -/
theorem Tidy.step (h : Tidy pf s r pending) {e : Event} (hwork : s.HookHasWork e)
    (hstep : s.step pf e = some s') : ∃ r' pending', Tidy pf s' r' pending' := by
  cases e with
  | add inttype resnum =>
    obtain ⟨pending', h'⟩ := h.add inttype resnum hstep
    exact ⟨r, pending', h'⟩
  | hook => exact h.hookStep hwork hstep
  | handlerReturns =>
    simp only [Ints.step, Option.ite_none_right_eq_some, Option.some.injEq] at hstep
    obtain ⟨hphase, rfl⟩ := hstep
    exact ⟨r, pending, h.leave hphase (.inl rfl)⟩
  | handlerRaises =>
    simp only [Ints.step, Option.ite_none_right_eq_some, Option.some.injEq] at hstep
    obtain ⟨hphase, rfl⟩ := hstep
    exact ⟨r, pending, h.leave hphase (.inr rfl)⟩
  | setHandler id f =>
    simp only [Ints.step, Option.ite_none_right_eq_some, Option.some.injEq] at hstep
    obtain ⟨-, rfl⟩ := hstep
    exact ⟨r, pending, h.setHandler id f⟩

end Step

/-! ### Runs -/

/-- As long as the hook is only called with an interrupt in the queue,
interrupts leave the queue in order and reach their functions, and
`elua_int_add` fails only by design (`FailsAsDesigned`). By the run
rule, with `Tidy` for the invariant. -/
theorem handled_in_order (pf : Platform) (luaState : Bool) (es : List Event) (s : Ints)
    (hwork : AllSteps (Ints.step pf) Ints.HookHasWork { luaState := luaState } es)
    (hrun : run (Ints.step pf) { luaState := luaState } es = some s) :
    s.Ordered ∧ s.FailsAsDesigned pf := by
  have htidy : ∃ r pending, Tidy pf s r pending := by
    refine invariant_run (I := fun s => ∃ r pending, Tidy pf s r pending) ?_ es _ s
      ⟨0, [], tidy_init pf luaState⟩ hwork hrun
    rintro s e s' ⟨r, pending, h⟩ he hstep
    exact h.step he hstep
  obtain ⟨r, pending, h⟩ := htidy
  exact ⟨h.ordered, h.fails⟩

/-- A platform with a queue of 32 interrupts. -/
def queueOf32 : Platform := ⟨5, 4, by decide, by decide⟩

/-- Two interrupts come, the second while the Lua function for the first runs. -/
def twoInterrupts : List Event :=
  [.setHandler 1 (some 0), .add 1 7, .hook, .hook, .hook, .hook, .add 1 8, .handlerReturns,
    .hook, .hook]

/-- Two interrupts, the second of which comes while the function for
the first runs. -/
theorem handled_in_order_two :
    AllSteps (Ints.step queueOf32) Ints.HookHasWork { luaState := true } twoInterrupts ∧
      ∃ s, run (Ints.step queueOf32) { luaState := true } twoInterrupts = some s ∧
        s.dequeued = [⟨1, 7⟩] ∧ s.Ordered ∧ s.FailsAsDesigned queueOf32 :=
  ⟨by decide, _, rfl, rfl, handled_in_order queueOf32 true twoInterrupts _ (by decide) rfl⟩

/-- The Lua function for the only interrupt raises an error, and the hook is called once more.
Then two interrupts come. -/
def errorInHandler : List Event :=
  [.setHandler 1 (some 0), .add 1 7, .hook, .hook, .hook, .hook, .handlerRaises,
    .hook, .hook, .hook, .hook, .hook, .add 1 8, .add 1 9, .hook, .hook, .hook, .hook]

/-- An interrupt that is disabled is refused by an empty queue; and after an error in a Lua
function the hook takes a slot from the queue that nobody filled, and the second of the two
interrupts before the first. -/
theorem not_handled_in_order :
    (∃ s, run (Ints.step queueOf32) {} [.add 1 7] = some s ∧ ¬ s.FailsOnlyFull queueOf32) ∧
    ∃ s, run (Ints.step queueOf32) {} errorInHandler = some s ∧ ¬ s.Ordered := by
  constructor
  · refine ⟨_, rfl, fun hfull => ?_⟩
    exact absurd (hfull _ List.mem_cons_self rfl) (by decide)
  · refine ⟨_, rfl, fun hordered => ?_⟩
    -- what left the queue is interrupt 7, an empty slot and interrupt 9
    exact absurd (prefix_of_ordered hordered) (by decide)

/-! ### When the hook has work -/

/-- `elua_int_add` leaves the hook with work. -/
theorem hookHasWork_add {pf : Platform} {s : Ints} {r : Nat} {pending : List Element}
    (h : Tidy pf s r pending) (hwork : s.HookHasWork .hook) {inttype : UInt8} {resnum : UInt16}
    (hstep : s.step pf (.add inttype resnum) = some s') : s'.HookHasWork .hook := by
  obtain ⟨pending', h'⟩ := h.add inttype resnum hstep
  intro hidle _
  have hin := h'.inHook
  rw [hidle] at hin
  rw [show s'.readIdx = r % pf.capacity from hin, Ne, h'.slots.head_empty_iff]
  rintro rfl
  -- the queue is empty, so that nothing was accepted, and it was empty before
  have hcount := h'.entries
  obtain ⟨hadd, -⟩ | ⟨-, -, hadd⟩ := eluaIntAdd_cases pf s inttype resnum
  · rw [Ints.step, hadd, Option.some.injEq] at hstep
    subst hstep
    rename_i hset
    refine hwork hidle hset ?_
    have hempty : pending = [] := List.eq_nil_of_length_eq_zero (h.entries.symm.trans hcount)
    have hin := h.inHook
    rw [show s.phase = .idle from hidle] at hin
    rw [show s.readIdx = r % pf.capacity from hin, h.slots.head_empty_iff]
    exact hempty
  · rw [Ints.step, hadd, Option.some.injEq] at hstep
    subst hstep
    have hle := h.entries
    have hacc := congrArg List.length h.accepted
    simp only [if_true, List.length_append, List.length_singleton, List.length_nil] at hcount hacc
    omega

/-- The hook removes itself from an empty queue, and `elua_int_add` sets it for a queue that is
not empty. Only an error in a Lua function can leave it set for an empty one. -/
theorem hookHasWork_step {pf : Platform} {s : Ints} {r : Nat} {pending : List Element}
    (h : Tidy pf s r pending) (hwork : s.HookHasWork .hook) {e : Event}
    (herr : s.ErrorsWithWork e) (hstep : s.step pf e = some s') : s'.HookHasWork .hook := by
  cases e with
  | add inttype resnum => exact hookHasWork_add h hwork hstep
  | hook =>
    intro hidle hset
    simp only [Ints.step, hookStep] at hstep
    cases hphase : s.phase with
    | finishing =>
      simp only [hphase, Option.some.injEq] at hstep
      subst hstep
      -- the hook is still set, so that the test found an interrupt
      intro hempty
      exact absurd ((if_pos hempty).symm.trans hset) (by decide)
    | idle =>
      simp only [hphase, Option.ite_none_right_eq_some, Option.some.injEq] at hstep
      obtain ⟨-, rfl⟩ := hstep
      exact absurd hidle (by simp)
    | calling => simp [hphase] at hstep
    | fetched crt | emptied crt =>
      simp only [hphase, Option.some.injEq] at hstep
      subst hstep
      exact absurd hidle (by simp)
    | advanced crt =>
      simp only [hphase, Option.some.injEq] at hstep
      subst hstep
      dsimp only at hidle
      generalize Option.isSome _ = called at hidle
      cases called <;> exact absurd hidle (by simp)
  | handlerReturns =>
    simp only [Ints.step, Option.ite_none_right_eq_some, Option.some.injEq] at hstep
    obtain ⟨-, rfl⟩ := hstep
    exact fun hidle => absurd hidle (by simp)
  | handlerRaises =>
    simp only [Ints.step, Option.ite_none_right_eq_some, Option.some.injEq] at hstep
    obtain ⟨-, rfl⟩ := hstep
    exact fun _ _ => herr
  | setHandler id f =>
    simp only [Ints.step, Option.ite_none_right_eq_some, Option.some.injEq] at hstep
    obtain ⟨-, rfl⟩ := hstep
    exact hwork

/-- If Lua functions raise errors only with an interrupt in the queue, the hook is only called
with an interrupt in the queue. -/
theorem hookHasWork_of_errors (pf : Platform) (luaState : Bool) (es : List Event)
    (herr : AllSteps (Ints.step pf) Ints.ErrorsWithWork { luaState := luaState } es) :
    AllSteps (Ints.step pf) Ints.HookHasWork { luaState := luaState } es := by
  refine allSteps_of_invariant
    (I := fun s => s.HookHasWork .hook ∧ ∃ r pending, Tidy pf s r pending) ?_ ?_ es _
    ⟨fun _ hset => absurd hset (by simp), 0, [], tidy_init pf luaState⟩ herr
  · rintro s e ⟨hwork, -⟩ -
    cases e with
    | hook => exact hwork
    | _ => trivial
  · rintro s e s' ⟨hwork, r, pending, h⟩ he hstep
    have he' : s.HookHasWork e := by
      cases e with
      | hook => exact hwork
      | _ => trivial
    exact ⟨hookHasWork_step h hwork he hstep, h.step he' hstep⟩

end Alcor.Proofs.Interrupts
