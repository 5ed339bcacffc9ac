import Mathlib.Data.Finset.Card
import Mathlib.Data.Fintype.Card
import Mathlib.Data.List.Basic

/-!
# `Alcor.Lib.Run`: loops and runs

Loops with a body that may leave them, and runs of a step function.

* `Loop.run body n s` is the value that a loop returns within `n` passes,
  `Loop.after` the state after `n` passes that go on. `run_inv` is the
  rule of a loop, `run_eq_none_of_cycle` and `run_eq_none_of_card` say
  that a loop never returns: it meets a state twice, or stays in a
  finite set for as many passes as the set has states.
* `Run.run step s es` is a run, `Run.Reachable` what runs reach and
  `Run.AllSteps` a condition on every step of a run. `invariant_run` and
  `invariant_reachable` are the invariant rules, `progress_run` says that
  a run goes on, `invariant_run_iff` is the rule for an exact condition.
-/

set_option autoImplicit false

/-!
## Loops that may not end

A `while` loop is a body that either returns a value or goes on with
a new state. `Loop.run body n s` gives the body `n` passes. It is
`none` when the loop has not returned by then, and more passes never
change a value it has returned (`run_mono`).

On a finite set of states, `n` passes are enough to know: a loop that
has not returned after as many passes as there are states never
returns (`run_eq_none_of_card`). A loop whose body gives a state back
unchanged never returns either (`run_eq_none_of_fixed`).
-/

namespace Lib.Loop

variable {n : Nat}
variable {σ α : Type}
variable {s s' : σ} {a : α}

/-- The value the loop returns within `n` passes from `s`. -/
def run (body : σ → α ⊕ σ) : Nat → σ → Option α
  | 0,     _ => none
  | n + 1, s =>
    match body s with
    | .inl a  => some a
    | .inr s' => run body n s'

/-- The state after exactly `n` passes that go on. -/
def after (body : σ → α ⊕ σ) : Nat → σ → Option σ
  | 0,     s => some s
  | n + 1, s =>
    match body s with
    | .inl _  => none
    | .inr s' => after body n s'

variable {body : σ → α ⊕ σ}

@[simp] theorem run_zero (s : σ) : run body 0 s = none := rfl

@[simp] theorem after_zero (s : σ) : after body 0 s = some s := rfl

theorem run_succ_of_inl (h : body s = .inl a) (n : Nat) : run body (n + 1) s = some a := by
  simp [run, h]

theorem run_succ_of_inr (h : body s = .inr s') (n : Nat) : run body (n + 1) s = run body n s' := by
  simp [run, h]

theorem after_succ_of_inl (h : body s = .inl a) (n : Nat) : after body (n + 1) s = none := by
  simp [after, h]

theorem after_succ_of_inr (h : body s = .inr s') (n : Nat) :
    after body (n + 1) s = after body n s' := by
  simp [after, h]

/-- The value a loop returns is the one its body returns at some
state, after some passes that go on. -/
theorem exists_body_of_run (h : run body n s = some a) : ∃ t, body t = .inl a := by
  induction n generalizing s with
  | zero => simp at h
  | succ n ih =>
    cases hb : body s with
    | inl b =>
      rw [run_succ_of_inl hb, Option.some.injEq] at h
      exact ⟨s, h ▸ hb⟩
    | inr s' =>
      rw [run_succ_of_inr hb] at h
      exact ih h

/-- The rule of a loop: what every pass keeps holds when the loop returns. -/
theorem run_inv {P : σ → Prop} {Q : α → Prop} (hnext : ∀ s s', P s → body s = .inr s' → P s')
    (hexit : ∀ s a, P s → body s = .inl a → Q a) (hs : P s) (h : run body n s = some a) : Q a := by
  induction n generalizing s with
  | zero => simp at h
  | succ n ih =>
    cases hb : body s with
    | inl b =>
      rw [run_succ_of_inl hb, Option.some.injEq] at h
      exact h ▸ hexit s b hs hb
    | inr s' =>
      rw [run_succ_of_inr hb] at h
      exact ih (hnext s s' hs hb) h

/-- More passes do not change the value a loop has returned. -/
theorem run_mono {m : Nat} (h : run body n s = some a) (hnm : n ≤ m) : run body m s = some a := by
  induction n generalizing m s with
  | zero => simp at h
  | succ n ih =>
    obtain ⟨m, rfl⟩ : ∃ k, m = k + 1 := ⟨m - 1, by omega⟩
    cases hb : body s with
    | inl b =>
      rw [run_succ_of_inl hb] at h ⊢
      exact h
    | inr s' =>
      rw [run_succ_of_inr hb] at h ⊢
      exact ih h (by omega)

/-- Two numbers of passes that both see the loop return see the same value. -/
theorem run_det {m : Nat} {b : α} (hn : run body n s = some a) (hm : run body m s = some b) :
    a = b := by
  have ha := run_mono hn (Nat.le_max_left n m)
  have hb := run_mono hm (Nat.le_max_right n m)
  rw [ha] at hb
  exact Option.some.inj hb

/-- A loop that comes back to the state it started from never returns. -/
theorem run_eq_none_of_fixed (h : body s = .inr s) (n : Nat) : run body n s = none := by
  induction n with
  | zero => rfl
  | succ n ih => rw [run_succ_of_inr h, ih]

/-- Passes that go on are followed by the rest of the loop, from the
state they lead to. -/
theorem run_add_of_after {k : Nat} (h : after body k s = some s') (n : Nat) :
    run body (k + n) s = run body n s' := by
  induction k generalizing s with
  | zero =>
    rw [after_zero, Option.some.injEq] at h
    rw [h, Nat.zero_add]
  | succ k ih =>
    cases hb : body s with
    | inl a => simp [after_succ_of_inl hb] at h
    | inr t =>
      rw [after_succ_of_inr hb] at h
      rw [Nat.succ_add, run_succ_of_inr hb, ih h]

/-- A loop that has not returned in `n` passes has gone on `n` times. -/
theorem exists_after_of_run_eq_none (h : run body n s = none) :
    ∀ k ≤ n, ∃ t, after body k s = some t := by
  induction n generalizing s with
  | zero =>
    intro k hk
    obtain rfl : k = 0 := by omega
    exact ⟨s, rfl⟩
  | succ n ih =>
    intro k hk
    cases hb : body s with
    | inl a => simp [run_succ_of_inl hb] at h
    | inr s' =>
      cases k with
      | zero => exact ⟨s, rfl⟩
      | succ k =>
        rw [run_succ_of_inr hb] at h
        obtain ⟨t, ht⟩ := ih h k (by omega)
        exact ⟨t, by rw [after_succ_of_inr hb]; exact ht⟩

/-- A loop that meets one state twice never returns: by strong
induction, the value of the later visit would be that of the earlier
one with fewer passes. -/
theorem run_eq_none_of_cycle {i j : Nat} {t : σ} (hij : i < j) (hi : after body i s = some t)
    (hj : after body j s = some t) (n : Nat) : run body n s = none := by
  -- From `t`, the loop is back at `t` after `j - i` more passes.
  have hcycle : ∀ m, run body (j - i + m) t = run body m t := by
    intro m
    have h1 := run_add_of_after hi (j - i + m)
    have h2 := run_add_of_after hj m
    rw [show i + (j - i + m) = j + m by omega, h2] at h1
    exact h1.symm
  have ht : ∀ m, run body m t = none := by
    intro m
    induction m using Nat.strong_induction_on with
    | _ m ih =>
      by_cases hm : m < j - i
      · cases hr : run body m t with
        | none => rfl
        | some a =>
          have hbig := run_mono hr (show m ≤ j - i + 0 by omega)
          rw [hcycle 0] at hbig
          simp at hbig
      · have hrec := hcycle (m - (j - i))
        rw [show j - i + (m - (j - i)) = m by omega] at hrec
        rw [hrec]
        exact ih (m - (j - i)) (by omega)
  cases hr : run body n s with
  | none => rfl
  | some a =>
    have hbig := run_mono hr (show n ≤ i + n by omega)
    rw [run_add_of_after hi n, ht n] at hbig
    exact absurd hbig (by simp)

/-- On a finite set of states that the body does not leave, a loop
that has not returned after as many passes as there are states never
returns. -/
theorem run_eq_none_of_card (S : Finset σ) (hS : ∀ s ∈ S, ∀ s', body s = .inr s' → s' ∈ S)
    (hs : s ∈ S) (h : run body S.card s = none) (n : Nat) : run body n s = none := by
  have hafter := exists_after_of_run_eq_none h
  have hmem : ∀ k (u v : σ), u ∈ S → after body k u = some v → v ∈ S := by
    intro k
    induction k with
    | zero =>
      intro u v hu hv
      rw [after_zero, Option.some.injEq] at hv
      exact hv ▸ hu
    | succ k ih =>
      intro u v hu hv
      cases hb : body u with
      | inl a => simp [after_succ_of_inl hb] at hv
      | inr u' =>
        rw [after_succ_of_inr hb] at hv
        exact ih u' v (hS u hu u' hb) hv
  -- `card + 1` visited states, all in `S`: two of them are the same.
  choose f hf using fun k : Fin (S.card + 1) => hafter k.val (by omega)
  obtain ⟨i, -, j, -, hne, heq⟩ := Finset.exists_ne_map_eq_of_card_lt_of_maps_to
    (s := Finset.univ) (t := S) (f := f) (by simp) (fun k _ => hmem k.val s (f k) hs (hf k))
  rcases Nat.lt_or_ge i.val j.val with hlt | hge
  · exact run_eq_none_of_cycle hlt (hf i) (by rw [heq]; exact hf j) n
  · have hlt : j.val < i.val := by
      have : i.val ≠ j.val := fun h => hne (Fin.ext h)
      omega
    exact run_eq_none_of_cycle hlt (hf j) (by rw [← heq]; exact hf i) n

end Lib.Loop

/-!
## Runs of a system and invariants

A system is a partial step function: `step s e` is the state after
the event `e`, and `none` when the step has no outcome. `run step s es`
takes the events in order.

`AllSteps step ok s es` says that every step of the run meets the
condition `ok` in the state before it. `invariant_run` turns a step
lemma into a fact about every state a run reaches, for runs whose
steps all meet the condition.
-/

namespace Lib.Run

variable {σ ε : Type}
variable {P : σ → ε → Prop} {I : σ → Prop}

/-- The state after the events, `none` as soon as one has no outcome. -/
def run (step : σ → ε → Option σ) : σ → List ε → Option σ
  | s, []      => some s
  | s, e :: es => (step s e).bind fun s' => run step s' es

/-- Every step of the run from `s` meets `ok` in the state before it. -/
def AllSteps (step : σ → ε → Option σ) (ok : σ → ε → Prop) : σ → List ε → Prop
  | _, []      => True
  | s, e :: es => ok s e ∧ ∀ s', step s e = some s' → AllSteps step ok s' es

/-- The condition on a run can be tested, step by step. -/
instance decidableAllSteps {step : σ → ε → Option σ} {ok : σ → ε → Prop}
    [∀ s e, Decidable (ok s e)] : ∀ s es, Decidable (AllSteps step ok s es)
  | _, []      => .isTrue trivial
  | s, e :: es =>
    match h : step s e with
    | none    => decidable_of_iff (ok s e) (by simp [AllSteps, h])
    | some s' =>
      have : Decidable (AllSteps step ok s' es) := decidableAllSteps s' es
      decidable_of_iff (ok s e ∧ AllSteps step ok s' es) (by simp [AllSteps, h])

/-- The states a run from `s` can reach. -/
def Reachable (step : σ → ε → Option σ) (s s' : σ) : Prop :=
  ∃ es, run step s es = some s'

variable {step : σ → ε → Option σ}

/-- An invariant of the steps that meet `P` holds after every run whose steps meet `P`. -/
theorem invariant_run (hstep : ∀ s e s', I s → P s e → step s e = some s' → I s') :
    ∀ (es : List ε) (s s' : σ), I s → AllSteps step P s es → run step s es = some s' →
      I s' := by
  intro es
  induction es with
  | nil =>
    intro s s' hs _ hrun
    rw [run, Option.some.injEq] at hrun
    exact hrun ▸ hs
  | cons e es ih =>
    intro s s' hs hok hrun
    obtain ⟨t, ht, hrest⟩ := Option.bind_eq_some_iff.mp hrun
    exact ih t s' (hstep s e t hs hok.1 ht) (hok.2 t ht) hrest

/-- Where a step keeps `I` exactly when it meets `P`, a run keeps `I` throughout exactly when all of
its steps meet `P`. -/
theorem invariant_run_iff {J : σ → Prop} (hstep : ∀ s e s', J s → step s e = some s' → J s')
    (hexact : ∀ s e, J s → I s → (P s e ↔ ∀ s', step s e = some s' → I s')) :
    ∀ (es : List ε) (s : σ), J s → I s →
      ((∀ xs ys s', es = xs ++ ys → run step s xs = some s' → I s') ↔ AllSteps step P s es) := by
  intro es
  induction es with
  | nil =>
    refine fun s _ hI => ⟨fun _ => trivial, fun _ xs ys s' hsplit hrun => ?_⟩
    obtain ⟨rfl, -⟩ := List.append_eq_nil_iff.mp hsplit.symm
    rw [run, Option.some.injEq] at hrun
    exact hrun ▸ hI
  | cons e es ih =>
    intro s hJ hI
    constructor
    · intro hall
      have hone : ∀ s', step s e = some s' → I s' := fun s' hs' =>
        hall [e] es s' rfl (by rw [run, hs', Option.bind_some, run])
      refine ⟨(hexact s e hJ hI).mpr hone, fun s' hs' => ?_⟩
      refine (ih s' (hstep s e s' hJ hs') (hone s' hs')).mp fun xs ys t hsplit hrun => ?_
      exact hall (e :: xs) ys t (by rw [hsplit, List.cons_append])
        (by rw [run, hs', Option.bind_some, hrun])
    · rintro ⟨hok, hrest⟩ xs ys t hsplit hrun
      cases xs with
      | nil =>
        rw [run, Option.some.injEq] at hrun
        exact hrun ▸ hI
      | cons x xs =>
        rw [List.cons_append, List.cons.injEq] at hsplit
        obtain ⟨rfl, hsplit⟩ := hsplit
        obtain ⟨s', hs', hrun⟩ := Option.bind_eq_some_iff.mp hrun
        have hI' := (hexact s e hJ hI).mp hok s' hs'
        exact (ih s' (hstep s e s' hJ hs') hI').mpr (hrest s' hs') xs ys t hsplit hrun

/-- A condition that an invariant implies holds at every step, too. -/
theorem allSteps_of_invariant {Q : σ → ε → Prop} (himp : ∀ s e, I s → P s e → Q s e)
    (hstep : ∀ s e s', I s → P s e → step s e = some s' → I s') :
    ∀ (es : List ε) (s : σ), I s → AllSteps step P s es → AllSteps step Q s es := by
  intro es
  induction es with
  | nil => exact fun _ _ _ => trivial
  | cons e es ih =>
    intro s hs hok
    exact ⟨himp s e hs hok.1, fun t ht => ih t (hstep s e t hs hok.1 ht) (hok.2 t ht)⟩

/-- A condition on the steps of a run is one on the steps of its beginning. -/
theorem AllSteps.of_append {s : σ} {xs ys : List ε} (h : AllSteps step P s (xs ++ ys)) :
    AllSteps step P s xs := by
  induction xs generalizing s with
  | nil => trivial
  | cons x xs ih => exact ⟨h.1, fun s' hs' => ih (h.2 s' hs')⟩

/-- If every step that meets `P` has an outcome and keeps the invariant, so does every run. -/
theorem progress_run (hstep : ∀ s e, I s → P s e → ∃ s', step s e = some s' ∧ I s') :
    ∀ (es : List ε) (s : σ), I s → AllSteps step P s es →
      ∃ s', run step s es = some s' ∧ I s' := by
  intro es
  induction es with
  | nil => exact fun s hs _ => ⟨s, rfl, hs⟩
  | cons e es ih =>
    intro s hs hok
    obtain ⟨t, ht, hI⟩ := hstep s e hs hok.1
    obtain ⟨s', hrun, hI'⟩ := ih t hI (hok.2 t ht)
    exact ⟨s', by rw [run, ht]; exact hrun, hI'⟩

/-- An invariant of every step holds in every reachable state. -/
theorem invariant_reachable (hstep : ∀ s e s', I s → step s e = some s' → I s') {s s' : σ}
    (hs : I s) (h : Reachable step s s') : I s' := by
  obtain ⟨es, hes⟩ := h
  refine invariant_run (P := fun _ _ => True) (fun s e s' hi _ he => hstep s e s' hi he)
    es s s' hs ?_ hes
  clear hes hs
  induction es generalizing s with
  | nil => trivial
  | cons e es ih => exact ⟨trivial, fun _ _ => ih⟩

end Lib.Run
