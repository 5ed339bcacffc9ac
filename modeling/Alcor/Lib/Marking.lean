import Mathlib.Data.Finset.Card
import Mathlib.Data.Set.Insert
import Mathlib.Logic.Relation

/-!
# `Alcor.Lib.Marking`: marking what can be reached

A graph is a list of successors for each node. `Marks succ M as n M'`
says that a marker which starts with the marks `M` and visits `as` one
after the other ends with the marks `M'`, after `n` visits: it goes
past a node that is marked, and marks any other node before it visits
the successors of that node.

The rules of a marker are about one visit each (`Marks.closed`,
`Marks.entered`), and `Marks.eq` puts them together: with marks that no
successor leads out of, the marker adds exactly what can be reached.
`Marks.exists` is its termination.
-/

set_option autoImplicit false

namespace Lib.Marking

variable {α : Type} {succ succ' : α → List α}
variable {x a : α}

/-- A marker visits the nodes `as`: the marks `M` become `M'`, with `n` new ones. -/
inductive Marks (succ : α → List α) : Set α → List α → Nat → Set α → Prop
  | nil (M : Set α) : Marks succ M [] 0 M
  | skip {M M' : Set α} {a : α} {as : List α} {n : Nat} :
      a ∈ M → Marks succ M as n M' → Marks succ M (a :: as) n M'
  | visit {M M₁ M' : Set α} {a : α} {as : List α} {m n : Nat} :
      a ∉ M → Marks succ (insert a M) (succ a) m M₁ → Marks succ M₁ as n M' →
        Marks succ M (a :: as) (m + n + 1) M'

/-- No successor of a node of `M` is outside of `M`. -/
def Closed (succ : α → List α) (M : Set α) : Prop := ∀ x ∈ M, ∀ y ∈ succ x, y ∈ M

/-- `x` can be reached from one of `as`. -/
def Reaches (succ : α → List α) (as : List α) (x : α) : Prop :=
  ∃ a ∈ as, Relation.ReflTransGen (fun u v => v ∈ succ u) a x

theorem Reaches.of_mem {as : List α} (h : a ∈ as) : Reaches succ as a :=
  ⟨a, h, .refl⟩

theorem Reaches.tail {as : List α} {y : α} (h : Reaches succ as x) (hy : y ∈ succ x) :
    Reaches succ as y := by
  obtain ⟨a, ha, hpath⟩ := h
  exact ⟨a, ha, hpath.tail hy⟩

theorem Reaches.trans {as bs : List α} (h : Reaches succ bs x)
    (hbs : ∀ b ∈ bs, Reaches succ as b) : Reaches succ as x := by
  obtain ⟨b, hb, hpath⟩ := h
  obtain ⟨a, ha, hpath'⟩ := hbs b hb
  exact ⟨a, ha, hpath'.trans hpath⟩

theorem Reaches.mono {as bs : List α} (h : Reaches succ as x) (hsub : as ⊆ bs) :
    Reaches succ bs x :=
  h.trans fun _ hb => .of_mem (hsub hb)

/-- A closed set that holds the starting points holds what they reach,
by induction along the path. -/
theorem Closed.of_reaches {M : Set α} {as : List α} (hM : Closed succ M) (has : ∀ a ∈ as, a ∈ M)
    (h : Reaches succ as x) : x ∈ M := by
  obtain ⟨a, ha, hpath⟩ := h
  induction hpath with
  | refl => exact has a ha
  | tail _ hy ih => exact hM _ ih _ hy

/-- Two graphs that agree on what is reached in the one reach the same. -/
theorem Reaches.congr {as : List α} (h : Reaches succ as x)
    (heq : ∀ y, Reaches succ as y → succ' y = succ y) : Reaches succ' as x := by
  obtain ⟨a, ha, hpath⟩ := h
  induction hpath with
  | refl => exact .of_mem ha
  | tail hpath hy ih =>
    refine ih.tail ?_
    rw [heq _ ⟨a, ha, hpath⟩]
    exact hy

namespace Marks

variable {M M' : Set α} {as : List α} {n : Nat}

theorem subset (h : Marks succ M as n M') : M ⊆ M' := by
  induction h with
  | nil => exact Set.Subset.rfl
  | skip _ _ ih => exact ih
  | visit _ _ _ ih₁ ih₂ => exact ((Set.subset_insert _ _).trans ih₁).trans ih₂

/-- What is to be visited is marked in the end, by the marker or
before. -/
theorem mem (h : Marks succ M as n M') : ∀ a ∈ as, a ∈ M' := by
  induction h with
  | nil => intro a ha; exact absurd ha List.not_mem_nil
  | skip ha hrest ih =>
    intro b hb
    rcases List.mem_cons.mp hb with rfl | hb
    · exact hrest.subset ha
    · exact ih b hb
  | visit _ hsucc hrest _ ih =>
    intro b hb
    rcases List.mem_cons.mp hb with rfl | hb
    · exact hrest.subset (hsucc.subset (Set.mem_insert _ _))
    · exact ih b hb

/-- The successors of a new mark are marked, as each is visited before
the marker is done with its node. -/
theorem closed (h : Marks succ M as n M') : ∀ x ∈ M', x ∉ M → ∀ y ∈ succ x, y ∈ M' := by
  induction h with
  | nil => intro x hx hn; exact absurd hx hn
  | skip _ _ ih => exact ih
  | @visit M M₁ M' a _ _ _ _ hsucc hrest ih₁ ih₂ =>
    intro x hx hn y hy
    by_cases hx₁ : x ∈ M₁
    · by_cases hxa : x = a
      · subst hxa
        exact hrest.subset (hsucc.mem y hy)
      · have hout : x ∉ insert a M := by
          rintro (h | h)
          · exact hxa h
          · exact hn h
        exact hrest.subset (ih₁ x hx₁ hout y hy)
    · exact ih₂ x hx hx₁ y hy

/-- A new mark was to be visited, or is the successor of a new mark:
no node is marked without a reason. -/
theorem entered (h : Marks succ M as n M') :
    ∀ x ∈ M', x ∉ M → x ∈ as ∨ ∃ y ∈ M', y ∉ M ∧ x ∈ succ y := by
  induction h with
  | nil => intro x hx hn; exact absurd hx hn
  | skip _ _ ih =>
    intro x hx hn
    rcases ih x hx hn with h | h
    · exact .inl (List.mem_cons_of_mem _ h)
    · exact .inr h
  | @visit M M₁ M' a _ _ _ ha hsucc hrest ih₁ ih₂ =>
    intro x hx hn
    have hinM : ∀ z, z ∈ M₁ → z ∈ M' := fun z hz => hrest.subset hz
    by_cases hx₁ : x ∈ M₁
    · by_cases hxa : x = a
      · exact .inl (hxa ▸ List.mem_cons_self)
      · have hout : x ∉ insert a M := by
          rintro (h | h)
          · exact hxa h
          · exact hn h
        rcases ih₁ x hx₁ hout with h | ⟨y, hy, hyn, hxy⟩
        · exact .inr ⟨a, hinM a (hsucc.subset (Set.mem_insert _ _)), ha, h⟩
        · exact .inr ⟨y, hinM y hy, fun h => hyn (Set.mem_insert_of_mem _ h), hxy⟩
    · rcases ih₂ x hx hx₁ with h | ⟨y, hy, hyn, hxy⟩
      · exact .inl (List.mem_cons_of_mem _ h)
      · exact .inr ⟨y, hy, fun h => hyn (hsucc.subset (Set.mem_insert_of_mem _ h)), hxy⟩

/-- A new mark can be reached from what was to be visited. -/
theorem reaches (h : Marks succ M as n M') : ∀ x ∈ M', x ∉ M → Reaches succ as x := by
  induction h with
  | nil => intro x hx hn; exact absurd hx hn
  | skip _ _ ih => exact fun x hx hn => (ih x hx hn).mono (List.subset_cons_self _ _)
  | @visit M M₁ M' a _ _ _ ha hsucc hrest ih₁ ih₂ =>
    intro x hx hn
    by_cases hx₁ : x ∈ M₁
    · by_cases hxa : x = a
      · exact .of_mem (hxa ▸ List.mem_cons_self)
      · have hout : x ∉ insert a M := by
          rintro (h | h)
          · exact hxa h
          · exact hn h
        refine (ih₁ x hx₁ hout).trans fun b hb => ?_
        exact (Reaches.of_mem List.mem_cons_self).tail hb
    · exact (ih₂ x hx hx₁).mono (List.subset_cons_self _ _)

theorem closed_of (h : Marks succ M as n M') (hM : Closed succ M) : Closed succ M' := by
  intro x hx y hy
  by_cases hn : x ∈ M
  · exact h.subset (hM x hn y hy)
  · exact h.closed x hx hn y hy

/-- With marks that no successor leads out of, the marker adds exactly what can be reached. -/
theorem eq (h : Marks succ M as n M') (hM : Closed succ M) :
    M' = M ∪ {x | Reaches succ as x} := by
  ext x
  constructor
  · intro hx
    by_cases hn : x ∈ M
    · exact .inl hn
    · exact .inr (h.reaches x hx hn)
  · rintro (hx | hx)
    · exact h.subset hx
    · exact (h.closed_of hM).of_reaches h.mem hx

/-- A single node that has no mark yet. -/
theorem single (ha : a ∉ M) (h : Marks succ (insert a M) (succ a) n M') :
    Marks succ M [a] (n + 1) M' :=
  .visit ha h (.nil _)

/-! ### Termination -/

open Classical in
/-- How many nodes of `U` have no mark. -/
noncomputable def unmarked (U : Finset α) (M : Set α) : Nat := (U.filter (· ∉ M)).card

theorem unmarked_le (U : Finset α) (M : Set α) : unmarked U M ≤ U.card := by
  classical
  exact Finset.card_filter_le _ _

theorem unmarked_insert {U : Finset α} {M : Set α} (hU : a ∈ U) (ha : a ∉ M) :
    unmarked U (insert a M) + 1 = unmarked U M := by
  classical
  have hmem : a ∈ U.filter (· ∉ M) := Finset.mem_filter.mpr ⟨hU, ha⟩
  have herase : U.filter (· ∉ insert a M) = (U.filter (· ∉ M)).erase a := by
    ext x
    simp only [Finset.mem_filter, Finset.mem_erase, Set.mem_insert_iff, not_or]
    tauto
  have hcard := Finset.card_erase_add_one hmem
  rw [← herase] at hcard
  unfold unmarked
  convert hcard

/-- Within a finite part of the graph, the marker comes to an end, and each visit takes a node that
had no mark. -/
theorem «exists» (U : Finset α) (hU : ∀ x ∈ U, ∀ y ∈ succ x, y ∈ U) (M : Set α) (as : List α)
    (has : ∀ a ∈ as, a ∈ U) :
    ∃ n M', Marks succ M as n M' ∧ n + unmarked U M' = unmarked U M := by
  -- By induction on the number of nodes without a mark, and for each number along the list.
  suffices hgen : ∀ k, ∀ (as : List α) (M : Set α), unmarked U M ≤ k → (∀ a ∈ as, a ∈ U) →
      ∃ n M', Marks succ M as n M' ∧ n + unmarked U M' = unmarked U M from
    hgen _ as M (Nat.le_refl _) has
  intro k
  induction k with
  | zero =>
    intro as M hk has
    refine ⟨0, M, ?_, Nat.zero_add _⟩
    have hall : ∀ a ∈ U, a ∈ M := by
      intro a ha
      by_contra hn
      have := unmarked_insert ha hn
      omega
    induction as with
    | nil => exact .nil _
    | cons a as ih =>
      exact .skip (hall a (has a List.mem_cons_self))
        (ih fun b hb => has b (List.mem_cons_of_mem _ hb))
  | succ k ihk =>
    intro as
    induction as with
    | nil => exact fun M _ _ => ⟨0, M, .nil _, Nat.zero_add _⟩
    | cons a as ih =>
      intro M hk has
      have haU := has a List.mem_cons_self
      have hrest : ∀ b ∈ as, b ∈ U := fun b hb => has b (List.mem_cons_of_mem _ hb)
      by_cases ha : a ∈ M
      · obtain ⟨n, M', hm, hn⟩ := ih M hk hrest
        exact ⟨n, M', .skip ha hm, hn⟩
      · have hcard := unmarked_insert haU ha
        obtain ⟨m, M₁, hm, hcard₁⟩ := ihk (succ a) (insert a M) (by omega) (hU a haU)
        obtain ⟨n, M', hn, hcard₂⟩ := ih M₁ (by omega) hrest
        exact ⟨m + n + 1, M', .visit ha hm hn, by omega⟩

end Marks

end Lib.Marking
