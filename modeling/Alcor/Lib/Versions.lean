import Mathlib.Data.List.Induction
import Mathlib.Data.List.Pairwise

/-!
# `Alcor.Lib.Versions`: logs in which the last entry of a key counts

A store that never overwrites keeps a log of versions. `latest key log`
is what is left of it: the entries that no later entry of the same key
replaces, in the order of the log. `lookup key k log` is the last entry
of a key.

`latest_concat` says what one more entry does, and
`find_latest` that a search in what is left finds the last entry.
-/

set_option autoImplicit false

namespace Lib.Versions

variable {α κ : Type} [DecidableEq κ] (key : α → κ)

/-- The entries that no later entry of the same key replaces. -/
def latest (log : List α) : List α := log.pwFilter fun a b => key a ≠ key b

/-- The last entry of a key. -/
def lookup (k : κ) (log : List α) : Option α := log.reverse.find? fun a => key a = k

/-- A new entry replaces those of its key. -/
theorem latest_concat (log : List α) (a : α) :
    latest key (log ++ [a]) = (latest key log).filter (fun b => key b ≠ key a) ++ [a] := by
  unfold latest
  induction log with
  | nil => rfl
  | cons x log ih =>
    rw [List.cons_append]
    by_cases hx : ∀ b ∈ log.pwFilter (fun a b => key a ≠ key b), key x ≠ key b
    · rw [List.pwFilter_cons_of_pos hx]
      by_cases ha : key x = key a
      · rw [List.pwFilter_cons_of_neg (by rw [ih]; simp [ha]), ih,
          List.filter_cons_of_neg (by simp [ha])]
      · have hall : ∀ b ∈ (log ++ [a]).pwFilter (fun a b => key a ≠ key b), key x ≠ key b := by
          rw [ih]
          intro b hb
          rcases List.mem_append.mp hb with hb | hb
          · exact hx b (List.mem_filter.mp hb).1
          · rw [List.mem_singleton] at hb
            exact hb ▸ ha
        rw [List.pwFilter_cons_of_pos hall, ih, List.filter_cons_of_pos (by simp [ha]),
          List.cons_append]
    · rw [List.pwFilter_cons_of_neg hx]
      have hsome : ¬ ∀ b ∈ (log ++ [a]).pwFilter (fun a b => key a ≠ key b), key x ≠ key b := by
        rw [ih]
        intro hall
        -- The entry that replaces `x` is kept, or `a` replaces it and `x` too.
        refine hx fun b hb heq => ?_
        by_cases hba : key b = key a
        · exact hall a (by simp) (heq.trans hba)
        · exact hall b (List.mem_append_left _ (List.mem_filter.mpr ⟨hb, by simpa using hba⟩)) heq
      rw [List.pwFilter_cons_of_neg hsome, ih]

theorem lookup_concat (k : κ) (log : List α) (a : α) :
    lookup key k (log ++ [a]) = if key a = k then some a else lookup key k log := by
  unfold lookup
  rw [List.reverse_append, List.reverse_singleton, List.singleton_append, List.find?_cons]
  by_cases h : key a = k <;> simp [h]

/-- A search in what is left of the log finds the last entry of the
key, although it starts from the front. -/
theorem find_latest (k : κ) (log : List α) :
    (latest key log).find? (fun a => key a = k) = lookup key k log := by
  induction log using List.reverseRecOn with
  | nil => rfl
  | append_singleton log a ih =>
    rw [latest_concat, lookup_concat, List.find?_append]
    by_cases h : key a = k
    · have hnone : ((latest key log).filter fun b => key b ≠ key a).find? (fun b => key b = k)
          = none := by
        rw [List.find?_eq_none]
        intro b hb hk
        have hne := (List.mem_filter.mp hb).2
        rw [decide_eq_true_eq] at hk hne
        exact hne (hk.trans h.symm)
      rw [if_pos h, hnone, Option.none_or, List.find?_cons_of_pos (by simpa using h)]
    · have hsame : ((latest key log).filter fun b => key b ≠ key a).find? (fun b => key b = k)
          = (latest key log).find? (fun b => key b = k) := by
        rw [List.find?_filter]
        congr 1
        funext b
        by_cases hb : key b = k
        · have hne : key b ≠ key a := fun heq => h (heq.symm.trans hb)
          simp [hb, hb ▸ hne]
        · simp [hb]
      rw [if_neg h, hsame, ih, List.find?_cons_of_neg (by simpa using h), List.find?_nil,
        Option.or_none]

/-- No key is lost with the entries that are replaced: a key that no entry of what is left has is
a key that no entry of the log ever had. -/
theorem forall_latest_iff (k : κ) (log : List α) :
    (∀ a ∈ latest key log, k ≠ key a) ↔ ∀ a ∈ log, k ≠ key a := by
  have hleft : (∀ a ∈ latest key log, k ≠ key a) ↔
      (latest key log).find? (fun a => key a = k) = none := by
    simp [List.find?_eq_none, ne_comm]
  have hlog : (∀ a ∈ log, k ≠ key a) ↔ lookup key k log = none := by
    simp [lookup, List.find?_eq_none, ne_comm]
  rw [hleft, hlog, find_latest]

end Lib.Versions
