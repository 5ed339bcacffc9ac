import Mathlib.Data.List.Basic

/-!
# `Alcor.Lib.Words`: the words of a list

`words sep l` are the maximal runs of elements of `l` that are no
separators. `joined c ws` writes words one after the other, each with
the separator `c` behind it.

`words_induction` takes a list apart from the front, a separator or a
word at a time; the other facts follow from it.
-/

set_option autoImplicit false

namespace Lib

variable {α β : Type}

/-- The maximal runs of elements that are no separators. -/
def words (sep : α → Bool) (l : List α) : List (List α) :=
  (l.splitOnP sep).filter fun w => !w.isEmpty

/-- The words, each with the separator behind it. -/
def joined (c : α) (ws : List (List α)) : List α := (ws.map (· ++ [c])).flatten

variable {sep : α → Bool} {c : α} {w l : List α}

/-- Elements that are no separators. -/
def IsWord (sep : α → Bool) (w : List α) : Prop := w ≠ [] ∧ ∀ x ∈ w, sep x = false

@[simp] theorem words_nil : words sep [] = [] := rfl

/-- A separator in front. -/
theorem words_cons_sep (hc : sep c = true) : words sep (c :: l) = words sep l := by
  rw [words, words, List.splitOnP_cons_eq_if_modifyHead, if_pos hc,
    List.filter_cons_of_neg (by simp)]

/-- A word in front. -/
theorem words_append_sep (hw : IsWord sep w) (hc : sep c = true) :
    words sep (w ++ c :: l) = w :: words sep l := by
  rw [words, words, List.splitOnP_append_cons_of_forall_mem hw.2 c hc, List.filter_cons_of_pos]
  simpa using hw.1

/-- A word alone. -/
theorem words_singleton (hw : IsWord sep w) : words sep w = [w] := by
  rw [words, List.splitOnP_eq_singleton hw.2, List.filter_cons_of_pos (by simpa using hw.1),
    List.filter_nil]

/-- Induction over a list from the front: it is empty, or a separator
and the rest, or a word with what is behind it. -/
@[elab_as_elim]
theorem words_induction (sep : α → Bool) {motive : List α → Prop} (nil : motive [])
    (sepr : ∀ c l, sep c = true → motive l → motive (c :: l))
    (last : ∀ w, IsWord sep w → motive w)
    (word : ∀ w c l, IsWord sep w → sep c = true → motive l → motive (w ++ c :: l))
    (l : List α) : motive l := by
  induction hn : l.length using Nat.strongRecOn generalizing l with
  | ind n ih =>
    subst hn
    cases l with
    | nil => exact nil
    | cons a l' =>
      cases ha : sep a with
      | true => exact sepr a l' ha (ih l'.length (Nat.lt_succ_self _) l' rfl)
      | false =>
        -- the word is what stands before the first separator
        have hsplit : (a :: l').takeWhile (! sep ·) ++ (a :: l').dropWhile (! sep ·) =
            a :: l' := List.takeWhile_append_dropWhile
        have hw : IsWord sep ((a :: l').takeWhile (! sep ·)) := by
          refine ⟨by simp [ha], fun x hx => ?_⟩
          have hall := List.all_takeWhile (p := (! sep ·)) (l := a :: l')
          simpa using List.all_eq_true.mp hall x hx
        cases hrest : (a :: l').dropWhile (! sep ·) with
        | nil =>
          rw [hrest, List.append_nil] at hsplit
          exact hsplit ▸ last _ hw
        | cons c l'' =>
          have hc : sep c = true := by
            have hhead := List.head?_dropWhile_not (! sep ·) (a :: l')
            rw [hrest] at hhead
            simpa using hhead
          have hlen : l''.length < (a :: l').length := by
            rw [hrest] at hsplit
            have hlen := congrArg List.length hsplit
            rw [List.length_append, List.length_cons] at hlen
            omega
          rw [← hsplit, hrest]
          exact word _ c l'' hw hc (ih l''.length hlen l'' rfl)

/-- Separators in front do not count. -/
theorem words_dropWhile (l : List α) : words sep (l.dropWhile sep) = words sep l := by
  induction l with
  | nil => rfl
  | cons c l ih =>
    rw [List.dropWhile_cons]
    split
    · next hc => rw [ih, words_cons_sep hc]
    · rfl

theorem IsWord.dropWhile_append (hw : IsWord sep w) (l : List α) :
    (w ++ l).dropWhile sep = w ++ l := by
  obtain ⟨hne, hall⟩ := hw
  cases w with
  | nil => exact absurd rfl hne
  | cons a w =>
    rw [List.cons_append, List.dropWhile_cons_of_neg]
    rw [hall a List.mem_cons_self]
    exact Bool.false_ne_true

/-- Behind its separators a list begins with a word, unless nothing is left of it. -/
theorem exists_word (sep : α → Bool) (l : List α) :
    l.dropWhile sep = [] ∨ IsWord sep (l.dropWhile sep) ∨
      ∃ w c rest, IsWord sep w ∧ sep c = true ∧ l.dropWhile sep = w ++ c :: rest := by
  induction l using words_induction sep with
  | nil => exact .inl rfl
  | sepr c l hc ih => rwa [List.dropWhile_cons_of_pos hc]
  | last w hw =>
    have hdrop := hw.dropWhile_append []
    rw [List.append_nil] at hdrop
    rw [hdrop]
    exact .inr (.inl hw)
  | word w c l hw hc _ => exact .inr (.inr ⟨w, c, l, hw, hc, hw.dropWhile_append _⟩)

/-- A separator behind everything does not count. -/
theorem words_concat_sep (hc : sep c = true) (l : List α) : words sep (l ++ [c]) = words sep l := by
  induction l using words_induction sep with
  | nil => rw [List.nil_append, words_cons_sep hc]
  | sepr d l hd ih => rw [List.cons_append, words_cons_sep hd, words_cons_sep hd, ih]
  | last w hw => rw [words_append_sep hw hc, words_nil, words_singleton hw]
  | word w d l hw hd ih =>
    rw [List.append_assoc, List.cons_append, words_append_sep hw hd, words_append_sep hw hd, ih]

/-- The words of a list that is mapped. -/
theorem words_map {f : α → β} {sep' : β → Bool} (h : ∀ x, sep' (f x) = sep x) (l : List α) :
    words sep' (l.map f) = (words sep l).map (List.map f) := by
  have hmap : ∀ w, IsWord sep w → IsWord sep' (w.map f) := by
    intro w hw
    refine ⟨by simpa using hw.1, fun x hx => ?_⟩
    obtain ⟨y, hy, rfl⟩ := List.mem_map.mp hx
    rw [h, hw.2 y hy]
  induction l using words_induction sep with
  | nil => rfl
  | sepr c l hc ih => rw [List.map_cons, words_cons_sep (by rw [h, hc]), words_cons_sep hc, ih]
  | last w hw => rw [words_singleton hw, words_singleton (hmap w hw), List.map_singleton]
  | word w c l hw hc ih =>
    rw [List.map_append, List.map_cons, words_append_sep hw hc,
      words_append_sep (hmap w hw) (by rw [h, hc]), ih, List.map_cons]

/-- What a word is. -/
theorem isWord_of_mem (h : w ∈ words sep l) : IsWord sep w := by
  induction l using words_induction sep with
  | nil => cases h
  | sepr c l hc ih => exact ih (by rwa [words_cons_sep hc] at h)
  | last v hv =>
    rw [words_singleton hv, List.mem_singleton] at h
    exact h ▸ hv
  | word v c l hv hc ih =>
    rw [words_append_sep hv hc, List.mem_cons] at h
    obtain rfl | h := h
    · exact hv
    · exact ih h

/-- A word is a part of the list. -/
theorem mem_of_mem_words {x : α} (h : w ∈ words sep l) (hx : x ∈ w) : x ∈ l := by
  induction l using words_induction sep with
  | nil => cases h
  | sepr c l hc ih => exact List.mem_cons_of_mem c (ih (by rwa [words_cons_sep hc] at h))
  | last v hv =>
    rw [words_singleton hv, List.mem_singleton] at h
    exact h ▸ hx
  | word v c l hv hc ih =>
    rw [words_append_sep hv hc, List.mem_cons] at h
    obtain rfl | h := h
    · exact List.mem_append_left _ hx
    · exact List.mem_append_right _ (List.mem_cons_of_mem c (ih h))

@[simp] theorem joined_nil : joined c [] = [] := rfl

theorem joined_cons (ws : List (List α)) : joined c (w :: ws) = w ++ c :: joined c ws := by
  rw [joined, List.map_cons, List.flatten_cons, List.append_assoc, List.singleton_append]
  rfl

theorem joined_eq_nil_iff {ws : List (List α)} : joined c ws = [] ↔ ws = [] := by
  cases ws with
  | nil => simp
  | cons w ws => simp [joined_cons]

/-- The last word has a separator behind it. -/
theorem getLast?_joined {ws : List (List α)} (h : ws ≠ []) :
    (joined c ws).getLast? = some c := by
  rcases List.eq_nil_or_concat' ws with rfl | ⟨us, w, rfl⟩
  · exact absurd rfl h
  · rw [joined, List.map_append, List.flatten_append]
    simp [List.getLast?_append]

/-- There are no more words than elements. -/
theorem length_le_length_joined (ws : List (List α)) : ws.length ≤ (joined c ws).length := by
  induction ws with
  | nil => exact Nat.le_refl 0
  | cons w ws ih =>
    rw [joined_cons, List.length_append, List.length_cons, List.length_cons]
    omega

end Lib
