import Mathlib.Algebra.Group.Nat.Defs
import Mathlib.Data.Nat.ModEq
import Mathlib.Algebra.Ring.Nat
import Mathlib.Data.List.Infix
import Alcor.Lib.Memory

/-!
# `Alcor.Lib.Circular`: rings

Queues in a circular buffer, and a ring that keeps the last elements of
a sequence.

* `contents` are the values of a queue in a buffer of `size` cells, from
  the read index on. `contents_succ` and `contents_push` take one out in
  front and put one in behind, `contents_resize` is a buffer of another
  size.
* `cell` is the value in cell `i` of a memory whose cells have `w` bytes.
* `window` are the elements of a ring in the order of their age.
  `window_set` replaces the oldest by the newest, and `suffix_push` says
  that the window then is still the end of the sequence. `sum_map_set` is
  the running sum over a ring.
-/

set_option autoImplicit false

/-!
## Circular buffers

A circular buffer has `N` cells; `contents cells N r n` are the `n`
values from cell `r` on, where the cell behind the last one is the
first. Indices are taken modulo `N` here, so that a read index may
simply count up.

`contents_push` and `contents_succ` are the two ends of the queue: a
value stored in the cell behind the last one is appended, as long as
there is a free cell, and the first value is in the cell at the read
index. With `cell_store_self` and `cell_store_other` the cells of a byte
memory, each of `w` bytes, are an instance.
-/

namespace Lib.Circular

variable {N r n : Nat}
variable {α : Type}
variable {cells cells' : Nat → α}

/-- The `n` values from cell `r` on. -/
def contents (cells : Nat → α) (N r : Nat) : Nat → List α
  | 0     => []
  | n + 1 => cells (r % N) :: contents cells N (r + 1) n

/-- The first value is in the cell at the read index. -/
theorem contents_succ (cells : Nat → α) (N r n : Nat) :
    contents cells N r (n + 1) = cells (r % N) :: contents cells N (r + 1) n := rfl

/-- The last value is in the cell before the write index. -/
theorem contents_snoc (cells : Nat → α) (N r n : Nat) :
    contents cells N r (n + 1) = contents cells N r n ++ [cells ((r + n) % N)] := by
  induction n generalizing r with
  | zero => rfl
  | succ n ih =>
    rw [contents_succ, ih (r + 1), contents_succ, List.cons_append,
      Nat.add_assoc, Nat.add_comm 1 n]

/-- Only the cells that are read matter. -/
theorem contents_congr (h : ∀ i, i < n → cells ((r + i) % N) = cells' ((r + i) % N)) :
    contents cells N r n = contents cells' N r n := by
  induction n generalizing r with
  | zero => rfl
  | succ n ih =>
    rw [contents_succ, contents_succ, show cells (r % N) = cells' (r % N) from h 0 (by omega)]
    congr 1
    refine ih fun i hi => ?_
    have := h (i + 1) (by omega)
    rwa [show r + (i + 1) = r + 1 + i by omega] at this

/-- The read index counts modulo the number of cells, so it may be
reduced. -/
theorem contents_mod (cells : Nat → α) (N r n : Nat) :
    contents cells N (r % N) n = contents cells N r n := by
  induction n generalizing r with
  | zero => rfl
  | succ n ih => rw [contents_succ, contents_succ, Nat.mod_mod, ← ih, ← ih (r + 1), Nat.mod_add_mod]

/-- A queue that does not wrap around may stand in a buffer of another size. -/
theorem contents_resize {N' : Nat} (hN : r + n ≤ N) (hN' : r + n ≤ N')
    (h : ∀ i, i < n → cells (r + i) = cells' (r + i)) :
    contents cells N r n = contents cells' N' r n := by
  induction n generalizing r with
  | zero => rfl
  | succ n ih =>
    rw [contents_succ, contents_succ, Nat.mod_eq_of_lt (by omega), Nat.mod_eq_of_lt (by omega),
      show cells r = cells' r from h 0 (by omega)]
    congr 1
    refine ih (by omega) (by omega) fun i hi => ?_
    have := h (i + 1) (by omega)
    rwa [show r + (i + 1) = r + 1 + i by omega] at this

/-- The cells of a queue that is not full are all different from the
free cell behind it, so a value may be put there. -/
theorem index_ne {i : Nat} (hi : i < n) (hn : n < N) : (r + i) % N ≠ (r + n) % N := by
  intro h
  have hmod : i ≡ n [MOD N] := Nat.ModEq.add_left_cancel' r h
  have := Nat.ModEq.eq_of_lt_of_lt hmod (by omega) hn
  omega

/-- A value put into the free cell behind the queue is appended. -/
theorem contents_push (hn : n < N) {x : α} (hx : cells' ((r + n) % N) = x)
    (hother : ∀ i, i ≠ (r + n) % N → cells' i = cells i) :
    contents cells' N r (n + 1) = contents cells N r n ++ [x] := by
  rw [contents_snoc, hx, contents_congr fun i hi => hother _ (index_ne hi hn)]

/-- The byte index of the cell behind cell `r`, where cells have `w`
bytes and the index wraps around. -/
theorem next_index (r N w : Nat) : (r % N * w + w) % (N * w) = (r + 1) % N * w := by
  rw [← Nat.succ_mul, Nat.mul_mod_mul_right, Nat.succ_eq_add_one, Nat.mod_add_mod]

/-! ### Cells of a byte memory -/

/-- Cell `i` of `w` bytes. -/
def cell (m : Mem) (w i : Nat) : List UInt8 := m.read (i * w) w

/-- A value that is stored in a cell is read from it. -/
theorem cell_store_self (m : Mem) {w k : Nat} {x : List UInt8} (hx : x.length = w) :
    cell (m.store (k * w) x) w k = x := by
  have := Mem.holds_store_self m (k * w) x
  rwa [Mem.Holds, hx] at this

theorem cell_store_other (m : Mem) {w k i : Nat} {x : List UInt8} (hx : x.length = w)
    (hi : i ≠ k) : cell (m.store (k * w) x) w i = cell m w i := by
  obtain hlt | hgt := Nat.lt_or_gt_of_ne hi
  · have hle : (i + 1) * w ≤ k * w := Nat.mul_le_mul_right w hlt
    rw [Nat.succ_mul] at hle
    exact (Mem.Agree.read_eq (Mem.agree_store_below m (k * w) x) _ _ (Nat.zero_le _) hle).symm
  · have hle : (k + 1) * w ≤ i * w := Nat.mul_le_mul_right w hgt
    rw [Nat.succ_mul] at hle
    exact (Mem.Agree.read_eq (Mem.agree_store_above m (k * w) (i * w + w) x) _ _
      (by omega) (Nat.le_refl _)).symm

end Lib.Circular

/-!
## The last elements of a sequence in a ring

A ring of `n` elements keeps the last `n` of a sequence: the next one
replaces the oldest. `window` is the ring from its oldest element on,
and the lemmas say what `List.set` does to it and to the sum of the
ring.
-/

namespace Lib.Window

variable {α : Type} {xs w g : List α} {i : Nat} {x y : α}

/-- The elements of a ring, the oldest first; it is at the index. -/
def window (xs : List α) (i : Nat) : List α := xs.drop i ++ xs.take i

@[simp] theorem window_zero (xs : List α) : window xs 0 = xs := by
  simp [window]

/-- An index behind the last element means the first one. -/
@[simp] theorem window_length (xs : List α) : window xs xs.length = xs := by
  simp [window]

theorem take_succ_set (hi : i < xs.length) (x : α) :
    (xs.set i x).take (i + 1) = xs.take i ++ [x] := by
  induction xs generalizing i with
  | nil => exact absurd hi (Nat.not_lt_zero _)
  | cons y ys ih =>
    cases i with
    | zero => simp
    | succ i =>
      rw [List.set_cons_succ, List.take_succ_cons, ih (Nat.lt_of_succ_lt_succ hi),
        List.take_succ_cons, List.cons_append]

/-- The oldest element is replaced by the newest. -/
theorem window_set (hi : i < xs.length) (x : α) :
    window (xs.set i x) (i + 1) = (window xs i).tail ++ [x] := by
  have hdrop : xs.drop i = xs[i] :: xs.drop (i + 1) := List.drop_eq_getElem_cons hi
  rw [window, window, take_succ_set hi, List.drop_set_of_lt (Nat.lt_succ_self i), hdrop,
    List.cons_append, List.tail_cons, List.append_assoc]

/-- The window moves on by one element: it loses the oldest, gets the
newest, and is again the end of the sequence. -/
theorem suffix_push (h : w <:+ g) (x : α) : w.tail ++ [x] <:+ g ++ [x] := by
  obtain ⟨t, ht⟩ := (List.tail_suffix w).trans h
  exact ⟨t, by rw [← ht, List.append_assoc]⟩

/-- One more element behind both, while the ring is not full. -/
theorem suffix_snoc (h : w <:+ g) (x : α) : w ++ [x] <:+ g ++ [x] := by
  obtain ⟨t, ht⟩ := h
  exact ⟨t, by rw [← ht, List.append_assoc]⟩

/-- The sum loses the old element and gets the new one. -/
theorem sum_map_set (f : α → Nat) (h : xs[i]? = some y) (x : α) :
    ((xs.set i x).map f).sum + f y = (xs.map f).sum + f x := by
  induction xs generalizing i with
  | nil => cases h
  | cons z zs ih =>
    cases i with
    | zero =>
      rw [List.getElem?_cons_zero, Option.some.injEq] at h
      rw [List.set_cons_zero, List.map_cons, List.map_cons, List.sum_cons, List.sum_cons, h]
      omega
    | succ i =>
      have hrest := ih (i := i) (by simpa using h)
      rw [List.set_cons_succ, List.map_cons, List.map_cons, List.sum_cons, List.sum_cons]
      omega

end Lib.Window
