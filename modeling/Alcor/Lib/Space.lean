import Mathlib.Data.List.Basic
import Mathlib.Data.List.GetD
import Mathlib.Algebra.Group.Nat.Defs

/-!
# `Alcor.Lib.Space`: address spaces that wrap around

A byte for every address of `w` bits. An address is advanced modulo
`2 ^ w`, so a run of bytes may go over the last address and on from the
first one. `store_append` joins two stores, and the lemmas after it say
what a store does that puts back bytes it has read.
-/

set_option autoImplicit false

namespace Lib

/-- A byte for every address of `w` bits. -/
abbrev Space (w : Nat) : Type := BitVec w → UInt8

namespace Space

variable {w : Nat}

/-- The space after the bytes `bs` are stored from address `a` on. -/
def store (m : Space w) (a : BitVec w) (bs : List UInt8) : Space w :=
  fun x => bs.getD (x - a).toNat (m x)

/-- The `n` bytes from address `a` on. -/
def read (m : Space w) (a : BitVec w) (n : Nat) : List UInt8 :=
  (List.range n).map fun i => m (a + BitVec.ofNat w i)

@[simp] theorem length_read (m : Space w) (a : BitVec w) (n : Nat) : (m.read a n).length = n := by
  simp [read]

@[simp] theorem store_nil (m : Space w) (a : BitVec w) : m.store a [] = m := rfl

theorem getElem?_read (m : Space w) (a : BitVec w) {n i : Nat} (h : i < n) :
    (m.read a n)[i]? = some (m (a + BitVec.ofNat w i)) := by
  simp [read, h]

/-- The first bytes of what is read. -/
theorem take_read (m : Space w) (a : BitVec w) {n k : Nat} (h : k ≤ n) :
    (m.read a n).take k = m.read a k := by
  rw [read, ← List.map_take, List.take_range, Nat.min_eq_left h, read]

/-- The bytes behind the first ones. -/
theorem drop_read (m : Space w) (a : BitVec w) (n k : Nat) :
    (m.read a n).drop k = m.read (a + BitVec.ofNat w k) (n - k) := by
  refine List.ext_getElem? fun i => ?_
  by_cases hi : i < n - k
  · rw [List.getElem?_drop, getElem?_read m a (by omega), getElem?_read m _ hi, BitVec.add_assoc,
      BitVec.ofNat_add]
  · rw [List.getElem?_drop, List.getElem?_eq_none (by rw [length_read]; omega),
      List.getElem?_eq_none (by rw [length_read]; omega)]

/-- How far an address is from one that is `n` further. -/
theorem toNat_sub_add (x a : BitVec w) (n : Nat) (hn : n < 2 ^ w) :
    (x - (a + BitVec.ofNat w n)).toNat =
      if n ≤ (x - a).toNat then (x - a).toNat - n else (x - a).toNat + (2 ^ w - n) := by
  have hsub : x - (a + BitVec.ofNat w n) = (x - a) - BitVec.ofNat w n := by
    rw [BitVec.sub_eq_add_neg, BitVec.neg_add, BitVec.sub_eq_add_neg (-a), ← BitVec.add_assoc,
      ← BitVec.sub_eq_add_neg, ← BitVec.sub_eq_add_neg]
  have hlt := (x - a).isLt
  rw [hsub, BitVec.toNat_sub, BitVec.toNat_ofNat, Nat.mod_eq_of_lt hn]
  split
  · rw [show 2 ^ w - n + (x - a).toNat = 2 ^ w + ((x - a).toNat - n) by omega, Nat.add_mod_left,
      Nat.mod_eq_of_lt (by omega)]
  · rw [Nat.mod_eq_of_lt (by omega), Nat.add_comm]

/-- Two stores one after the other are one, if the second does not
come round to the bytes of the first. -/
theorem store_append (m : Space w) (a : BitVec w) (xs ys : List UInt8)
    (h : xs.length + ys.length ≤ 2 ^ w) :
    (m.store a xs).store (a + BitVec.ofNat w xs.length) ys = m.store a (xs ++ ys) := by
  rcases ys.eq_nil_or_concat' with rfl | ⟨ys, y, rfl⟩
  · rw [store_nil, List.append_nil]
  have hn : xs.length < 2 ^ w := by
    rw [List.length_append, List.length_singleton] at h
    omega
  funext x
  unfold store
  rw [toNat_sub_add x a xs.length hn]
  split
  · next hle =>
      rw [List.getD_eq_default (l := xs) _ hle, List.getD_append_right _ _ _ _ hle]
  · next hlt =>
      rw [List.getD_eq_default _ _ (by omega), List.getD_append _ _ _ _ (by omega)]

/-- Storing what already stands there changes nothing. -/
theorem store_read (m : Space w) (a : BitVec w) (n : Nat) : m.store a (m.read a n) = m := by
  funext x
  unfold store
  by_cases h : (x - a).toNat < n
  · have hback : a + BitVec.ofNat w (x - a).toNat = x := by
      rw [BitVec.ofNat_toNat, BitVec.setWidth_eq, BitVec.add_comm, BitVec.sub_add_cancel]
    rw [List.getD_eq_getElem?_getD, getElem?_read m a h, Option.getD_some, hback]
  · rw [List.getD_eq_default _ _ (by rw [length_read]; omega)]

/-- A store that starts with what already stands there is the store of
the rest. -/
theorem store_read_append (m : Space w) (a : BitVec w) (n : Nat) (ys : List UInt8)
    (h : n + ys.length ≤ 2 ^ w) :
    m.store a (m.read a n ++ ys) = m.store (a + BitVec.ofNat w n) ys := by
  have hjoin := store_append m a (m.read a n) ys (by rw [length_read]; exact h)
  rw [← hjoin, store_read, length_read]

/-- A read behind a store does not see it, if it does not come round
to it. -/
theorem read_store (m : Space w) (a : BitVec w) (xs : List UInt8) (n : Nat)
    (h : xs.length + n ≤ 2 ^ w) :
    (m.store a xs).read (a + BitVec.ofNat w xs.length) n =
      m.read (a + BitVec.ofNat w xs.length) n := by
  refine List.map_congr_left fun i hi => ?_
  have hi := List.mem_range.mp hi
  have hdist : (a + BitVec.ofNat w xs.length + BitVec.ofNat w i - a).toNat = xs.length + i := by
    rw [BitVec.add_assoc, ← BitVec.ofNat_add, BitVec.add_comm, BitVec.add_sub_cancel,
      BitVec.toNat_ofNat, Nat.mod_eq_of_lt (by omega)]
  unfold store
  rw [hdist, List.getD_eq_default _ _ (Nat.le_add_right _ _)]

/-- A store that ends with what already stands there is the store of
the beginning. -/
theorem store_append_read (m : Space w) (a : BitVec w) (xs : List UInt8) (n : Nat)
    (h : xs.length + n ≤ 2 ^ w) :
    m.store a (xs ++ m.read (a + BitVec.ofNat w xs.length) n) = m.store a xs := by
  have hjoin := store_append m a xs (m.read (a + BitVec.ofNat w xs.length) n)
    (by rw [length_read]; exact h)
  rw [← hjoin, ← read_store m a xs n h, store_read]

end Space

end Lib
