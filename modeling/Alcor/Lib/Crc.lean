import Mathlib.Algebra.Polynomial.Degree.Domain
import Mathlib.Algebra.Polynomial.Degree.Lemmas
import Mathlib.Algebra.Field.ZMod
import Mathlib.Data.Nat.Bitwise
import Mathlib.Data.Nat.Size
import Mathlib.Tactic.Ring

/-!
# `Alcor.Lib.Crc`: cyclic redundancy checks

A number is a polynomial over the field with two elements, by its bits
(`poly`), and so is a list of bytes (`message`). A check of degree `k`
is right when the message with the check behind it is a multiple of the
generator.

A register computes the check bit by bit: it is shifted, and the
generator is subtracted when a bit leaves it. `shift_dvd` says that a
shift is a multiplication by `X` modulo the generator, and
`register_eq_iff` that a register that is congruent to the message is
equal to the check if and only if the check is right.
-/

set_option autoImplicit false

namespace Lib.Crc

open Polynomial

/-- The polynomial whose coefficients are the bits of a number. -/
noncomputable def poly (n : Nat) : (ZMod 2)[X] :=
  ∑ i ∈ Finset.range n.size, if n.testBit i then X ^ i else 0

/-- The coefficients of the polynomial of a number are its bits. -/
theorem coeff_poly (n i : Nat) : (poly n).coeff i = if n.testBit i then 1 else 0 := by
  have hterm : ∀ j, (if n.testBit j then (X : (ZMod 2)[X]) ^ j else 0).coeff i =
      if j = i then (if n.testBit i then 1 else 0) else 0 := by
    intro j
    split
    · next hj =>
        rw [coeff_X_pow]
        by_cases hij : i = j
        · rw [if_pos hij, if_pos hij.symm, hij, if_pos hj]
        · rw [if_neg hij, if_neg (Ne.symm hij)]
    · next hj =>
        rw [coeff_zero]
        split
        · next hij => rw [← hij, if_neg hj]
        · rfl
  rw [poly, finsetSum_coeff, Finset.sum_congr rfl fun j _ => hterm j, Finset.sum_ite_eq']
  split
  · rfl
  · -- above the highest bit there is none
    next hi =>
      have hlt : n < 2 ^ i := Nat.size_le.mp (Nat.le_of_not_lt (by simpa using hi))
      rw [Nat.testBit_lt_two_pow hlt]
      rfl

theorem poly_xor (a b : Nat) : poly (a ^^^ b) = poly a + poly b := by
  ext i
  rw [coeff_add, coeff_poly, coeff_poly, coeff_poly, Nat.testBit_xor]
  cases a.testBit i <;> cases b.testBit i <;> decide

theorem poly_shiftLeft (a k : Nat) : poly (a <<< k) = poly a * X ^ k := by
  ext i
  rw [coeff_poly, coeff_mul_X_pow', Nat.testBit_shiftLeft]
  by_cases hk : k ≤ i
  · simp [hk, coeff_poly]
  · simp [hk]

theorem poly_zero : poly 0 = 0 := by
  ext i
  simp [coeff_poly]

theorem poly_two_pow (k : Nat) : poly (2 ^ k) = X ^ k := by
  ext i
  rw [coeff_poly, coeff_X_pow, Nat.testBit_two_pow]
  simp [eq_comm]

theorem poly_inj {a b : Nat} (h : poly a = poly b) : a = b := by
  refine Nat.eq_of_testBit_eq fun i => ?_
  have hi := congrArg (fun p => p.coeff i) h
  simp only [coeff_poly] at hi
  cases ha : a.testBit i <;> cases hb : b.testBit i <;> simp [ha, hb] at hi ⊢

theorem degree_poly_lt {n k : Nat} (h : n < 2 ^ k) : (poly n).degree < k := by
  refine (degree_lt_iff_coeff_zero _ _).mpr fun i hi => ?_
  have hlt : n < 2 ^ i := Nat.lt_of_lt_of_le h (Nat.pow_le_pow_right (by decide) hi)
  rw [coeff_poly, Nat.testBit_lt_two_pow hlt]
  rfl

/-- Two numbers one behind the other: the first is shifted past the
bits of the second. -/
theorem poly_append {a b k : Nat} (hb : b < 2 ^ k) :
    poly (a * 2 ^ k + b) = poly a * X ^ k + poly b := by
  rw [← poly_shiftLeft, ← poly_xor, Nat.shiftLeft_eq]
  congr 1
  rw [Nat.mul_comm, Nat.two_pow_add_eq_or_of_lt hb]
  refine Nat.eq_of_testBit_eq fun i => ?_
  rw [Nat.testBit_or, Nat.testBit_xor]
  by_cases hi : i < k
  · simp [Nat.testBit_two_pow_mul, Nat.not_le_of_lt hi]
  · have hlt : b < 2 ^ i := Nat.lt_of_lt_of_le hb (Nat.pow_le_pow_right (by decide)
      (Nat.le_of_not_lt hi))
    rw [Nat.testBit_lt_two_pow hlt]
    simp

/-- The polynomial of a message, the first byte at the top. -/
noncomputable def message (bytes : List UInt8) : (ZMod 2)[X] :=
  bytes.foldl (fun p b => p * X ^ 8 + poly b.toNat) 0

theorem message_concat (bytes : List UInt8) (b : UInt8) :
    message (bytes ++ [b]) = message bytes * X ^ 8 + poly b.toNat := by
  rw [message, List.foldl_append]
  rfl

/-! ### Registers -/

section Register
variable {k g r : Nat}

/-- A register of `k` bits is shifted, and the lower bits of the generator are subtracted when its
highest bit was set. -/
def shift (k g r : Nat) : Nat :=
  if r.testBit (k - 1) then (2 * (r % 2 ^ (k - 1))) ^^^ g else 2 * (r % 2 ^ (k - 1))

/-- The generator of a register with these lower bits. -/
noncomputable def generator (k g : Nat) : (ZMod 2)[X] := X ^ k + poly g

theorem two_eq_zero (p : (ZMod 2)[X]) : p + p = 0 := by
  ext i
  rw [coeff_add, coeff_zero]
  exact CharTwo.add_self_eq_zero _

/-- A shift is a multiplication by `X`, modulo the generator. -/
theorem shift_dvd (hk : 0 < k) (hr : r < 2 ^ k) :
    generator k g ∣ poly (shift k g r) + poly r * X := by
  obtain ⟨k, rfl⟩ : ∃ j, k = j + 1 := ⟨k - 1, by omega⟩
  have hdouble : ∀ n, poly (2 * n) = poly n * X := by
    intro n
    have h := poly_shiftLeft n 1
    rwa [Nat.shiftLeft_eq, Nat.pow_one, Nat.mul_comm, pow_one] at h
  -- the highest bit and the rest
  have hsplit : poly r = (if r.testBit k then X ^ k else 0) + poly (r % 2 ^ k) := by
    ext i
    have hhigh : (if r.testBit k then (X : (ZMod 2)[X]) ^ k else 0).coeff i =
        if r.testBit k ∧ i = k then 1 else 0 := by
      split <;> rename_i hb <;> simp [hb, coeff_X_pow]
    rw [coeff_add, hhigh, coeff_poly, coeff_poly, Nat.testBit_mod_two_pow]
    rcases Nat.lt_trichotomy i k with hlt | rfl | hgt
    · have hne : i ≠ k := Nat.ne_of_lt hlt
      simp [hlt, hne]
    · simp
    · -- there are no higher bits
      have hlt : r < 2 ^ i := Nat.lt_of_lt_of_le hr (Nat.pow_le_pow_right (by decide) hgt)
      have hne : i ≠ k := Nat.ne_of_gt hgt
      rw [Nat.testBit_lt_two_pow hlt]
      simp [hne]
  rw [shift, Nat.add_sub_cancel, hsplit]
  split
  · rw [poly_xor, hdouble, generator]
    refine ⟨1, ?_⟩
    have hcancel := two_eq_zero (poly (r % 2 ^ k) * X)
    calc poly (r % 2 ^ k) * X + poly g + (X ^ k + poly (r % 2 ^ k)) * X
        = X ^ (k + 1) + poly g + (poly (r % 2 ^ k) * X + poly (r % 2 ^ k) * X) := by ring
      _ = (X ^ (k + 1) + poly g) * 1 := by rw [hcancel, add_zero, mul_one]
  · rw [hdouble, zero_add, two_eq_zero]
    exact dvd_zero _

/-- A register that is congruent to the message is the check if and only if the message with the
check behind it is a multiple of the generator. -/
theorem register_eq_iff {m : (ZMod 2)[X]} {c : Nat} (hg : g < 2 ^ k) (hr : r < 2 ^ k)
    (hc : c < 2 ^ k) (hm : generator k g ∣ poly r + m) :
    r = c ↔ generator k g ∣ m + poly c := by
  have hsum : ∀ p q s : (ZMod 2)[X], (p + q) + (q + s) = p + s := by
    intro p q s
    calc (p + q) + (q + s) = p + s + (q + q) := by ring
      _ = p + s := by rw [two_eq_zero, add_zero]
  constructor
  · rintro rfl
    rwa [add_comm]
  · intro h
    have hdvd := dvd_add hm h
    rw [hsum] at hdvd
    -- the difference has a smaller degree than the generator
    have hdegree : (poly r + poly c).degree < (generator k g).degree := by
      have hgen : (generator k g).degree = k := by
        rw [generator, degree_add_eq_left_of_degree_lt]
        · exact degree_X_pow k
        · rw [degree_X_pow]
          exact degree_poly_lt hg
      rw [hgen]
      exact lt_of_le_of_lt (degree_add_le _ _) (max_lt (degree_poly_lt hr) (degree_poly_lt hc))
    have hzero := eq_zero_of_dvd_of_degree_lt hdvd hdegree
    refine poly_inj ?_
    calc poly r = poly r + (poly c + poly c) := by rw [two_eq_zero, add_zero]
      _ = (poly r + poly c) + poly c := by ring
      _ = poly c := by rw [hzero, zero_add]

end Register

end Lib.Crc
