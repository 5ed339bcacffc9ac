import Alcor.Proofs.Lua.Bitarray

/-!
# `Alcor.Proofs.Lua.BitarrayNew`: the construction of bit arrays

Which arguments of `bitarray.new` make an array whose accesses stay
inside its block.

* `reach_all_iff`: an array leaves its block when the bits of its
  elements are too many for 32 bits.
* `reach_last_iff`: the iterator also accepts index 0, which is the
  element behind the last of 32 bits.
* `sized_safe_iff`: a string or a table is stored behind the block when
  its length is too large for 29 bits.
* `safe_iff` is about all arguments, and `not_always_safe` about one.
-/

set_option autoImplicit false

namespace Alcor.Proofs.Lua.BitarrayNew

open Lib (Mem Buf bytesIn valIn)
open Alcor.Lua.Bitarray
open Alcor.Proofs.Lua.Bitarray

variable {temp : Nat}
variable {m : Machine} {pa : Buf} {newuserdata : Nat → Option Mem} {c e size : Nat}

/-! ### Reach -/

/-- An access to element `n`, counted from 0, stays in the block. -/
def Reach (m : Machine) (e size n : Nat) : Prop := address m (offset e n) + width e ≤ size

theorem load_eq_none {p w : Nat} : load m pa p w = none ↔ ¬ address m p + w ≤ pa.size := by
  simp [load]

theorem bitarrayGetval_eq_none (he : elsize pa ∈ [1, 2, 4, 8, 16, 32]) (idx : Nat) :
    bitarrayGetval m pa idx = none ↔
      ¬ Reach m (elsize pa) pa.size (if idx = 0 then 2 ^ 32 - 1 else idx - 1) := by
  rw [bitarrayGetval_eq he, Option.map_eq_none_iff, load_eq_none, Reach]

theorem bitarraySetval_eq_none (he : elsize pa ∈ [1, 2, 4, 8, 16, 32]) (n : Nat)
    (newval : BitVec 32) :
    bitarraySetval m pa n newval = none ↔ ¬ Reach m (elsize pa) pa.size n := by
  rw [bitarraySetval_eq he, Reach]
  by_cases hle : address m (offset (elsize pa) n) + width (elsize pa) ≤ pa.size
  · rw [load_of_le hle, Option.bind_some, store_of_le hle]
    simp [hle]
  · rw [load_eq_none.mpr hle]
    simp [hle]

theorem ofAccess_eq_undefined {α : Type} (o : Option α) :
    ofAccess o = .undefined ↔ o = none := by
  cases o <;> simp [ofAccess]

/-- `get`, `set` and the iterator stay in the block. -/
def Stays (m : Machine) (pa : Buf) : Prop :=
  ∀ key : Int, bitarrayGet m pa key ≠ .undefined ∧
    (∀ value, bitarraySet m pa key value ≠ .undefined) ∧ bitarrayIter m pa key ≠ .undefined

theorem u32_lt (v : Int) : u32 v < 2 ^ 32 := by
  unfold u32
  omega

/-- The accepted indexes: those of the elements, and 0 for the iterator, after key -1. -/
theorem stays_iff (he : elsize pa ∈ [1, 2, 4, 8, 16, 32]) (hc : capacity m pa < 2 ^ 32) :
    Stays m pa ↔ (∀ n < capacity m pa, Reach m (elsize pa) pa.size n) ∧
      Reach m (elsize pa) pa.size (2 ^ 32 - 1) := by
  constructor
  · intro h
    constructor
    · intro n hn
      have hget := (h (n + 1 : Nat)).1
      simp only [bitarrayGet, u32_natCast (show n + 1 < 2 ^ 32 by omega)] at hget
      rw [if_neg (by omega), Ne, ofAccess_eq_undefined, Option.map_eq_none_iff,
        bitarrayGetval_eq_none he, not_not, if_neg (by omega), Nat.add_sub_cancel] at hget
      exact hget
    · -- key -1 is index 0, which is not behind the capacity
      have hiter := (h (-1)).2.2
      have hkey : (u32 (-1) + 1) % 2 ^ 32 = 0 := rfl
      simp only [bitarrayIter, hkey] at hiter
      rw [if_pos (Nat.zero_le _), Ne, ofAccess_eq_undefined, Option.map_eq_none_iff,
        bitarrayGetval_eq_none he, not_not, if_pos rfl] at hiter
      exact hiter
  · -- whatever the checks accept is one of these elements
    rintro ⟨hall, hlast⟩ key
    refine ⟨?_, fun value => ?_, ?_⟩
    · unfold bitarrayGet
      simp only
      split
      · simp
      next hrange =>
        rw [Ne, ofAccess_eq_undefined, Option.map_eq_none_iff, bitarrayGetval_eq_none he, not_not,
          if_neg (by omega)]
        exact hall _ (by omega)
    · unfold bitarraySet
      simp only
      split
      · simp
      next hrange =>
        rw [Ne, ofAccess_eq_undefined, bitarraySetval_eq_none he, not_not]
        exact hall _ (by omega)
    · unfold bitarrayIter
      simp only
      split
      next hrange =>
        rw [Ne, ofAccess_eq_undefined, Option.map_eq_none_iff, bitarrayGetval_eq_none he, not_not]
        split
        · exact hlast
        · exact hall _ (by omega)
      · simp

/-! ### The elements of a block -/

theorem pow_bits (m : Machine) : 2 ^ m.bits = if m.wide then 2 ^ 64 else 2 ^ 32 := by
  unfold Machine.bits
  split <;> rfl

/-- All elements are in the block when their bits are counted without a carry. -/
theorem reach_all_iff (he : e ∈ [1, 2, 4, 8, 16, 32]) (hc : c < 2 ^ 32)
    (hsize : size = 8 + roundSize (c * e % 2 ^ 32) - 1) :
    (∀ n < c, Reach m e size n) ↔ c * e < 2 ^ 32 := by
  constructor
  · intro h
    by_contra hcarry
    -- an element behind the block that has been allocated
    have hreach := h (c * e % 2 ^ 32 / e + 24)
    rw [hsize, roundSize_eq, Reach, address, pow_bits] at hreach
    unfold offset width at hreach
    rcases elsize_cases he with rfl | rfl | rfl | rfl | rfl | rfl <;> split at hreach <;> omega
  · intro hlt n hn
    have hle := offset_add_width_le he hn
    have hround := roundSize_le hlt
    rw [Nat.mod_eq_of_lt hlt] at hsize
    rw [Reach, address_eq (by omega)]
    omega

/-- What the iterator reads for index 0 is in the block when that is as large as it can be, or when
the address wraps around to the header. -/
theorem reach_last_iff (he : e ∈ [1, 2, 4, 8, 16, 32]) (hlt : c * e < 2 ^ 32)
    (hsize : size = 8 + roundSize (c * e % 2 ^ 32) - 1) :
    Reach m e size (2 ^ 32 - 1) ↔
      (e = 1 ∧ 2 ^ 29 - 2 ≤ roundSize c) ∨ (m.wide = false ∧ 8 ≤ e) := by
  have hround := roundSize_le hlt
  rw [Nat.mod_eq_of_lt hlt] at hsize
  rw [hsize, Reach, address, pow_bits]
  unfold offset width
  cases m.wide <;> rcases elsize_cases he with rfl | rfl | rfl | rfl | rfl | rfl <;> simp <;> omega

theorem stays_iff_inside (he : elsize pa ∈ [1, 2, 4, 8, 16, 32]) (hc : capacity m pa < 2 ^ 32)
    (hsize : pa.size = 8 + roundSize (capacity m pa * elsize pa % 2 ^ 32) - 1) :
    Stays m pa ↔ Inside m (capacity m pa) (elsize pa) := by
  rw [stays_iff he hc, reach_all_iff he hc hsize, Inside]
  constructor
  · exact fun h => ⟨h.1, (reach_last_iff he h.1 hsize).mp h.2⟩
  · exact fun h => ⟨h.1, (reach_last_iff he h.1 hsize).mpr h.2⟩

/-! ### The block -/

theorem header_spec (hc : c < 2 ^ 32) (he : e < 2 ^ 8) (mem : Mem) (total : Nat) :
    capacity m (header m mem c e total) = c ∧ elsize (header m mem c e total) = e := by
  have hread := read_store_of_disjoint (mem.store 0 (bytesIn m.little 4 c)) [UInt8.ofNat e] 4 0 4
    (.inl (by omega))
  have hholds := Mem.holds_store_self mem 0 (bytesIn m.little 4 c)
  rw [Mem.Holds, Lib.length_bytesIn] at hholds
  constructor
  · calc capacity m (header m mem c e total)
        = valIn m.little (bytesIn m.little 4 c) := by
          rw [capacity, header, hread, hholds]
      _ = c % 256 ^ 4 := Lib.valIn_bytesIn m.little 4 c
      _ = c := Nat.mod_eq_of_lt hc
  · have hbyte : (header m mem c e total).mem 4 = UInt8.ofNat e := by
      simp [header, Mem.store]
    rw [elsize, hbyte, UInt8.toNat_ofNat', Nat.mod_eq_of_lt he]

theorem valid_iff : (e = 0 ∨ e > 32 ∨ e &&& (e - 1) ≠ 0) ↔ e ∉ [1, 2, 4, 8, 16, 32] := by
  by_cases he : e < 33
  · have hall : ∀ e < 33,
        (e = 0 ∨ e > 32 ∨ e &&& (e - 1) ≠ 0) ↔ e ∉ [1, 2, 4, 8, 16, 32] := by decide
    exact hall e he
  · refine iff_of_true (.inr (.inl (by omega))) fun hmem => ?_
    have hle := elsize_le hmem
    omega

theorem roundSize_eq_zero {s : Nat} : roundSize s = 0 ↔ s = 0 := by
  rw [roundSize_eq]
  omega

/-- The result is an error, or an array that is not left. -/
def SafeResult (m : Machine) : Outcome Buf → Prop
  | .undefined => False
  | .error _   => True
  | .ok pa     => Stays m pa

/-- Either the values fit, and are stored behind the header, or there is no array. -/
def Fills (m : Machine) (fits : Prop) (pa : Buf) (filled : Option Buf) : Prop :=
  (fits ∧ ∃ pa', filled = some pa' ∧ SameHeader m pa pa') ∨ (¬ fits ∧ filled = none)

/-- An array that is filled in some way is safe exactly when it is
refused, or the elements are inside and what it is filled with fits. -/
theorem create_safe_iff (fits : Prop) {fill : Nat → Buf → Option Buf} (hc : c < 2 ^ 32)
    (hfill : e ∈ [1, 2, 4, 8, 16, 32] → ∀ pa : Buf,
      pa.size = 8 + roundSize (c * e % 2 ^ 32) - 1 → 0 < roundSize (c * e % 2 ^ 32) →
      Fills m fits pa (fill (roundSize (c * e % 2 ^ 32)) pa)) :
    SafeResult m (create m newuserdata c e fill) ↔
      Refused newuserdata c e ∨ (fits ∧ Inside m c e) := by
  unfold create Refused
  by_cases he : e ∈ [1, 2, 4, 8, 16, 32]
  · rw [if_neg (mt valid_iff.mp (not_not.mpr he))]
    simp only
    by_cases hzero : c * e % 2 ^ 32 = 0
    · rw [if_pos (roundSize_eq_zero.mpr hzero)]
      exact iff_of_true trivial (.inl (.inr (.inl hzero)))
    · rw [if_neg (mt roundSize_eq_zero.mp hzero)]
      cases hmem : newuserdata (8 + roundSize (c * e % 2 ^ 32) - 1) with
      | none => exact iff_of_true trivial (.inl (.inr (.inr rfl)))
      | some mem =>
        have hpos : 0 < roundSize (c * e % 2 ^ 32) :=
          Nat.pos_of_ne_zero (mt roundSize_eq_zero.mp hzero)
        have hle := elsize_le he
        obtain ⟨hcapacity, helsize⟩ := header_spec (m := m) hc (show e < 2 ^ 8 by omega) mem
          (roundSize (c * e % 2 ^ 32))
        simp only [he, hzero, not_true_eq_false, reduceCtorEq, or_self, false_or]
        -- the array has the header of the block, and the values do not matter
        rcases hfill he (header m mem c e _) rfl hpos with
          ⟨hfits, pa', hpa', hsize, hcapacity', helsize'⟩ | ⟨hfits, hnone⟩
        · rw [hcapacity] at hcapacity'
          rw [helsize] at helsize'
          have hstays : Stays m pa' ↔ Inside m (capacity m pa') (elsize pa') :=
            stays_iff_inside (helsize'.symm ▸ he) (hcapacity'.symm ▸ hc)
              (by rw [hsize, hcapacity', helsize']; rfl)
          rw [hcapacity', helsize'] at hstays
          simp only [hpa', ofAccess, Option.elim_some, SafeResult, hfits, true_and]
          exact hstays
        · simp only [hnone, ofAccess, Option.elim_none, SafeResult, hfits, false_and]
  · rw [if_pos (valid_iff.mpr he)]
    exact iff_of_true trivial (.inl (.inl he))

/-- For a length the block has the bytes of its low 29 bits. -/
theorem sized_bits (he : e ∈ [1, 2, 4, 8, 16, 32]) (hmod : temp * 8 % 2 ^ m.bits % e = 0) :
    temp * 8 % 2 ^ 32 / e * e = temp * 8 % 2 ^ 32 := by
  rw [pow_bits] at hmod
  rcases elsize_cases he with rfl | rfl | rfl | rfl | rfl | rfl <;> split at hmod <;> omega

/-- The same for an array whose capacity comes from a length. -/
theorem sized_safe_iff {fill : Nat → Buf → Option Buf}
    (hfill : ∀ pa : Buf, pa.size = 7 + temp % 2 ^ 29 → 0 < temp % 2 ^ 29 →
      Fills m (temp < 2 ^ 29) pa (fill (temp % 2 ^ 29) pa)) :
    SafeResult m (sized m newuserdata temp e fill) ↔ SizedRight m newuserdata temp e := by
  unfold sized SizedRight
  rw [show temp * 2 ^ 3 = temp * 8 from rfl]
  simp only
  by_cases hzero : e = 0
  · simp [hzero, SafeResult]
  · rw [if_neg hzero]
    by_cases hmod : temp * 8 % 2 ^ m.bits % e = 0
    · -- the capacity only depends on the low 32 bits, on both kinds of machine
      have hwide : temp * 8 % 2 ^ m.bits % 2 ^ 32 = temp * 8 % 2 ^ 32 := by
        rw [pow_bits]
        split <;> omega
      simp only [hmod, ne_eq, not_true_eq_false, if_false, hzero, not_false_eq_true, true_and,
        false_or, hwide]
      refine create_safe_iff _ ?_ fun he pa hsize hpos => ?_
      · exact Nat.lt_of_le_of_lt (Nat.div_le_self _ _) (Nat.mod_lt _ (by decide))
      · have htotal : roundSize (temp * 8 % 2 ^ 32 / e * e % 2 ^ 32) = temp % 2 ^ 29 := by
          rw [sized_bits he hmod, roundSize_eq]
          omega
        rw [htotal] at hsize hpos ⊢
        exact hfill pa (by omega) hpos
    · simp [hmod, hzero, SafeResult]

/-! ### Values -/

theorem fills_copy (m : Machine) {bytes : List UInt8} :
    Fills m (5 + bytes.length ≤ pa.size) pa (copy m bytes pa) := by
  have haddr : address m 0 = 5 := address_eq (by decide)
  by_cases hle : 5 + bytes.length ≤ pa.size
  · have hput : copy m bytes pa = some { pa with mem := pa.mem.store (address m 0) bytes } :=
      Buf.put?_of_le (by rw [haddr]; exact hle)
    exact .inl ⟨hle, _, hput, sameHeader_put hput (by omega)⟩
  · exact .inr ⟨hle, Buf.put?_eq_none.mpr (by rw [haddr]; omega)⟩

/-- The loop over a table stores one byte for each element, behind those before. -/
theorem fills_tableLoop (m : Machine) (rawgeti : Nat → Int) (n : Nat) : ∀ (p : Nat) (pa : Buf),
    5 + p ≤ pa.size → pa.size < 2 ^ 32 →
    Fills m (5 + p + n ≤ pa.size) pa (tableLoop m rawgeti n (p + 1) pa) := by
  induction n with
  | zero => exact fun p pa hp _ => .inl ⟨hp, pa, rfl, rfl, rfl, rfl⟩
  | succ n ih =>
    intro p pa hp hsize
    have haddr : address m p = 5 + p := address_eq (by omega)
    rw [tableLoop, Nat.add_sub_cancel]
    by_cases hnext : 5 + p + 1 ≤ pa.size
    · obtain ⟨pa₁, hstore⟩ : ∃ pa₁, store m pa p 1 (u8 (rawgeti (p + 1))) = some pa₁ :=
        ⟨_, store_of_le (by omega) _⟩
      have hsame : SameHeader m pa pa₁ := sameHeader_put hstore (by omega)
      rw [hstore, Option.bind_some]
      rcases ih (p + 1) _ (by rw [hsame.size_eq]; omega) (by rw [hsame.size_eq]; exact hsize) with
        ⟨hfits, pa', hpa', hsame'⟩ | ⟨hfits, hnone⟩
      · exact .inl ⟨by rw [hsame.size_eq] at hfits; omega, pa', hpa', hsame.trans hsame'⟩
      · exact .inr ⟨by rw [hsame.size_eq] at hfits; omega, hnone⟩
    · -- this byte is the first behind the block
      have hnone : store m pa p 1 (u8 (rawgeti (p + 1))) = none :=
        Buf.put?_eq_none.mpr (by rw [haddr, Lib.length_bytesIn]; omega)
      exact .inr ⟨by omega, by rw [hnone]; rfl⟩

theorem Fills.congr {fits fits' : Prop} {filled : Option Buf} (h : Fills m fits pa filled)
    (hiff : fits ↔ fits') : Fills m fits' pa filled := by
  rwa [← propext hiff]

/-- A block of the low 29 bits of a length has room for so many bytes when these are all bits. -/
theorem room_iff (hsize : pa.size = 7 + temp % 2 ^ 29) : 5 + temp ≤ pa.size ↔ temp < 2 ^ 29 := by
  omega

theorem number_safe_iff (capacity : Int) (fill : Option Int) (elsize : Option Int) :
    SafeResult m (bitarrayNew m newuserdata ⟨.number capacity fill, elsize⟩) ↔
      Right m newuserdata ⟨.number capacity fill, elsize⟩ := by
  simp only [bitarrayNew, Right]
  rw [create_safe_iff True (u32_lt capacity) fun _ pa hsize _ => ?_, true_and]
  refine (fills_copy m).congr (iff_of_true ?_ trivial)
  rw [List.length_replicate]
  omega

/-- `bitarray.new` raises an error, or makes an array that is not
left, exactly for these arguments. A number, a string and a table as
the source of the elements are three cases, each with the room that it
needs. -/
theorem safe_iff (m : Machine) (newuserdata : Nat → Option Mem) (args : Args) :
    Safe m newuserdata args ↔ Right m newuserdata args := by
  have hsafe : Safe m newuserdata args ↔ SafeResult m (bitarrayNew m newuserdata args) := Iff.rfl
  obtain ⟨source, elsize⟩ := args
  rw [hsafe]
  cases source with
  | number capacity fill => exact number_safe_iff capacity fill elsize
  | string buf =>
    exact sized_safe_iff fun pa hsize _ => (fills_copy m).congr (room_iff hsize)
  | table objlen rawgeti =>
    refine sized_safe_iff fun pa hsize _ => ?_
    exact (fills_tableLoop m rawgeti objlen 0 pa (by omega) (by omega)).congr (room_iff hsize)
  | other => exact iff_of_true trivial trivial

/-- The element size 256 is 0 as an `u8`, and the length is divided by it. -/
theorem not_always_safe :
    ¬ ∀ (m : Machine) (newuserdata : Nat → Option Mem) (args : Args), Safe m newuserdata args :=
  fun h => h ⟨false, true⟩ (fun _ => none) ⟨.string [], some 256⟩

end Alcor.Proofs.Lua.BitarrayNew
