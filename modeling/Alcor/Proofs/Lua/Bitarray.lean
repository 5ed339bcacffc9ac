import Alcor.Lua.Bitarray

/-!
# `Alcor.Proofs.Lua.Bitarray`: bit arrays

Element `n`, counted from 0, is in the bytes from `n * elsize / 8` on, as
many as it has, or one.

* `bitarrayGetval_eq` and `bitarraySetval_eq`: an access is one load, or
  one load and one store, of these bytes.
* `position_disjoint` and `offset_disjoint`: two elements have no byte in
  common, or they have less than a byte and no bit in common. Then
  `extract_insert_of_ne` only asks that the new value has no bit above
  those of its element.
* `exists_after` is an assignment, `run_seqBody` the loop of the
  conversions.
* `behaves` puts the two together, and `not_asClaimed` is the exception
  of the elements of more than a byte.
-/

set_option autoImplicit false

namespace Alcor.Proofs.Lua.Bitarray

open Lib (Mem Buf bytesIn valIn leVal leBytes)
open Alcor.Lua.Bitarray

variable {n' : Nat}
variable {m : Machine} {pa pa' : Buf} {e n : Nat}

/-! ### Sizes -/

theorem roundSize_eq (s : Nat) : roundSize s = (s + 7) / 8 := by
  have hand : s &&& 7 = s % 8 := Nat.and_two_pow_sub_one_eq_mod s 3
  unfold roundSize
  rw [hand, Nat.shiftRight_eq_div_pow]
  split <;> omega

theorem elsize_cases (he : e ∈ [1, 2, 4, 8, 16, 32]) :
    e = 1 ∨ e = 2 ∨ e = 4 ∨ e = 8 ∨ e = 16 ∨ e = 32 := by
  simpa using he

theorem elsize_le (he : e ∈ [1, 2, 4, 8, 16, 32]) : e ≤ 32 := by
  have hcases := elsize_cases he
  omega

/-- The first byte of an element. -/
def offset (e n : Nat) : Nat := n * e / 8

/-- The bytes that an access to an element takes. -/
def width (e : Nat) : Nat := max 1 (e / 8)

/-- The element, of its bytes. -/
def extract (e n val : Nat) : Nat :=
  if e < 8 then val >>> position e n &&& bitarrayIndexMask e else val

/-- The bytes with a new element. -/
def insert (e n val : Nat) (newval : BitVec 32) : Nat :=
  if e < 8 then setBits e n val newval else newval.toNat

theorem shift_eq_offset (he : e ∈ [1, 2, 4, 8, 16, 32]) (hlt : e < 8) (n : Nat) :
    n >>> bitarrayIndexShift e = offset e n := by
  rcases elsize_cases he with rfl | rfl | rfl | rfl | rfl | rfl <;>
    simp [bitarrayIndexShift, offset, Nat.shiftRight_eq_div_pow] at hlt ⊢ <;> omega

/-- The getter loads the bytes of its element and takes the bits from
them. Index 0 is the element behind the last of 32 bits. -/
theorem bitarrayGetval_eq (he : elsize pa ∈ [1, 2, 4, 8, 16, 32]) (idx : Nat) :
    bitarrayGetval m pa idx =
      (load m pa (offset (elsize pa) (if idx = 0 then 2 ^ 32 - 1 else idx - 1))
        (width (elsize pa))).map
        (extract (elsize pa) (if idx = 0 then 2 ^ 32 - 1 else idx - 1)) := by
  unfold bitarrayGetval
  generalize (if idx = 0 then 2 ^ 32 - 1 else idx - 1) = n
  generalize elsize pa = e at *
  by_cases hlt : e < 8
  · have hwidth : width e = 1 := by unfold width; omega
    simp only [hlt, if_true, shift_eq_offset he hlt, hwidth]
    congr 1
    funext val
    simp only [extract, hlt, if_true]
  · -- an element of a byte or more is what is loaded
    have hextract : extract e n = id := by
      funext val
      simp only [extract, hlt, if_false, id_eq]
    simp only [hlt, if_false, hextract, Option.map_id_fun, id_eq]
    rcases elsize_cases he with rfl | rfl | rfl | rfl | rfl | rfl <;>
      simp [offset, width] at hlt ⊢ <;> congr 1 <;> omega

/-- The setter loads the bytes of its element, replaces its bits, and
stores them again. -/
theorem bitarraySetval_eq (he : elsize pa ∈ [1, 2, 4, 8, 16, 32]) (n : Nat)
    (newval : BitVec 32) :
    bitarraySetval m pa n newval =
      (load m pa (offset (elsize pa) n) (width (elsize pa))).bind fun val =>
        store m pa (offset (elsize pa) n) (width (elsize pa))
          (insert (elsize pa) n val newval) := by
  unfold bitarraySetval
  generalize elsize pa = e at *
  by_cases hlt : e < 8
  · have hwidth : width e = 1 := by unfold width; omega
    simp only [hlt, if_true, shift_eq_offset he hlt, hwidth, insert]
  · -- where the store succeeds, so would a load of the same bytes
    have hstore : ∀ p w, ((load m pa p w).bind fun val =>
        store m pa p w (insert e n val newval)) = store m pa p w newval.toNat := by
      intro p w
      unfold load store Buf.put?
      simp only [insert, hlt, if_false, Lib.length_bytesIn]
      split <;> rfl
    rw [hstore]
    simp only [hlt, if_false]
    rcases elsize_cases he with rfl | rfl | rfl | rfl | rfl | rfl <;>
      simp [offset, width] at hlt ⊢ <;> congr 1 <;> omega

/-! ### Bits -/

theorem indexMask_eq (he : e ∈ [1, 2, 4, 8, 16, 32]) (hlt : e < 8) :
    bitarrayIndexMask e = 2 ^ e - 1 := by
  rcases elsize_cases he with rfl | rfl | rfl | rfl | rfl | rfl <;>
    simp [bitarrayIndexMask] at hlt ⊢

/-- The first element of a byte is in its high bits. -/
theorem position_eq (he : e ∈ [1, 2, 4, 8, 16, 32]) (hlt : e < 8) (n : Nat) :
    position e n = (8 / e - 1 - n % (8 / e)) * e := by
  have h8 : n &&& 7 = n % 8 := Nat.and_two_pow_sub_one_eq_mod n 3
  have h4 : n &&& 3 = n % 4 := Nat.and_two_pow_sub_one_eq_mod n 2
  have h2 : n &&& 1 = n % 2 := Nat.and_two_pow_sub_one_eq_mod n 1
  rcases elsize_cases he with rfl | rfl | rfl | rfl | rfl | rfl <;>
    simp [position, bitarrayIndexShift, h8, h4, h2] at hlt ⊢

theorem position_add_le (he : e ∈ [1, 2, 4, 8, 16, 32]) (hlt : e < 8) (n : Nat) :
    position e n + e ≤ 8 := by
  rw [position_eq he hlt]
  rcases elsize_cases he with rfl | rfl | rfl | rfl | rfl | rfl <;> omega

/-- Two elements of one byte are in different bits. -/
theorem position_disjoint (he : e ∈ [1, 2, 4, 8, 16, 32]) (hlt : e < 8) (hne : n ≠ n')
    (hoff : offset e n = offset e n') :
    position e n' + e ≤ position e n ∨ position e n + e ≤ position e n' := by
  rw [position_eq he hlt, position_eq he hlt]
  unfold offset at hoff
  rcases elsize_cases he with rfl | rfl | rfl | rfl | rfl | rfl <;> omega

theorem testBit_extract (he : e ∈ [1, 2, 4, 8, 16, 32]) (hlt : e < 8) (n val j : Nat) :
    (extract e n val).testBit j = (val.testBit (position e n + j) && decide (j < e)) := by
  simp only [extract, hlt, if_true, indexMask_eq he hlt, Nat.testBit_and, Nat.testBit_shiftRight,
    Nat.testBit_two_pow_sub_one]

/-- The bits of the byte: those of the new value in the place of the element, and above it those of
both. -/
theorem testBit_insert (he : e ∈ [1, 2, 4, 8, 16, 32]) (hlt : e < 8) (n val : Nat)
    (newval : BitVec 32) {k : Nat} (hk : k < 8) :
    (insert e n val newval).testBit k =
      ((val.testBit k && !(decide (position e n ≤ k) && decide (k - position e n < e))) ||
        (decide (position e n ≤ k) && newval.toNat.testBit (k - position e n))) := by
  have h32 : k < 32 := by omega
  have hsub : k - position e n < 32 := by omega
  simp only [insert, hlt, if_true, setBits, indexMask_eq he hlt, BitVec.testBit_toNat,
    BitVec.getLsbD_or, BitVec.getLsbD_and, BitVec.getLsbD_not, BitVec.getLsbD_shiftLeft,
    BitVec.getLsbD_ofNat, Nat.testBit_two_pow_sub_one, h32, hsub, decide_true, Bool.true_and,
    ← Nat.not_lt, decide_not]

theorem extract_insert_self (he : e ∈ [1, 2, 4, 8, 16, 32]) (n val : Nat) (newval : BitVec 32) :
    extract e n (insert e n val newval % 256 ^ width e) = newval.toNat % 2 ^ e := by
  by_cases hlt : e < 8
  · have hwidth : width e = 1 := by unfold width; omega
    rw [hwidth]
    refine Nat.eq_of_testBit_eq fun j => ?_
    rw [testBit_extract he hlt, show 256 ^ 1 = 2 ^ 8 from rfl, Nat.testBit_mod_two_pow,
      Nat.testBit_mod_two_pow]
    by_cases hj : j < e
    · have hk : position e n + j < 8 := by
        have hle := position_add_le he hlt n
        omega
      rw [testBit_insert he hlt n val newval hk]
      simp [hj, hk]
    · simp [hj]
  · simp only [extract, insert, hlt, if_false]
    rcases elsize_cases he with rfl | rfl | rfl | rfl | rfl | rfl <;> simp [width] at hlt ⊢

/-- Another element of the byte stays, if the new value has no bit
above those of its own element. -/
theorem extract_insert_of_ne (he : e ∈ [1, 2, 4, 8, 16, 32]) (hlt : e < 8) (hne : n ≠ n')
    (hoff : offset e n = offset e n') (val : Nat) {newval : BitVec 32}
    (hfit : newval.toNat % 2 ^ (8 - position e n) < 2 ^ e) :
    extract e n' (insert e n val newval % 256) = extract e n' val := by
  refine Nat.eq_of_testBit_eq fun j => ?_
  rw [testBit_extract he hlt, testBit_extract he hlt, show 256 = 2 ^ 8 from rfl,
    Nat.testBit_mod_two_pow]
  by_cases hj : j < e
  · have hk : position e n' + j < 8 := by
      have hle := position_add_le he hlt n'
      omega
    rw [testBit_insert he hlt n val newval hk]
    rcases position_disjoint he hlt hne hoff with hbelow | habove
    · have hk' : ¬ position e n ≤ position e n' + j := by omega
      simp [hk, hk']
    · -- above the element the new value has no bits in the byte
      have hhigh : newval.toNat.testBit (position e n' + j - position e n) = false := by
        have hzero : (newval.toNat % 2 ^ (8 - position e n)).testBit
            (position e n' + j - position e n) = false :=
          Nat.testBit_lt_two_pow (Nat.lt_of_lt_of_le hfit
            (Nat.pow_le_pow_right (by decide) (by omega)))
        rw [Nat.testBit_mod_two_pow] at hzero
        simpa [show position e n' + j - position e n < 8 - position e n by omega] using hzero
      have hk' : ¬ position e n' + j - position e n < e := by omega
      simp [hk, hk', hhigh]
  · simp [hj]

/-! ### Accesses -/

variable {p p' w w' val : Nat}

theorem load_of_le (h : address m p + w ≤ pa.size) :
    load m pa p w = some (valIn m.little (pa.mem.read (address m p) w)) :=
  if_pos h

theorem store_of_le (h : address m p + w ≤ pa.size) (val : Nat) :
    store m pa p w val =
      some { pa with mem := pa.mem.store (address m p) (bytesIn m.little w val) } :=
  Buf.put?_of_le (by simpa using h)

theorem load_store_self (h : store m pa p w val = some pa') :
    load m pa' p w = some (val % 256 ^ w) := by
  have hle : address m p + w ≤ pa.size := by
    by_contra hlt
    rw [store, Buf.put?_eq_none.mpr (by simpa using hlt)] at h
    cases h
  rw [store_of_le hle, Option.some.injEq] at h
  subst h
  have hread := Mem.holds_store_self pa.mem (address m p) (bytesIn m.little w val)
  rw [Mem.Holds, Lib.length_bytesIn] at hread
  simp only [load, hle, if_true, hread, Lib.valIn_bytesIn]

theorem read_store_of_disjoint (mem : Mem) (bs : List UInt8) (a a' w' : Nat)
    (h : a' + w' ≤ a ∨ a + bs.length ≤ a') :
    (mem.store a bs).read a' w' = mem.read a' w' := by
  -- the read is in front of the store, or behind it
  rcases h with h | h
  · exact ((Mem.agree_store_below mem a bs).read_eq a' w' (Nat.zero_le _) h).symm
  · exact ((Mem.agree_store_above mem a (a' + w') bs).read_eq a' w' h (Nat.le_refl _)).symm

/-- What a store behind the header leaves. -/
structure SameHeader (m : Machine) (pa pa' : Buf) : Prop where
  size_eq : pa'.size = pa.size
  capacity_eq : capacity m pa' = capacity m pa
  elsize_eq : elsize pa' = elsize pa

theorem SameHeader.trans {pa' pa'' : Buf} (h : SameHeader m pa pa') (h' : SameHeader m pa' pa'') :
    SameHeader m pa pa'' :=
  ⟨h'.size_eq.trans h.size_eq, h'.capacity_eq.trans h.capacity_eq,
    h'.elsize_eq.trans h.elsize_eq⟩

theorem sameHeader_put {a : Nat} {bs : List UInt8} (h : pa.put? a bs = some pa') (ha : 5 ≤ a) :
    SameHeader m pa pa' := by
  unfold Buf.put? at h
  split at h
  · cases h
    have hread := read_store_of_disjoint pa.mem bs a 0 4 (.inl (by omega))
    have hbyte := Mem.store_of_lt pa.mem a bs (show 4 < a by omega)
    exact ⟨rfl, congrArg (valIn m.little) hread, congrArg UInt8.toNat hbyte⟩
  · cases h

theorem load_store_of_disjoint (h : store m pa p w val = some pa')
    (hd : address m p' + w' ≤ address m p ∨ address m p + w ≤ address m p') :
    load m pa' p' w' = load m pa p' w' := by
  unfold load
  unfold store Buf.put? at h
  split at h
  · cases h
    simp only
    rw [read_store_of_disjoint _ _ _ _ _ (by simpa using hd)]
  · cases h

/-! ### Assignments -/

theorem bits_le (m : Machine) : 2 ^ 32 ≤ 2 ^ m.bits := by
  unfold Machine.bits
  split
  · exact Nat.pow_le_pow_right (by decide) (by decide)
  · exact Nat.le_refl _

theorem address_eq (h : 5 + p < 2 ^ 32) : address m p = 5 + p :=
  Nat.mod_eq_of_lt (Nat.lt_of_lt_of_le h (bits_le m))

/-- The elements take the bytes that the capacity has been rounded to. -/
theorem offset_add_width_le {c : Nat} (he : e ∈ [1, 2, 4, 8, 16, 32]) (hn : n < c) :
    offset e n + width e ≤ roundSize (c * e) := by
  rw [roundSize_eq]
  unfold offset width
  rcases elsize_cases he with rfl | rfl | rfl | rfl | rfl | rfl <;> omega

theorem roundSize_le {c : Nat} (h : c < 2 ^ 32) : roundSize c ≤ 2 ^ 29 := by
  rw [roundSize_eq]
  omega

variable (s : Assignment)

theorem capacity_lt : capacity s.m s.pa < 2 ^ 32 := by
  have hpos : 0 < elsize s.pa := by
    have hcases := elsize_cases s.elsize_mem
    omega
  exact Nat.lt_of_le_of_lt (Nat.le_mul_of_pos_right _ hpos) s.bits_lt

theorem offset_reach {n : Nat} (hn : n < capacity s.m s.pa) :
    address s.m (offset (elsize s.pa) n) = 5 + offset (elsize s.pa) n ∧
      5 + offset (elsize s.pa) n + width (elsize s.pa) ≤ s.pa.size := by
  have hle := offset_add_width_le s.elsize_mem hn
  have hround := roundSize_le s.bits_lt
  have hsize := s.size_eq
  exact ⟨address_eq (by omega), by omega⟩

theorem load_isSome {n : Nat} (hn : n < capacity s.m s.pa) :
    ∃ val, load s.m s.pa (offset (elsize s.pa) n) (width (elsize s.pa)) = some val := by
  obtain ⟨haddr, hle⟩ := offset_reach s hn
  exact ⟨_, load_of_le (by rw [haddr]; exact hle)⟩

/-- The assignment is one store, which leaves the header. -/
theorem bitarraySetval_spec : ∃ val after,
    load s.m s.pa (offset (elsize s.pa) (s.idx - 1)) (width (elsize s.pa)) = some val ∧
    store s.m s.pa (offset (elsize s.pa) (s.idx - 1)) (width (elsize s.pa))
      (insert (elsize s.pa) (s.idx - 1) val (BitVec.ofInt 32 s.value)) = some after ∧
    bitarraySetval s.m s.pa (s.idx - 1) (BitVec.ofInt 32 s.value) = some after ∧
    SameHeader s.m s.pa after := by
  have hn : s.idx - 1 < capacity s.m s.pa := by
    have hone := s.one_le
    have hle := s.idx_le
    omega
  obtain ⟨val, hload⟩ := load_isSome s hn
  obtain ⟨haddr, hle⟩ := offset_reach s hn
  have hstore := store_of_le (by rw [haddr]; exact hle)
    (insert (elsize s.pa) (s.idx - 1) val (BitVec.ofInt 32 s.value))
  refine ⟨val, _, hload, hstore, ?_, sameHeader_put hstore (by omega)⟩
  rw [bitarraySetval_eq s.elsize_mem, hload, Option.bind_some, hstore]

/-- Two elements have no byte in common, or they are parts of one. -/
theorem offset_disjoint (he : e ∈ [1, 2, 4, 8, 16, 32]) (hne : n ≠ n') :
    (offset e n' + width e ≤ offset e n ∨ offset e n + width e ≤ offset e n') ∨
      (e < 8 ∧ offset e n = offset e n') := by
  unfold offset width
  rcases elsize_cases he with rfl | rfl | rfl | rfl | rfl | rfl <;> omega

theorem toNat_newval_mod {k : Nat} (hk : k ≤ 32) (value : Int) :
    (BitVec.ofInt 32 value).toNat % 2 ^ k = (value % 2 ^ k).toNat := by
  have hdvd : ((2 ^ k : Nat) : Int) ∣ ((2 ^ 32 : Nat) : Int) :=
    Int.natCast_dvd_natCast.mpr (Nat.pow_dvd_pow 2 hk)
  have hpow : (2 : Int) ^ k = ((2 ^ k : Nat) : Int) := by norm_cast
  have hnonneg : 0 ≤ value % ((2 ^ 32 : Nat) : Int) := Int.emod_nonneg _ (by decide)
  rw [BitVec.toNat_ofInt, hpow, ← Int.emod_emod_of_dvd value hdvd,
    Int.toNat_emod hnonneg (by omega), Int.toNat_natCast]

/-- After the assignment: the element has the value, and no other has changed. -/
theorem exists_after (hvalue : s.Fits) :
    ∃ after, bitarraySetval s.m s.pa (s.idx - 1) (BitVec.ofInt 32 s.value) = some after ∧
      capacity s.m after = capacity s.m s.pa ∧ elsize after = elsize s.pa ∧
      bitarrayGetval s.m after s.idx = some (s.value % 2 ^ elsize s.pa).toNat ∧
      ∀ j, 1 ≤ j → j ≤ capacity s.m s.pa → j ≠ s.idx →
        bitarrayGetval s.m after j = bitarrayGetval s.m s.pa j := by
  obtain ⟨val, after, hload, hstore, hset, -, hcapacity, helsize⟩ := bitarraySetval_spec s
  have hone := s.one_le
  have hle := s.idx_le
  have hfit : elsize s.pa < 8 → (BitVec.ofInt 32 s.value).toNat %
      2 ^ (8 - position (elsize s.pa) (s.idx - 1)) < 2 ^ elsize s.pa := by
    intro hlt
    have hlow := hvalue hlt
    have hpow : (2 : Int) ^ elsize s.pa = ((2 ^ elsize s.pa : Nat) : Int) := by norm_cast
    have hpos : 0 < 2 ^ elsize s.pa := Nat.two_pow_pos _
    rw [toNat_newval_mod (by omega)]
    rw [hpow] at hlow
    omega
  have he' : elsize after ∈ [1, 2, 4, 8, 16, 32] := helsize ▸ s.elsize_mem
  have hle32 : elsize s.pa ≤ 32 := elsize_le s.elsize_mem
  refine ⟨after, hset, hcapacity, helsize, ?_, fun j hj1 hjc hj => ?_⟩
  · rw [bitarrayGetval_eq he', if_neg (by omega), helsize, load_store_self hstore,
      Option.map_some, extract_insert_self s.elsize_mem, toNat_newval_mod hle32]
  · obtain ⟨haddr, -⟩ := offset_reach s (show s.idx - 1 < capacity s.m s.pa by omega)
    obtain ⟨haddr', -⟩ := offset_reach s (show j - 1 < capacity s.m s.pa by omega)
    rw [bitarrayGetval_eq he', bitarrayGetval_eq s.elsize_mem, if_neg (by omega), helsize]
    rcases offset_disjoint s.elsize_mem (show s.idx - 1 ≠ j - 1 by omega) with hd | ⟨hlt, hoff⟩
    · rw [load_store_of_disjoint hstore (by omega)]
    · -- the two are parts of one byte
      have hwidth : width (elsize s.pa) = 1 := by unfold width; omega
      rw [← hoff, hload, load_store_self hstore, Option.map_some, Option.map_some, hwidth,
        Nat.pow_one, extract_insert_of_ne s.elsize_mem hlt (by omega) hoff _ (hfit hlt)]

/-! ### Conversions -/

/-- The loops list the elements, when no index wraps around. -/
theorem run_seqBody {f : Nat → Nat} (hc : capacity m pa < 2 ^ 32 - 1)
    (hval : ∀ k < capacity m pa, bitarrayGetval m pa (k + 1) = some (f k)) (n : Nat) :
    ∀ (k : Nat) (vals : List Nat), k + n = capacity m pa →
      Lib.Loop.run (seqBody m pa) (n + 1) (vals, k + 1) =
        some (.ok (vals ++ (List.range' k n).map f)) := by
  induction n with
  | zero =>
    intro k vals hk
    -- the index has passed the capacity
    have hend : ¬ k + 1 ≤ capacity m pa := by omega
    have hbody : seqBody m pa (vals, k + 1) = .inl (.ok vals) := by
      simp only [seqBody, hend, if_false]
    rw [Lib.Loop.run_succ_of_inl hbody]
    simp
  | succ n ih =>
    intro k vals hk
    have hin : k + 1 ≤ capacity m pa := by omega
    have hwrap : (k + 1 + 1) % 2 ^ 32 = k + 1 + 1 := Nat.mod_eq_of_lt (by omega)
    have hbody : seqBody m pa (vals, k + 1) = .inr (vals ++ [f k], k + 1 + 1) := by
      simp only [seqBody, hin, if_true, hval k hin, hwrap]
    rw [Lib.Loop.run_succ_of_inr hbody, ih (k + 1) _ (by omega)]
    simp [List.range'_succ]

theorem u32_natCast {j : Nat} (h : j < 2 ^ 32) : u32 j = j := by
  unfold u32
  omega

theorem bitarrayGet_natCast {j val : Nat} (hj1 : 1 ≤ j) (hj : j ≤ capacity m pa)
    (hc : capacity m pa < 2 ^ 32) (hval : bitarrayGetval m pa j = some val) :
    bitarrayGet m pa j = .ok (pushinteger m val) := by
  unfold bitarrayGet
  rw [u32_natCast (by omega)]
  simp only
  rw [if_neg (by omega), hval]
  rfl

/-- The values of the elements. -/
def values (m : Machine) (pa : Buf) : List Nat :=
  (List.range' 0 (capacity m pa)).map fun k => (bitarrayGetval m pa (k + 1)).getD 0

theorem lists_values (hc : capacity m pa < 2 ^ 32)
    (hval : ∀ k < capacity m pa, ∃ v, bitarrayGetval m pa (k + 1) = some v) :
    Lists m pa (values m pa) := by
  refine ⟨by simp [values], fun k hk => ?_⟩
  have hk' : k < capacity m pa := by simpa [values] using hk
  obtain ⟨v, hv⟩ := hval k hk'
  rw [bitarrayGet_natCast (by omega) (by omega) hc hv]
  simp [values, hv]

theorem conversion_seq {mode : Option String} (hmode : modeOf mode = .ok .seq)
    (he : elsize pa ≤ 8) (hc : capacity m pa < 2 ^ 32 - 1)
    (hval : ∀ k < capacity m pa, ∃ v, bitarrayGetval m pa (k + 1) = some v) :
    conversion m pa mode (capacity m pa + 1) = some (.ok (values m pa)) := by
  simp only [conversion, hmode]
  rw [if_neg (by omega)]
  refine run_seqBody hc (fun k hk => ?_) (capacity m pa) 0 [] (Nat.zero_add _)
  obtain ⟨v, hv⟩ := hval k hk
  simp [hv]

theorem conversion_refused {mode : Option String} (hmode : modeOf mode = .ok .seq)
    (he : ¬ elsize pa ≤ 8) (passes : Nat) :
    conversion m pa mode passes = some (.error "element size too large.") := by
  simp only [conversion, hmode]
  rw [if_pos (by omega)]

theorem bitarraySet_eq : bitarraySet s.m s.pa s.idx s.value =
    ofAccess (bitarraySetval s.m s.pa (s.idx - 1) (BitVec.ofInt 32 s.value)) := by
  have hone := s.one_le
  have hle := s.idx_le
  have hlt := capacity_lt s
  simp only [bitarraySet, u32_natCast (show s.idx < 2 ^ 32 by omega)]
  rw [if_neg (by omega)]

/-- After an assignment the element has the value, the others are as
before, and the conversions list the values, those of elements of more
than a byte aside. -/
theorem behaves (hvalue : s.Fits) (hcapacity : capacity s.m s.pa < 2 ^ 32 - 1) :
    s.Behaves := by
  obtain ⟨after, hset, hc, he, hself, hother⟩ := exists_after s hvalue
  have hone := s.one_le
  have hle := s.idx_le
  have hval : ∀ k < capacity s.m after, ∃ v, bitarrayGetval s.m after (k + 1) = some v := by
    -- the new value for the element itself, and for the others what was there
    intro k hk
    by_cases hki : k + 1 = s.idx
    · exact ⟨_, hki ▸ hself⟩
    · obtain ⟨v, hv⟩ := load_isSome s (hc ▸ hk)
      rw [hother (k + 1) (by omega) (by omega) hki, bitarrayGetval_eq s.elsize_mem,
        if_neg (by omega), Nat.add_sub_cancel, hv]
      exact ⟨_, rfl⟩
  refine ⟨after, ?_, ?_, fun key hkey => ?_, values s.m after, lists_values (by omega) hval,
    fun mode hmode => ?_⟩
  · rw [bitarraySet_eq, hset]
    rfl
  · exact bitarrayGet_natCast hone (by omega) (by omega) hself
  · simp only [bitarrayGet, hc]
    by_cases hrange : u32 key = 0 ∨ u32 key > capacity s.m s.pa
    · rw [if_pos hrange, if_pos hrange]
    · rw [if_neg hrange, if_neg hrange, hother _ (by omega) (by omega) hkey]
  · split
    next he8 =>
      refine ⟨capacity s.m after + 1, ?_⟩
      rw [bitarrayTostring, bitarrayTotable,
        conversion_seq hmode (by omega) (by omega) hval]
      exact ⟨rfl, rfl⟩
    next he8 =>
      intro passes
      rw [bitarrayTostring, bitarrayTotable, conversion_refused hmode (by omega)]
      exact ⟨rfl, rfl⟩

/-- Two elements of 4 bits, and the second becomes 11. -/
def nibbles : Assignment where
  m := ⟨false, true⟩
  pa := ⟨fun a => [2, 0, 0, 0, 4].getD a 0, 8⟩
  idx := 2
  value := 11
  elsize_mem := by decide
  bits_lt := by decide
  size_eq := by decide
  one_le := Nat.le_succ 1
  idx_le := by decide

/-- An array of elements with four bits. -/
theorem behaves_nibbles : nibbles.Behaves := behaves nibbles (fun _ => by decide) (by decide)

/-- Elements of more than a byte are not listed. -/
theorem not_asClaimed (he : 8 < elsize s.pa) : ¬ s.AsClaimed := by
  rintro ⟨after, hset, -, -, vals, -, hconversion⟩
  obtain ⟨val, after', -, -, hset', -, -, helsize⟩ := bitarraySetval_spec s
  rw [bitarraySet_eq, hset'] at hset
  cases hset
  obtain ⟨passes, htostring, -⟩ := hconversion none rfl
  rw [bitarrayTostring, conversion_refused rfl (by omega)] at htostring
  cases htostring

/-- One element of 16 bits. -/
def word : Assignment where
  m := ⟨false, true⟩
  pa := ⟨fun a => [1, 0, 0, 0, 16].getD a 0, 9⟩
  idx := 1
  value := 11
  elsize_mem := by decide
  bits_lt := by decide
  size_eq := by decide
  one_le := Nat.le_refl 1
  idx_le := by decide

/-- So not every assignment is as the text says. -/
theorem not_always_asClaimed : ¬ ∀ s : Assignment, s.AsClaimed :=
  fun h => not_asClaimed word (by decide) (h word)

end Alcor.Proofs.Lua.Bitarray
