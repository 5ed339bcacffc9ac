import Alcor.Lua.TableAccess
import Alcor.Proofs.Lua.Resize
import Mathlib.Algebra.BigOperators.Fin
import Mathlib.Algebra.Order.BigOperators.Group.Finset

/-!
# `Alcor.Proofs.Lua.Sizes`: the sizes that a rehash chooses

`rehash` counts the integer keys by the powers of two they are between
(`tally` adds up such counts), and `computesizes` takes from the counts
the largest power of two of which more than half is in use.

* `computesizes_spec`: the loop makes the best choice of the counts it
  is given, and reads only what `nums` has.
* `numusearray_spec` and `usehashBelow_spec`: the counts are those of
  the keys that have a value.
* `computesizes_counted`: so the choice is the best for these keys, and
  `fits_counted` says that the others have room in the hash part.
* `Sound.rehash` puts it together: the table has the same entries, in an
  array part of the size that was chosen.
-/

set_option autoImplicit false

namespace Alcor.Proofs.Lua

open Alcor.Lua

variable {n na size : Nat}

/-! ### `computesizes` -/

section ComputeSizes

variable {nums : Nat → Nat} {narray i m : Nat}

/-- How many keys there are up to `2^i`. -/
def tally (nums : Nat → Nat) (i : Nat) : Nat := ∑ j ∈ Finset.range (i + 1), nums j

/-- `n` is the largest of the first powers of two of which more than half is in use, by `na` keys,
or zero. -/
structure Best (nums : Nat → Nat) (i n na : Nat) : Prop where
  used : (n = 0 ∧ na = 0) ∨ ∃ m < i, n = 2 ^ m ∧ na = tally nums m ∧ 2 ^ m / 2 < tally nums m
  largest : ∀ m < i, n < 2 ^ m → tally nums m ≤ 2 ^ m / 2

theorem tally_succ (nums : Nat → Nat) (i : Nat) :
    tally nums (i + 1) = tally nums i + nums (i + 1) :=
  Finset.sum_range_succ nums (i + 1)

theorem tally_mono (nums : Nat → Nat) {i m : Nat} (h : i ≤ m) : tally nums i ≤ tally nums m :=
  Finset.sum_le_sum_of_subset (Finset.range_mono (Nat.succ_le_succ h))

theorem half_two_pow (i : Nat) : 2 ^ (i + 1) / 2 = 2 ^ i := by
  rw [Nat.pow_succ]
  omega

theorem two_pow_le_half (h : i < m) : 2 ^ i ≤ 2 ^ m / 2 := by
  obtain ⟨k, rfl⟩ : ∃ k, m = k + 1 := ⟨m - 1, by omega⟩
  rw [half_two_pow]
  exact Nat.pow_le_pow_right (by decide) (Nat.le_of_lt_succ h)

/-- The powers that are left have less than their half in use. -/
theorem Best.extend (h : Best nums i n na)
    (hrest : ∀ m, i ≤ m → m < MAXBITS + 1 → tally nums m ≤ 2 ^ m / 2) :
    Best nums (max i (MAXBITS + 1)) n na := by
  refine ⟨h.used.imp_right ?_, fun m hm hn => ?_⟩
  · rintro ⟨m, hm, hrest⟩
    exact ⟨m, by omega, hrest⟩
  · rcases Nat.lt_or_ge m i with hlt | hge
    · exact h.largest m hlt hn
    · exact hrest m hge (by omega)

/-- Of one more power less than a half is in use. -/
theorem Best.skip (h : Best nums i n na) (hhalf : tally nums i ≤ 2 ^ i / 2) :
    Best nums (i + 1) n na := by
  refine ⟨h.used.imp_right ?_, fun m hm hn => ?_⟩
  · rintro ⟨m, hm, hrest⟩
    exact ⟨m, by omega, hrest⟩
  · rcases Nat.lt_succ_iff_lt_or_eq.mp hm with hlt | rfl
    · exact h.largest m hlt hn
    · exact hhalf

/-- Of one more power more than a half is in use. -/
theorem Best.take (nums : Nat → Nat) (hhalf : 2 ^ i / 2 < tally nums i) :
    Best nums (i + 1) (2 ^ i) (tally nums i) := by
  refine ⟨.inr ⟨i, Nat.lt_succ_self i, rfl, rfl, hhalf⟩, fun m hm hn => ?_⟩
  have := (Nat.pow_lt_pow_iff_right (by decide)).mp hn
  omega

/-- One pass: with the power the choice is again the best. -/
theorem Best.pass {a : Nat} (h : Best nums i n na) (hbound : ∀ m ≤ MAXBITS, tally nums m ≤ 2 ^ m)
    (hi : i ≤ MAXBITS) (ha : a + nums i = tally nums i) :
    Best nums (i + 1) (if 0 < nums i ∧ 2 ^ i / 2 < a + nums i then (a + nums i, 2 ^ i) else (na, n)).2
      (if 0 < nums i ∧ 2 ^ i / 2 < a + nums i then (a + nums i, 2 ^ i) else (na, n)).1 := by
  split
  · next hhalf =>
    rw [ha] at hhalf ⊢
    exact Best.take nums hhalf.2
  · next hno =>
    refine h.skip ?_
    by_cases hzero : nums i = 0
    · -- all keys are below the power before
      cases i with
      | zero => exact Nat.le_of_eq (by rw [tally, Finset.sum_range_one, hzero]; rfl)
      | succ i =>
        rw [tally_succ, hzero, Nat.add_zero, half_two_pow]
        exact hbound i (Nat.le_of_succ_le hi)
    · have := fun h => hno ⟨Nat.pos_of_ne_zero hzero, h⟩
      omega

/-- The loop of `computesizes` ends with the best choice. -/
theorem sizesFrom_spec (hbound : ∀ m ≤ MAXBITS, tally nums m ≤ 2 ^ m)
    (hall : narray = tally nums MAXBITS) :
    ∀ passes i a na n, passes + i = MAXBITS + 1 → a + nums i = tally nums i → Best nums i n na →
      ∃ na' n', sizesFrom nums narray passes i a na n = some (na', n') ∧
        Best nums (MAXBITS + 1) n' na' := by
  intro passes
  induction passes with
  | zero =>
    intro i a na n hi _ hbest
    obtain rfl : i = MAXBITS + 1 := by omega
    refine ⟨na, n, ?_, hbest⟩
    have := hbound MAXBITS (Nat.le_refl _)
    rw [sizesFrom, if_neg]
    rw [half_two_pow]
    omega
  | succ passes ih =>
    intro i a na n hi ha hbest
    have hmax : max i (MAXBITS + 1) = MAXBITS + 1 := by omega
    rw [sizesFrom]
    by_cases hmore : 2 ^ i / 2 < narray
    · have hnext := hbest.pass hbound (by omega) ha
      rw [if_pos hmore]
      simp only
      by_cases hcounted : a + nums i = narray
      · -- the keys that are left are none
        rw [if_pos hcounted]
        refine ⟨_, _, rfl, ?_⟩
        have hend := hnext.extend fun m hm hlt => by
          have hle := tally_mono nums (Nat.le_of_lt_succ hlt)
          have hpow := hbound i (by omega)
          have := two_pow_le_half (i := i) (m := m) (by omega)
          omega
        rw [show max (i + 1) (MAXBITS + 1) = MAXBITS + 1 by omega] at hend
        exact hend
      · rw [if_neg hcounted]
        cases passes with
        | zero =>
          -- the last power has all the keys
          obtain rfl : i = MAXBITS := by omega
          exact absurd (ha.trans hall.symm) hcounted
        | succ passes =>
          exact ih (i + 1) (a + nums i) _ _ (by omega) (by rw [ha, tally_succ]) hnext
    · rw [if_neg hmore]
      refine ⟨na, n, rfl, ?_⟩
      have hend := hbest.extend fun m hm hlt => by
        have hle := tally_mono nums (Nat.le_of_lt_succ hlt)
        have := Nat.div_le_div_right (c := 2) (Nat.pow_le_pow_right (by decide : 0 < 2) hm)
        omega
      rw [hmax] at hend
      exact hend

variable (nums) in
/-- `computesizes` makes the best choice, and reads only what `nums` has. -/
theorem computesizes_spec (hbound : ∀ m ≤ MAXBITS, tally nums m ≤ 2 ^ m)
    (hall : narray = tally nums MAXBITS) :
    ∃ na n, computesizes nums narray = some (na, n) ∧ Best nums (MAXBITS + 1) n na :=
  sizesFrom_spec hbound hall (MAXBITS + 1) 0 0 0 0 rfl
    (by rw [Nat.zero_add, tally, Finset.sum_range_one])
    ⟨.inl ⟨rfl, rfl⟩, fun _ hm => absurd hm (Nat.not_lt_zero _)⟩

end ComputeSizes

/-! ### Counting keys -/

section Counting

variable {N V : Type} {num : Numbers N} {t : Table N V} {nums : Nat → Nat}
variable {k : Key N} {ks : List (Key N)}

/-- How many of the keys are for an array part of a size. -/
def within (num : Numbers N) (size : Nat) (ks : List (Key N)) : Nat :=
  ks.countP fun k => (arraySlot num size k).isSome

theorem within_append (size : Nat) (ks ls : List (Key N)) :
    within num size (ks ++ ls) = within num size ks + within num size ls :=
  List.countP_append

theorem arraySlot_isSome :
    (arraySlot num size k).isSome = true ↔ 0 < arrayindex num k ∧ arrayindex num k ≤ size := by
  cases k with
  | number n =>
    cases hint : num.toInt n with
    | none => simp [arraySlot, arrayindex, hint]
    | some k =>
      have hslot : arraySlot num size (.number n) =
          if 1 ≤ k ∧ k ≤ size then some (k - 1).toNat else none := by
        simp only [arraySlot, hint]
      have hindex : arrayindex num (.number n) = k := by
        simp only [arrayindex, hint, Option.getD_some]
      rw [hslot, hindex]
      split
      · next h => exact ⟨fun _ => ⟨by omega, h.2⟩, fun _ => rfl⟩
      · next h => exact ⟨fun h => (by cases h), fun h' => absurd ⟨by omega, h'.2⟩ h⟩
  | string address hash => simp [arraySlot, arrayindex]
  | boolean b => simp [arraySlot, arrayindex]
  | pointer type p => simp [arraySlot, arrayindex]
  | object p => simp [arraySlot, arrayindex]

/-- No two keys have one index, so that there are not more keys than indices. -/
theorem within_le (size : Nat) (hks : ks.Nodup) : within num size ks ≤ size := by
  have hlen : (ks.filterMap (arraySlot num size)).length = within num size ks := by
    rw [List.length_filterMap_eq_countP, within]
  have hnodup : (ks.filterMap (arraySlot num size)).Nodup := by
    refine List.Nodup.filterMap (fun k k' i hk hk' => ?_) hks
    exact arraySlot_inj hk hk'
  have hsub : ks.filterMap (arraySlot num size) ⊆ List.range size := by
    intro i hi
    obtain ⟨k, -, hk⟩ := List.mem_filterMap.mp hi
    exact List.mem_range.mpr (arraySlot_lt hk)
  have hle := (List.subperm_of_subset hnodup hsub).length_le
  rw [List.length_range, hlen] at hle
  exact hle

variable (num) in
/-- All keys are for the array part or not. -/
theorem within_add (size : Nat) (ks : List (Key N)) :
    within num size ks + (ks.filter fun k => (arraySlot num size k).isNone).length = ks.length := by
  rw [within, ← List.countP_eq_length_filter,
    List.length_eq_countP_add_countP fun k => (arraySlot num size k).isSome]
  congr 1
  refine List.countP_congr fun k _ => ?_
  cases arraySlot num size k <;> simp

theorem within_singleton (size : Nat) (key : Key N) :
    within num size [key] = if 0 < arrayindex num key ∧ arrayindex num key ≤ size then 1 else 0 := by
  rw [within, List.countP_singleton]
  exact if_congr arraySlot_isSome rfl rfl

/-- A key more is counted in every power from its own on. -/
theorem tally_update (nums : Nat → Nat) (lg c i : Nat) :
    tally (Function.update nums lg (nums lg + c)) i = tally nums i + if lg ≤ i then c else 0 := by
  induction i with
  | zero =>
    rw [tally, tally, Finset.sum_range_one, Finset.sum_range_one]
    by_cases hlg : lg = 0
    · rw [hlg, Function.update_self, if_pos (Nat.le_refl 0)]
    · rw [Function.update_of_ne (Ne.symm hlg), if_neg (by omega), Nat.add_zero]
  | succ i ih =>
    rw [tally_succ, tally_succ, ih]
    by_cases hlg : lg = i + 1
    · rw [hlg, Function.update_self, if_neg (by omega), if_pos (Nat.le_refl _)]
      omega
    · rw [Function.update_of_ne (Ne.symm hlg)]
      by_cases hle : lg ≤ i
      · rw [if_pos hle, if_pos (by omega)]
        omega
      · rw [if_neg hle, if_neg (by omega)]
        omega

variable (num) in
/-- A key is counted where its index is. -/
theorem countint_spec (key : Key N) (nums : Nat → Nat) :
    (countint num key nums).1 = within num MAXASIZE [key] ∧
      ∀ i ≤ MAXBITS, tally (countint num key nums).2 i = tally nums i + within num (2 ^ i) [key] := by
  rw [countint, within_singleton]
  by_cases hin : 0 < arrayindex num key ∧ arrayindex num key ≤ (MAXASIZE : Int)
  · rw [if_pos hin, if_pos hin]
    refine ⟨rfl, fun i _ => ?_⟩
    rw [tally_update, within_singleton]
    congr 1
    refine if_congr ?_ rfl rfl
    rw [Nat.clog_le_iff_le_pow (by decide)]
    omega
  · rw [if_neg hin, if_neg hin]
    refine ⟨rfl, fun i hi => ?_⟩
    have hpow : 2 ^ i ≤ MAXASIZE := Nat.pow_le_pow_right (by decide) hi
    rw [within_singleton, if_neg, Nat.add_zero]
    omega

/-! ### The keys of a table -/

/-- The keys of the first elements of the array part. -/
def keysBelow (num : Numbers N) (t : Table N V) (m : Nat) : List (Key N) :=
  (List.range m).filterMap fun i => (t.array i).map fun _ => .number (num.ofInt ((i : Int) + 1))

/-- The keys of the first nodes that have a value. -/
def nodeKeysBelow (t : Table N V) (m : Nat) : List (Key N) :=
  (List.range m).filterMap fun i => if (t.node i).val.isSome then (t.node i).key else none

/-- The keys that have a value. -/
def keysOf (num : Numbers N) (t : Table N V) : List (Key N) :=
  keysBelow num t t.sizearray ++ nodeKeysBelow t t.sizenode

/-- How many of the first elements of the array part are not nil. -/
def usedBelow (t : Table N V) (m : Nat) : Nat := t.usedIn 1 m

theorem usedBelow_succ (t : Table N V) (m : Nat) :
    usedBelow t (m + 1) = usedBelow t m + if (t.array m).isSome then 1 else 0 := by
  rw [usedBelow, usedBelow, Table.usedIn, Table.usedIn, Nat.add_sub_cancel, Nat.add_sub_cancel,
    List.range'_1_concat, List.filter_append, List.length_append, List.filter_singleton,
    Nat.add_sub_cancel_left]
  cases (t.array m).isSome <;> rfl

theorem usedIn_add (t : Table N V) {i m : Nat} (hi : i ≤ m) :
    usedBelow t i + t.usedIn (i + 1) m = usedBelow t m := by
  have hsplit : List.range' 1 m = List.range' 1 i ++ List.range' (i + 1) (m - i) := by
    rw [Nat.add_comm i 1, List.range'_append_1, Nat.add_sub_cancel' hi]
  rw [usedBelow, usedBelow, Table.usedIn, Table.usedIn, Table.usedIn, Nat.add_sub_cancel,
    Nat.add_sub_cancel, Nat.add_sub_add_right, hsplit, List.filter_append, List.length_append]

theorem usedBelow_mono (t : Table N V) {i m : Nat} (hi : i ≤ m) : usedBelow t i ≤ usedBelow t m := by
  rw [← usedIn_add t hi]
  exact Nat.le_add_right _ _

theorem keysBelow_succ (t : Table N V) (m : Nat) :
    keysBelow num t (m + 1) = keysBelow num t m ++
      ((t.array m).map fun _ => Key.number (num.ofInt ((m : Int) + 1))).toList := by
  rw [keysBelow, List.range_succ, List.filterMap_append, keysBelow]
  cases h : t.array m <;> simp [h]

theorem nodeKeysBelow_succ (t : Table N V) (m : Nat) :
    nodeKeysBelow t (m + 1) = nodeKeysBelow t m ++
      (if (t.node m).val.isSome then (t.node m).key else none).toList := by
  rw [nodeKeysBelow, List.range_succ, List.filterMap_append, nodeKeysBelow]
  cases h : (t.node m).val <;> cases h' : (t.node m).key <;> simp [h, h']

theorem length_keysBelow (t : Table N V) (m : Nat) :
    (keysBelow num t m).length = usedBelow t m := by
  induction m with
  | zero => rfl
  | succ m ih =>
    rw [keysBelow_succ, List.length_append, ih, usedBelow_succ]
    cases t.array m <;> rfl

/-- The elements of the array part, counted by their indices. -/
theorem within_keysBelow (t : Table N V) (size : Nat) {m : Nat} (hm : m < 2 ^ 31) :
    within num size (keysBelow num t m) = usedBelow t (min size m) := by
  induction m with
  | zero => rw [Nat.min_zero]; rfl
  | succ m ih =>
    rw [keysBelow_succ, within_append, ih (Nat.lt_of_succ_lt hm)]
    have hindex : arrayindex num (.number (num.ofInt ((m : Int) + 1))) = (m : Int) + 1 := by
      rw [arrayindex, num.toInt_ofInt _ (by omega) (by omega)]
      rfl
    cases hval : t.array m with
    | none =>
      rw [Option.map_none, Option.toList_none]
      rcases Nat.lt_or_ge m size with hlt | hge
      · rw [Nat.min_eq_right hlt, Nat.min_eq_right (Nat.le_of_lt hlt), usedBelow_succ, hval]
        rfl
      · rw [Nat.min_eq_left hge, Nat.min_eq_left (by omega)]
        rfl
    | some v =>
      rw [Option.map_some, Option.toList_some, within_singleton, hindex]
      rcases Nat.lt_or_ge m size with hlt | hge
      · rw [Nat.min_eq_right hlt, Nat.min_eq_right (Nat.le_of_lt hlt), usedBelow_succ, hval,
          if_pos (by omega)]
        rfl
      · rw [Nat.min_eq_left hge, Nat.min_eq_left (by omega), if_neg (by omega), Nat.add_zero]

/-! ### The counts of the two parts -/

/-- Where the counting of a slice begins. -/
def edge (t : Table N V) (lg : Nat) : Nat := min (2 ^ lg / 2) t.sizearray

theorem edge_mono (t : Table N V) {i m : Nat} (h : i ≤ m) : edge t i ≤ edge t m := by
  have := Nat.div_le_div_right (c := 2) (Nat.pow_le_pow_right (by decide : 0 < 2) h)
  unfold edge
  omega

theorem edge_succ (t : Table N V) (lg : Nat) : edge t (lg + 1) = min (2 ^ lg) t.sizearray := by
  rw [edge, half_two_pow]

/-- The loop counts the elements from one edge to another. -/
theorem usearrayFrom_spec (t : Table N V) (passes lg ause : Nat) (nums : Nat → Nat) :
    (t.usearrayFrom passes lg (edge t lg + 1) ause nums).1 + usedBelow t (edge t lg) =
        ause + usedBelow t (edge t (lg + passes)) ∧
      ∀ i, tally (t.usearrayFrom passes lg (edge t lg + 1) ause nums).2 i = tally nums i +
        (usedBelow t (edge t (min (i + 1) (lg + passes))) - usedBelow t (edge t lg)) := by
  induction passes generalizing lg ause nums with
  | zero =>
    refine ⟨rfl, fun i => ?_⟩
    have := usedBelow_mono t (edge_mono t (Nat.min_le_right (i + 1) lg))
    rw [Nat.add_zero lg, Nat.sub_eq_zero_of_le this]
    rfl
  | succ passes ih =>
    rw [Table.usearrayFrom, ← edge_succ]
    simp only
    by_cases hend : t.sizearray < 2 ^ lg ∧ edge t (lg + 1) < edge t lg + 1
    · -- the array part ends before the slice
      rw [if_pos hend]
      have hlast : edge t lg = t.sizearray := by
        rw [edge_succ] at hend
        unfold edge at hend ⊢
        omega
      have hedge : ∀ m, lg ≤ m → edge t m = t.sizearray := fun m hm =>
        Nat.le_antisymm (Nat.min_le_right _ _) (hlast ▸ edge_mono t hm)
      refine ⟨by rw [hlast, hedge _ (by omega)], fun i => ?_⟩
      have := usedBelow_mono t
        (show edge t (min (i + 1) (lg + (passes + 1))) ≤ t.sizearray from Nat.min_le_right _ _)
      rw [hlast, Nat.sub_eq_zero_of_le this, Nat.add_zero]
    · rw [if_neg hend, show max (edge t lg + 1) (edge t (lg + 1) + 1) = edge t (lg + 1) + 1 from
        Nat.max_eq_right (Nat.succ_le_succ (edge_mono t (Nat.le_succ lg)))]
      have hcount := usedIn_add t (edge_mono t (Nat.le_add_right lg 1))
      obtain ⟨hause, htally⟩ := ih (lg + 1) (ause + t.usedIn (edge t lg + 1) (edge t (lg + 1)))
        (Function.update nums lg (nums lg + t.usedIn (edge t lg + 1) (edge t (lg + 1))))
      rw [show lg + 1 + passes = lg + (passes + 1) by omega] at hause htally
      refine ⟨by omega, fun i => ?_⟩
      rw [htally, tally_update]
      rcases Nat.lt_or_ge i lg with hlt | hge
      · -- slices that were counted before
        have h₁ := usedBelow_mono t (edge_mono t (show min (i + 1) (lg + (passes + 1)) ≤ lg by omega))
        rw [if_neg (by omega)]
        omega
      · have h₁ := usedBelow_mono t
          (edge_mono t (show lg + 1 ≤ min (i + 1) (lg + (passes + 1)) by omega))
        rw [if_pos hge]
        omega

variable (num) in
/-- The counts of the array part. -/
theorem numusearray_spec (hsize : t.sizearray ≤ MAXASIZE) :
    (t.numusearray fun _ => 0).1 = (keysBelow num t t.sizearray).length ∧
      ∀ i ≤ MAXBITS, tally (t.numusearray fun _ => 0).2 i =
        within num (2 ^ i) (keysBelow num t t.sizearray) := by
  have hzero : edge t 0 = 0 := Nat.min_eq_left (Nat.zero_le _)
  obtain ⟨hause, htally⟩ := usearrayFrom_spec t (MAXBITS + 1) 0 0 fun _ => 0
  rw [hzero] at hause htally
  have hnone : usedBelow t 0 = 0 := rfl
  have hlast : edge t (0 + (MAXBITS + 1)) = t.sizearray := by
    rw [Nat.zero_add, edge_succ]
    exact Nat.min_eq_right hsize
  rw [hlast, hnone] at hause
  refine ⟨?_, fun i hi => ?_⟩
  · rw [length_keysBelow]
    exact hause.trans (Nat.zero_add _)
  · have hlt : t.sizearray < 2 ^ 31 := Nat.lt_of_le_of_lt hsize (by decide)
    rw [within_keysBelow t _ hlt, ← edge_succ]
    refine (htally i).trans ?_
    rw [Nat.min_eq_left (by omega), hnone, Nat.sub_zero, tally]
    simp

variable (num) in
/-- The counts of the hash part. -/
theorem usehashBelow_spec (m : Nat) (hkeyed : ∀ x < m, (t.node x).key = none → (t.node x).val = none)
    (totaluse ause : Nat) (nums : Nat → Nat) :
    (t.usehashBelow num m totaluse ause nums).1 = totaluse + (nodeKeysBelow t m).length ∧
      (t.usehashBelow num m totaluse ause nums).2.1 =
        ause + within num MAXASIZE (nodeKeysBelow t m) ∧
      ∀ i ≤ MAXBITS, tally (t.usehashBelow num m totaluse ause nums).2.2 i =
        tally nums i + within num (2 ^ i) (nodeKeysBelow t m) := by
  induction m generalizing totaluse ause nums with
  | zero => exact ⟨rfl, rfl, fun _ _ => rfl⟩
  | succ m ih =>
    have hkeyed' := fun x hx => hkeyed x (Nat.lt_succ_of_lt hx)
    rw [nodeKeysBelow_succ]
    cases hval : (t.node m).val with
    | none =>
      rw [Table.usehashBelow, hval]
      simp only [Option.isSome_none, Bool.false_eq_true, if_false, Option.toList_none,
        List.append_nil]
      exact ih hkeyed' totaluse ause nums
    | some v =>
      cases hkey : (t.node m).key with
      | none =>
        rw [hkeyed m (Nat.lt_succ_self m) hkey] at hval
        cases hval
      | some key =>
        obtain ⟨hcount, htally⟩ := countint_spec num key nums
        obtain ⟨h₁, h₂, h₃⟩ := ih hkeyed' (totaluse + 1) (ause + (countint num key nums).1)
          (countint num key nums).2
        have hstep : t.usehashBelow num (m + 1) totaluse ause nums =
            t.usehashBelow num m (totaluse + 1) (ause + (countint num key nums).1)
              (countint num key nums).2 := by
          rw [Table.usehashBelow, hval, hkey]
        simp only [Option.isSome_some, if_true, Option.toList_some]
        rw [hstep]
        refine ⟨?_, ?_, fun i hi => ?_⟩
        · rw [h₁, List.length_append, List.length_singleton]
          omega
        · rw [h₂, hcount, within_append]
          omega
        · rw [h₃ i hi, htally i hi, within_append]
          omega

/-! ### The keys that have a value -/

theorem mem_keysBelow {m : Nat} (hm : m < 2 ^ 31) :
    k ∈ keysBelow num t m ↔ ∃ i v, arraySlot num m k = some i ∧ t.array i = some v := by
  rw [keysBelow, List.mem_filterMap]
  constructor
  · rintro ⟨i, hi, hmap⟩
    obtain ⟨v, hv, rfl⟩ := Option.map_eq_some_iff.mp hmap
    exact ⟨i, v, arraySlot_ofInt (List.mem_range.mp hi) hm, hv⟩
  · rintro ⟨i, v, hi, hv⟩
    refine ⟨i, List.mem_range.mpr (arraySlot_lt hi), ?_⟩
    rw [hv, Option.map_some]
    exact congrArg some (arraySlot_inj (arraySlot_ofInt (arraySlot_lt hi) hm) hi)

theorem mem_nodeKeysBelow {m : Nat} : k ∈ nodeKeysBelow t m ↔ ∃ x v, At t (· < m) x k v := by
  rw [nodeKeysBelow, List.mem_filterMap]
  constructor
  · rintro ⟨x, hx, hkey⟩
    obtain ⟨v, hv⟩ | hnone := Option.eq_none_or_eq_some (t.node x).val |>.symm
    · rw [hv] at hkey
      exact ⟨x, v, List.mem_range.mp hx, hkey, hv⟩
    · rw [hnone] at hkey
      cases hkey
  · rintro ⟨x, v, hx, hkey, hv⟩
    refine ⟨x, List.mem_range.mpr hx, ?_⟩
    rw [hv]
    exact hkey

/-- The keys that are counted are those that have a value. -/
theorem mem_keysOf (hsize : t.sizearray < 2 ^ 31) : k ∈ keysOf num t ↔ ∃ v, HasEntry num t k v := by
  rw [keysOf, List.mem_append, mem_keysBelow hsize, mem_nodeKeysBelow]
  constructor
  · rintro (⟨i, v, h⟩ | ⟨x, v, h⟩)
    · exact ⟨v, .inl ⟨i, h⟩⟩
    · exact ⟨v, .inr ⟨x, h⟩⟩
  · rintro ⟨v, ⟨i, h⟩ | ⟨x, h⟩⟩
    · exact .inl ⟨i, v, h⟩
    · exact .inr ⟨x, v, h⟩

/-- No key is twice in the array part. -/
theorem nodup_keysBelow {m : Nat} (hm : m < 2 ^ 31) : (keysBelow num t m).Nodup := by
  induction m with
  | zero => exact List.nodup_nil
  | succ m ih =>
    rw [keysBelow_succ]
    cases hval : t.array m with
    | none => simpa using ih (Nat.lt_of_succ_lt hm)
    | some v =>
      refine List.Nodup.append (ih (Nat.lt_of_succ_lt hm)) (List.nodup_singleton _) ?_
      rw [Option.map_some, Option.toList_some, List.disjoint_singleton, mem_keysBelow (by omega)]
      rintro ⟨i, -, hi, -⟩
      -- the key of an element before is another one
      have hlt := arraySlot_lt hi
      have hlast := arraySlot_of_lt hi (Nat.lt_succ_of_lt hlt)
      rw [arraySlot_ofInt (Nat.lt_succ_self m) hm] at hlast
      have := Option.some.inj hlast
      omega

/-- Nor in the hash part. -/
theorem nodup_nodeKeysBelow (h : Single num t (· < t.sizenode)) {m : Nat} (hm : m ≤ t.sizenode) :
    (nodeKeysBelow t m).Nodup := by
  induction m with
  | zero => exact List.nodup_nil
  | succ m ih =>
    have hnodup := ih (Nat.le_of_succ_le hm)
    rw [nodeKeysBelow_succ]
    cases hval : (t.node m).val with
    | none => simpa using hnodup
    | some v =>
      cases hkey : (t.node m).key with
      | none => simpa using hnodup
      | some k =>
        refine List.Nodup.append hnodup (List.nodup_singleton _) ?_
        rw [Option.isSome_some, if_pos rfl, Option.toList_some, List.disjoint_singleton,
          mem_nodeKeysBelow]
        rintro ⟨x, w, hx, hxkey, hxval⟩
        have heq := h.distinct x m k w v ⟨by omega, hxkey, hxval⟩ ⟨hm, hkey, hval⟩
        exact Nat.ne_of_lt hx heq

theorem nodup_keysOf (h : Single num t (· < t.sizenode)) (hsize : t.sizearray < 2 ^ 31) :
    (keysOf num t).Nodup := by
  refine List.Nodup.append (nodup_keysBelow hsize) (nodup_nodeKeysBelow h (Nat.le_refl _)) ?_
  intro k harray hnode
  obtain ⟨i, v, hi, hv⟩ := (mem_keysBelow hsize).mp harray
  obtain ⟨x, w, hx⟩ := mem_nodeKeysBelow.mp hnode
  rw [h.apart x k w i hx hi] at hv
  cases hv

/-! ### `rehash` -/

/-- The size is the largest power of two of which more than half is in use by the keys. -/
structure Chosen (num : Numbers N) (ks : List (Key N)) (size : Nat) : Prop where
  half : size = 0 ∨ ∃ m ≤ MAXBITS, size = 2 ^ m ∧ 2 ^ m / 2 < within num (2 ^ m) ks
  largest : ∀ m ≤ MAXBITS, size < 2 ^ m → within num (2 ^ m) ks ≤ 2 ^ m / 2

theorem Chosen.le (h : Chosen num ks size) : size ≤ MAXASIZE := by
  obtain rfl | ⟨m, hm, rfl, -⟩ := h.half
  · exact Nat.zero_le _
  · exact Nat.pow_le_pow_right (by decide) hm

/-- From the counts of some keys `computesizes` chooses the size for these keys. -/
theorem computesizes_counted (hks : ks.Nodup)
    (hnums : ∀ i ≤ MAXBITS, tally nums i = within num (2 ^ i) ks) :
    ∃ size, computesizes nums (within num MAXASIZE ks) = some (within num size ks, size) ∧
      Chosen num ks size := by
  obtain ⟨na, size, hrun, hbest⟩ := computesizes_spec nums
    (fun m hm => by rw [hnums m hm]; exact within_le _ hks) (hnums MAXBITS (Nat.le_refl _)).symm
  have hna : na = within num size ks := by
    obtain ⟨rfl, rfl⟩ | ⟨m, hm, rfl, rfl, -⟩ := hbest.used
    · exact (Nat.le_zero.mp (within_le 0 hks)).symm
    · exact hnums m (Nat.le_of_lt_succ hm)
  refine ⟨size, hna ▸ hrun, ?_, fun m hm hlt => ?_⟩
  · obtain ⟨hzero, -⟩ | ⟨m, hm, hsize, -, hhalf⟩ := hbest.used
    · exact .inl hzero
    · exact .inr ⟨m, Nat.le_of_lt_succ hm, hsize, hnums m (Nat.le_of_lt_succ hm) ▸ hhalf⟩
  · exact hnums m hm ▸ hbest.largest m (Nat.lt_succ_of_le hm) hlt

theorem le_roomOf (nhsize : Nat) : nhsize ≤ roomOf nhsize := by
  rw [roomOf]
  split
  · exact Nat.le_pow_clog (by decide) nhsize
  · omega

theorem roomOf_le {nhsize : Nat} (h : nhsize ≤ 2 ^ MAXBITS) : roomOf nhsize ≤ 2 ^ MAXBITS := by
  rw [roomOf]
  refine Nat.pow_le_pow_right (by decide) ?_
  split
  · exact (Nat.clog_le_iff_le_pow (by decide)).mpr h
  · exact Nat.zero_le _

/-- The keys that are not for the array part have room in the hash part. -/
theorem fits_counted (hsize : t.sizearray < 2 ^ 31) (hsub : ∀ k ∈ keysOf num t, k ∈ ks) :
    Fits num t size (ks.length - within num size ks) := by
  intro l hl hmem
  refine Nat.le_trans ?_ (le_roomOf _)
  have hle : l.length ≤ (ks.filter fun k => (arraySlot num size k).isNone).length :=
    (List.subperm_of_subset hl fun k hk => List.mem_filter.mpr
      ⟨hsub k ((mem_keysOf hsize).mpr (hmem k hk).1), by rw [(hmem k hk).2]; rfl⟩).length_le
  have := within_add num size ks
  omega

variable [DecidableEq N]

/-- More nodes than a table can have are the error `table overflow`. -/
theorem resize_overflow (t : Table N V) (n nasize : Nat) {nhsize : Nat}
    (h : 2 ^ MAXBITS < nhsize) : t.resize num n nasize nhsize = none := by
  have hlsize : MAXBITS < Nat.clog 2 nhsize :=
    (Nat.lt_clog_iff_pow_lt (by decide)).mpr h
  have hpos : 0 < nhsize := Nat.lt_of_le_of_lt (Nat.zero_le _) h
  have hnone : ∀ t : Table N V, t.resizeHashpart num n nhsize = none := by
    intro t
    rw [Table.resizeHashpart]
    simp only
    rw [if_pos hpos, if_pos ⟨hpos, hlsize⟩]
  simp [Table.resize, hnone]

/-- A rehash gives a table with the same entries, whose array part has the size that the keys and
the new one choose, and with a node for each of the others, unless these are too many. -/
theorem Sound.rehash (h : Sound num t) (hsize : t.sizearray ≤ MAXASIZE) {ek : Key N}
    (hnew : ek ∉ keysOf num t) (hn : 2 ^ MAXBITS < n) :
    ∃ size, Chosen num (keysOf num t ++ [ek]) size ∧
      ((∃ u, t.rehash num n ek = some u ∧
        Resized num t size ((keysOf num t).length + 1 - within num size (keysOf num t ++ [ek])) u ∧
        (keysOf num t).length + 1 - within num size (keysOf num t ++ [ek]) ≤ 2 ^ MAXBITS) ∨
      (t.rehash num n ek = none ∧ 2 ^ MAXBITS ≤ (keysOf num t).length)) := by
  have hlt := h.sizearray_lt
  have hks : (keysOf num t ++ [ek]).Nodup :=
    (nodup_keysOf h.single hlt).append (List.nodup_singleton ek) (List.disjoint_singleton.mpr hnew)
  obtain ⟨harray, htally⟩ := numusearray_spec num hsize
  obtain ⟨hnode, huse, htally'⟩ := usehashBelow_spec num t.sizenode h.keyed 0 0
    (t.numusearray fun _ => 0).2
  obtain ⟨hcount, htally''⟩ := countint_spec num ek
    (t.numusehash num (t.numusearray fun _ => 0).2).2.2
  have hnums : ∀ i ≤ MAXBITS,
      tally (countint num ek (t.numusehash num (t.numusearray fun _ => 0).2).2.2).2 i =
        within num (2 ^ i) (keysOf num t ++ [ek]) := by
    intro i hi
    rw [htally'' i hi, within_append, keysOf, within_append, ← htally i hi]
    exact congrArg (· + within num (2 ^ i) [ek]) (htally' i hi)
  obtain ⟨size, hsizes, hchosen⟩ := computesizes_counted hks hnums
  have hlen : (keysOf num t ++ [ek]).length = (keysOf num t).length + 1 := by
    rw [List.length_append, List.length_singleton]
  have hfits : Fits num t size
      ((keysOf num t).length + 1 - within num size (keysOf num t ++ [ek])) := by
    rw [← hlen]
    exact fits_counted hlt fun k hk => List.mem_append_left _ hk
  -- all of the array part is counted
  have hall : (keysBelow num t t.sizearray).length =
      within num MAXASIZE (keysBelow num t t.sizearray) := by
    rw [within_keysBelow t _ hlt, Nat.min_eq_right hsize, length_keysBelow]
  have hnarray : (t.numusearray fun _ => 0).1 +
      (t.numusehash num (t.numusearray fun _ => 0).2).2.1 +
      (countint num ek (t.numusehash num (t.numusearray fun _ => 0).2).2.2).1 =
        within num MAXASIZE (keysOf num t ++ [ek]) := by
    rw [within_append, keysOf, within_append, hcount, harray, hall, Table.numusehash, huse,
      Nat.zero_add]
  have htotal : (t.numusearray fun _ => 0).1 +
      (t.numusehash num (t.numusearray fun _ => 0).2).1 + 1 = (keysOf num t).length + 1 := by
    rw [keysOf, List.length_append, harray, Table.numusehash, hnode, Nat.zero_add]
  have hrehash : t.rehash num n ek = t.resize num n size
      ((keysOf num t).length + 1 - within num size (keysOf num t ++ [ek])) := by
    rw [Table.rehash]
    simp only [hnarray, hsizes, htotal]
    rfl
  refine ⟨size, hchosen, ?_⟩
  rw [hrehash]
  rcases Nat.lt_or_ge (2 ^ MAXBITS)
    ((keysOf num t).length + 1 - within num size (keysOf num t ++ [ek])) with hmany | hroom
  · exact .inr ⟨resize_overflow t n size hmany, by omega⟩
  · obtain ⟨u, hrun, hu⟩ := h.resize (n := n) (Nat.lt_of_le_of_lt hchosen.le (by decide)) hroom hfits
      (Nat.lt_of_le_of_lt (roomOf_le hroom) hn)
    exact .inl ⟨u, hrun, hu, hroom⟩

end Counting

end Alcor.Proofs.Lua
