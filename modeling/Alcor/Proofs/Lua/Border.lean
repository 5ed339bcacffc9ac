import Alcor.Proofs.Lua.Assign

/-!
# `Alcor.Proofs.Lua.Border`: the length of a table is a boundary

A boundary is an index with a value, or zero, such that the next index
has none. `luaH_getn` finds one for every table, in one of three ways:

* `binarySearch_spec`: a binary search in the array part, or between two
  indices of the hash part;
* `unboundFrom_spec`: the doubling of an index until it has no value, and
  a binary search then;
* `linearSearch_spec`: the linear search where the doubled index is no
  `int` any more.

`length_is_border` says this of every table that a program has made.
-/

set_option autoImplicit false

namespace Alcor.Proofs.Lua

open Alcor.Lua

/-! ### The searches -/

section Searches

variable {present : Nat → Option Bool} {P : Nat → Bool} {i j r passes : Nat}

/-- The index is a boundary. -/
def Border (P : Nat → Bool) (r : Nat) : Prop := (r = 0 ∨ P r = true) ∧ P (r + 1) = false

/-- The binary search finds a boundary between an index that is present and one that is not. -/
theorem binarySearch_spec (hP : ∀ m, i < m → m < j → present m = some (P m))
    (hi : i = 0 ∨ P i = true) (hj : P j = false) (hij : i < j) (hlt : j < 2 ^ 31)
    (hpasses : j - i ≤ 2 ^ passes) :
    ∃ r, binarySearch present (passes + 1) i j = some r ∧ r < j ∧ Border P r := by
  induction passes generalizing i j with
  | zero =>
    obtain rfl : j = i + 1 := by omega
    exact ⟨i, by rw [binarySearch, if_neg (by omega)], hij, hi, hj⟩
  | succ passes ih =>
    rw [binarySearch]
    by_cases hone : 1 < j - i
    · have hmod : (i + j) % 2 ^ 32 = i + j := Nat.mod_eq_of_lt (by omega)
      rw [Nat.pow_succ] at hpasses
      have hmi : i < (i + j) / 2 := by omega
      have hmj : (i + j) / 2 < j := by omega
      simp only [if_pos hone, hmod, hP _ hmi hmj, Option.bind_eq_bind, Option.bind_some]
      cases hm : P ((i + j) / 2) with
      | true => exact ih (fun m hm hmj' => hP m (by omega) hmj') (.inr hm) hj hmj hlt (by omega)
      | false =>
        obtain ⟨r, hr, hrm, hborder⟩ :=
          ih (fun m him hm => hP m him (by omega)) hi hm hmi (by omega) (by omega)
        exact ⟨r, hr, by omega, hborder⟩
    · obtain rfl : j = i + 1 := by omega
      exact ⟨i, by rw [if_neg hone], hij, hi, hj⟩

/-- The linear search finds the first boundary. -/
theorem linearSearch_spec {m : Nat} (hP : ∀ l, i ≤ l → l ≤ m → present l = some (P l))
    (hi : i - 1 = 0 ∨ P (i - 1) = true) (hpos : 0 < i) (him : i ≤ m) (hm : P m = false)
    (hpasses : m < i + passes) :
    ∃ r, linearSearch present passes i = some r ∧ r < m ∧ Border P r := by
  induction passes generalizing i with
  | zero => omega
  | succ passes ih =>
    rw [linearSearch, hP i (Nat.le_refl i) him]
    cases hPi : P i with
    | true =>
      have hne : i ≠ m := by
        rintro rfl
        rw [hPi] at hm
        cases hm
      exact ih (fun l hl hlm => hP l (by omega) hlm) (.inr hPi) (Nat.succ_pos i) (by omega) (by omega)
    | false =>
      refine ⟨i - 1, rfl, by omega, hi, ?_⟩
      rw [Nat.sub_add_cancel hpos]
      exact hPi

/-- The doubling comes to an end, and one of the searches finds a boundary. -/
theorem unboundFrom_spec (hP : ∀ m, 0 < m → m < 2 ^ 31 → present m = some (P m))
    (habsent : ∃ m, 0 < m ∧ m < 2 ^ 31 ∧ P m = false) (hi : i = 0 ∨ P i = true) (hij : i < j)
    (hj : j ≤ MAX_INT) (hpasses : MAX_INT < j * 2 ^ passes) :
    ∃ r, unboundFrom present passes i j = some r ∧ r < 2 ^ 31 ∧ Border P r := by
  have hmax : MAX_INT < 2 ^ 31 := by decide
  induction passes generalizing i j with
  | zero => omega
  | succ passes ih =>
    rw [unboundFrom, hP j (by omega) (by omega)]
    cases hPj : P j with
    | true =>
      have hmod : j * 2 % 2 ^ 32 = j * 2 := Nat.mod_eq_of_lt (by omega)
      simp only [Option.bind_eq_bind, Option.bind_some, if_true, hmod]
      by_cases hover : MAX_INT < j * 2
      · -- the index is no int any more
        rw [if_pos hover]
        obtain ⟨m, hm, hlt, hPm⟩ := habsent
        obtain ⟨r, hr, hrm, hborder⟩ := linearSearch_spec
          (show ∀ l, 1 ≤ l → l ≤ m → present l = _ from fun l hl hlm => hP l (by omega) (by omega))
          (.inl rfl) Nat.one_pos hm hPm (show m < 1 + 2 ^ 31 by omega)
        exact ⟨r, hr, by omega, hborder⟩
      · rw [if_neg hover]
        refine ih (.inr hPj) (by omega) (Nat.le_of_not_lt hover) ?_
        rw [Nat.pow_succ] at hpasses
        rw [Nat.mul_assoc, Nat.mul_comm 2]
        exact hpasses
    | false =>
      obtain ⟨r, hr, hrj, hborder⟩ := binarySearch_spec (show ∀ m, i < m → m < j → present m = _ from
        fun m hm hlt => hP m (by omega) (by omega)) hi hPj hij (by omega)
        (show j - i ≤ 2 ^ 31 by omega)
      exact ⟨r, hr, by omega, hborder⟩

end Searches

/-! ### `luaH_getn` -/

section Length

variable {N V : Type} {num : Numbers N} {t : Table N V} {m : Key N → Option V} {n : Nat}

/-- The key of an index. -/
def indexKey (num : Numbers N) (j : Nat) : Key N := .number (num.ofInt j)

/-- The index has a value. -/
def present (num : Numbers N) (m : Key N → Option V) (j : Nat) : Bool := (m (indexKey num j)).isSome

theorem indexKey_inj {i j : Nat} (hi : 0 < i) (hi' : i < 2 ^ 31) (hj : 0 < j) (hj' : j < 2 ^ 31)
    (h : indexKey num i = indexKey num j) : i = j := by
  have h₁ := num.toInt_ofInt i (by omega) (by omega)
  have h₂ := num.toInt_ofInt j (by omega) (by omega)
  rw [indexKey, indexKey, Key.number.injEq] at h
  rw [h, h₂] at h₁
  have := Option.some.inj h₁
  omega

theorem length_keysOf_le (num : Numbers N) (t : Table N V) :
    (keysOf num t).length ≤ t.sizearray + t.sizenode := by
  have harray := List.length_filterMap_le (fun i => (t.array i).map fun _ =>
    Key.number (num.ofInt ((i : Int) + 1))) (List.range t.sizearray)
  have hnode := List.length_filterMap_le (fun i => if (t.node i).val.isSome then (t.node i).key
    else none) (List.range t.sizenode)
  rw [List.length_range] at harray hnode
  rw [keysOf, List.length_append]
  exact Nat.add_le_add harray hnode

/-- Not all indices have a value. -/
theorem Intact.exists_absent (h : Intact num t) (hm : Represents num t m) :
    ∃ j, 0 < j ∧ j < 2 ^ 31 ∧ present num m j = false := by
  by_contra hno
  have hall : ∀ j, 0 < j → j < 2 ^ 31 → indexKey num j ∈ keysOf num t := by
    intro j hj hlt
    rw [mem_keysOf h.sound.sizearray_lt]
    cases hmj : m (indexKey num j) with
    | none => exact absurd ⟨j, hj, hlt, by rw [present, hmj]; rfl⟩ hno
    | some v => exact ⟨v, (hm _ v).mpr hmj⟩
  -- more indices than there are elements and nodes
  have hnodup : ((List.range (2 ^ 27 + 1)).map fun i => indexKey num (i + 1)).Nodup := by
    refine List.Nodup.map_on (fun i hi j hj heq => ?_) List.nodup_range
    rw [List.mem_range] at hi hj
    have := indexKey_inj (Nat.succ_pos i) (by omega) (Nat.succ_pos j) (by omega) heq
    omega
  have hsub : ((List.range (2 ^ 27 + 1)).map fun i => indexKey num (i + 1)) ⊆ keysOf num t := by
    intro k hk
    obtain ⟨i, hi, rfl⟩ := List.mem_map.mp hk
    rw [List.mem_range] at hi
    exact hall (i + 1) (Nat.succ_pos i) (by omega)
  have hle := (List.subperm_of_subset hnodup hsub).length_le
  rw [List.length_map, List.length_range] at hle
  have hlen := length_keysOf_le num t
  have harray : t.sizearray ≤ 2 ^ 26 := h.sizearray_le
  have hnode : t.sizenode ≤ 2 ^ 26 := h.sizenode_le
  omega

/-- An element of the array part is the value of the index behind it. -/
theorem Intact.present_array (h : Intact num t) (hm : Represents num t m) {j : Nat} (hj : 0 < j)
    (hle : j ≤ t.sizearray) : (t.array (j - 1)).isSome = present num m j := by
  have hslot : arraySlot num t.sizearray (indexKey num j) = some (j - 1) := by
    have : arraySlot num t.sizearray (.number (num.ofInt (((j - 1 : Nat) : Int) + 1))) =
        some (j - 1) := arraySlot_ofInt (by omega) h.sound.sizearray_lt
    rw [show ((j - 1 : Nat) : Int) + 1 = j by omega] at this
    exact this
  have hentry : ∀ v, m (indexKey num j) = some v ↔ t.array (j - 1) = some v := by
    intro v
    rw [← hm]
    refine ⟨?_, fun hv => .inl ⟨j - 1, hslot, hv⟩⟩
    rintro (⟨i, hi, hv⟩ | ⟨x, hx⟩)
    · rw [hslot] at hi
      exact Option.some.inj hi ▸ hv
    · have := h.array x _ hx.2.1
      rw [hslot] at this
      cases this
  rw [present, show m (indexKey num j) = t.array (j - 1) from Option.ext hentry]

variable [DecidableEq N]

/-- `luaH_getn` finds a boundary. -/
theorem Intact.luaHGetn (h : Intact num t) (hm : Represents num t m) (hn : 2 ^ MAXBITS < n) :
    ∃ r, t.luaHGetn num n = some r ∧ r < 2 ^ 31 ∧ Border (present num m) r := by
  have harray : t.sizearray ≤ 2 ^ 26 := h.sizearray_le
  rw [Table.luaHGetn]
  by_cases hnil : 0 < t.sizearray ∧ (t.array (t.sizearray - 1)).isNone = true
  · -- there is a boundary in the array part
    rw [if_pos hnil]
    have hlast : present num m t.sizearray = false := by
      rw [← h.present_array hm hnil.1 (Nat.le_refl _), Option.isSome_eq_false_iff]
      exact hnil.2
    obtain ⟨r, hr, hlt, hborder⟩ := binarySearch_spec
      (show ∀ l, 0 < l → l < t.sizearray → some (t.array (l - 1)).isSome = _ from
        fun l hl hle => congrArg some (h.present_array hm hl (Nat.le_of_lt hle)))
      (.inl rfl) hlast hnil.1 (by omega) (show t.sizearray - 0 ≤ 2 ^ 31 by omega)
    exact ⟨r, hr, by omega, hborder⟩
  · rw [if_neg hnil]
    have hfirst : t.sizearray = 0 ∨ present num m t.sizearray = true := by
      refine (Nat.eq_zero_or_pos _).imp_right fun hpos => ?_
      rw [← h.present_array hm hpos (Nat.le_refl _), Option.isSome_iff_ne_none]
      exact fun hnone => hnil ⟨hpos, by rw [hnone]; rfl⟩
    by_cases hd : t.dummy = true
    · rw [if_pos hd]
      refine ⟨_, rfl, by omega, hfirst, ?_⟩
      -- there is no node, and the index is not for the array part
      rw [present, Option.isSome_eq_false_iff, Option.isNone_iff_eq_none]
      by_contra hsome
      obtain ⟨v, hv⟩ := Option.ne_none_iff_exists'.mp hsome
      obtain ⟨hsize, -, hempty⟩ := h.dummy hd
      rcases (hm _ v).mpr hv with ⟨i, hi, -⟩ | ⟨x, hx, hkey, -⟩
      · have hlt := arraySlot_lt hi
        have heq := arraySlot_inj hi (arraySlot_ofInt hlt h.sound.sizearray_lt)
        have := indexKey_inj (Nat.succ_pos _) (by omega) (Nat.succ_pos i) (by omega) heq
        omega
      · rw [Table.sizenode, hsize] at hx
        obtain rfl : x = 0 := Nat.lt_one_iff.mp hx
        rw [hempty] at hkey
        cases hkey
    · rw [if_neg hd]
      refine unboundFrom_spec (fun j _ _ => ?_) (h.exists_absent hm) hfirst (Nat.lt_succ_self _) ?_ ?_
      · rw [Table.luaHGetnum, h.get hm hn]
        rfl
      · have : 2 ^ 26 + 1 ≤ MAX_INT := by decide
        omega
      · have : MAX_INT < 2 ^ 32 := by decide
        omega

/-- **The length operator**: the length of a table that a program has
made is a boundary of what was assigned. Either it is 0 and there is
no value at 1, or there is one at the length and none behind it. -/
theorem length_is_border (num : Numbers N) (t : Table N V) (ops : List (Key N × Option V)) (n : Nat)
    (hn : 2 ^ MAXBITS < n) (h : Made num n t ops) :
    ∃ r, t.luaHGetn num n = some r ∧ r < 2 ^ 31 ∧
      (r = 0 ∨ contents ops (.number (num.ofInt r)) ≠ none) ∧
      contents ops (.number (num.ofInt ((r + 1 : Nat) : Int))) = none := by
  obtain ⟨ht, hm⟩ := h.spec hn
  obtain ⟨r, hr, hlt, hfirst, hnext⟩ := ht.luaHGetn hm hn
  refine ⟨r, hr, hlt, hfirst.imp_right Option.isSome_iff_ne_none.mp, ?_⟩
  rw [present, Option.isSome_eq_false_iff, Option.isNone_iff_eq_none] at hnext
  exact hnext

/-- `#{ [1] = 5, [2] = 6 }`. -/
theorem length_is_border_two :
    ∃ (t : Table Int Nat) (r : Nat), Made integers (2 ^ MAXBITS + 1) t
        [(.number 1, some 5), (.number 2, some 6)] ∧
      t.luaHGetn integers (2 ^ MAXBITS + 1) = some r ∧ r = 2 := by
  obtain ⟨t, hmade⟩ := exists_made integers (Nat.lt_succ_self (2 ^ MAXBITS))
    (show [(Key.number (1 : Int), some 5), (.number 2, some 6)].length < 2 ^ MAXBITS by decide)
  obtain ⟨r, hr, -, hfirst, hnext⟩ :=
    length_is_border integers t _ (2 ^ MAXBITS + 1) (Nat.lt_succ_self _) hmade
  refine ⟨t, r, hmade, hr, ?_⟩
  rcases hfirst with rfl | hfirst
  · exact absurd hnext (by decide)
  · have hmem := mem_of_contents_ne_none hfirst
    simp only [List.map_cons, List.map_nil, List.mem_cons, List.not_mem_nil, or_false,
      Key.number.injEq, integers] at hmem
    rcases hmem with h | h
    · obtain rfl : r = 1 := by omega
      exact absurd hnext (by decide)
    · omega

end Length

end Alcor.Proofs.Lua
