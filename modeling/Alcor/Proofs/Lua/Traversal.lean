import Alcor.Proofs.Lua.Assign

/-!
# `Alcor.Proofs.Lua.Traversal`: a traversal visits each key once

A traversal numbers the places of a table, those of the array part
first (`Place.index`), and goes from the place of the last key to the
next one with a value.

* `pairFrom_spec`: the two loops of `luaH_next` find the first place with
  a value, and `Intact.findindex` the place of the last key.
* `Intact.assignAll_shape`: assignments to fields that exist, also of
  nil, leave every key at its place (`SameShape`).
* `traversal_visits_each`: so a traversal with such assignments in its
  body comes to an end, visits no key twice, and misses none that has a
  value all the time. `Visiting` is its invariant.
-/

set_option autoImplicit false

namespace Alcor.Proofs.Lua

open Alcor.Lua

variable {N V : Type} {num : Numbers N} {t u : Table N V} {k : Key N} {p : Place} {n i j : Nat}

/-! ### Places and their numbers -/

/-- The number of a place: hash elements are numbered after array ones. -/
def indexOf (t : Table N V) : Place → Nat
  | .array i => i
  | .node x  => t.sizearray + x

/-- The number of places. -/
def places (t : Table N V) : Nat := t.sizearray + t.sizenode

/-- What is at a place with a number. -/
def pairAt (num : Numbers N) (t : Table N V) (j : Nat) : Option (Key N × V) :=
  if j < t.sizearray then t.arrayPair num j else t.nodePair (j - t.sizearray)

/-- An element of the array part has the index behind its place. -/
theorem arraySlot_eq_some {size : Nat} (h : arraySlot num size k = some i) :
    arrayindex num k = (i : Int) + 1 ∧ i < size := by
  have hlt := arraySlot_lt h
  refine ⟨?_, hlt⟩
  cases k with
  | number a =>
    simp only [arraySlot] at h
    rw [arrayindex]
    cases hint : num.toInt a with
    | none =>
      rw [hint] at h
      cases h
    | some z =>
      rw [hint] at h
      simp only at h
      split at h
      · have := Option.some.inj h
        show z = _
        omega
      · cases h
  | string address hash => cases h
  | boolean b => cases h
  | pointer type p => cases h
  | object p => cases h

/-- A key has one place. -/
theorem Intact.holds_unique (h : Intact num t) {q : Place} (hp : Holds num t k p)
    (hq : Holds num t k q) : p = q := by
  cases p with
  | array i =>
    cases q with
    | array j => exact congrArg Place.array (Option.some.inj (hp.symm.trans hq))
    | node y => exact absurd (hp.symm.trans (h.array y k hq)) (Option.some_ne_none i)
  | node x =>
    cases q with
    | array j => exact absurd (hq.symm.trans (h.array x k hp)) (Option.some_ne_none j)
    | node y => exact congrArg Place.node (h.distinct x y k hp hq)

/-- Two keys have two places. -/
theorem holds_inj {k' : Key N} (hp : Holds num t k p) (hq : Holds num t k' p) : k = k' := by
  cases p with
  | array i => exact arraySlot_inj hp hq
  | node x => exact Option.some.inj (hp.symm.trans hq)

theorem Intact.indexOf_lt (h : Intact num t) (hp : Holds num t k p) : indexOf t p < places t := by
  cases p with
  | array i => exact Nat.lt_of_lt_of_le (arraySlot_lt hp) (Nat.le_add_right _ _)
  | node x => exact Nat.add_lt_add_left (h.lt hp) _

/-- Two places have two numbers. -/
theorem indexOf_inj {q : Place} {k' : Key N} (hp : Holds num t k p) (hq : Holds num t k' q)
    (heq : indexOf t p = indexOf t q) : p = q := by
  cases p with
  | array i =>
    have hi := arraySlot_lt hp
    cases q with
    | array j => exact congrArg Place.array heq
    | node y =>
      have : i = t.sizearray + y := heq
      omega
  | node x =>
    cases q with
    | array j =>
      have hj := arraySlot_lt hq
      have : t.sizearray + x = j := heq
      omega
    | node y => exact congrArg Place.node (Nat.add_left_cancel heq)

/-- At a place with a value are its key and the value. -/
theorem Intact.pairAt_iff (h : Intact num t) (k : Key N) (v : V) :
    pairAt num t j = some (k, v) ↔
      ∃ p, Holds num t k p ∧ indexOf t p = j ∧ HasEntry num t k v := by
  have hsize := h.sound.sizearray_lt
  rw [pairAt]
  by_cases hj : j < t.sizearray
  · have hslot : arraySlot num t.sizearray (.number (num.ofInt ((j : Int) + 1))) = some j :=
      arraySlot_ofInt hj hsize
    rw [if_pos hj, Table.arrayPair, Option.map_eq_some_iff]
    constructor
    · rintro ⟨w, hw, heq⟩
      cases heq
      exact ⟨.array j, hslot, rfl, .inl ⟨j, hslot, hw⟩⟩
    · rintro ⟨p, hp, hindex, hentry⟩
      cases p with
      | array i =>
        obtain rfl : i = j := hindex
        obtain rfl := arraySlot_inj hp hslot
        rcases hentry with ⟨l, hl, hv⟩ | ⟨x, hx⟩
        · rw [hslot] at hl
          exact ⟨v, Option.some.inj hl ▸ hv, rfl⟩
        · exact absurd (hslot.symm.trans (h.array x _ hx.2.1)) (Option.some_ne_none i)
      | node x =>
        have : t.sizearray + x = j := hindex
        omega
  · rw [if_neg hj, Table.nodePair]
    constructor
    · intro hpair
      obtain ⟨w, hw, hpair⟩ := Option.bind_eq_some_iff.mp hpair
      obtain ⟨k', hk', hpair⟩ := Option.bind_eq_some_iff.mp hpair
      cases hpair
      have hx : j - t.sizearray < t.sizenode := h.lt hk'
      exact ⟨.node (j - t.sizearray), hk', by rw [indexOf]; omega, .inr ⟨_, hx, hk', hw⟩⟩
    · rintro ⟨p, hp, hindex, hentry⟩
      cases p with
      | array i =>
        have hi := arraySlot_lt hp
        have : i = j := hindex
        omega
      | node x =>
        have hxj : t.sizearray + x = j := hindex
        obtain rfl : j - t.sizearray = x := by omega
        rcases hentry with ⟨l, hl, -⟩ | ⟨y, hy, hkey, hv⟩
        · exact absurd (hl.symm.trans (h.array _ k hp)) (Option.some_ne_none l)
        · obtain rfl := h.distinct y _ k hkey hp
          simp [hv, hkey]

/-! ### `luaH_next` -/

/-- The first index where something is found. -/
theorem findSome?_range' {β : Type} (f : Nat → Option β) (i m : Nat) :
    (∃ j b, (List.range' i m).findSome? f = some b ∧ i ≤ j ∧ j < i + m ∧ f j = some b ∧
        ∀ l, i ≤ l → l < j → f l = none) ∨
      ((List.range' i m).findSome? f = none ∧ ∀ l, i ≤ l → l < i + m → f l = none) := by
  induction m generalizing i with
  | zero => exact .inr ⟨rfl, fun l _ _ => by omega⟩
  | succ m ih =>
    rw [List.range'_succ, List.findSome?_cons]
    cases hi : f i with
    | some b => exact .inl ⟨i, b, rfl, Nat.le_refl i, by omega, hi, fun l _ _ => by omega⟩
    | none =>
      have hrest : ∀ l, i ≤ l → (i + 1 ≤ l → f l = none) → f l = none := by
        intro l hl hlater
        rcases Nat.eq_or_lt_of_le hl with rfl | hlt
        · exact hi
        · exact hlater hlt
      rcases ih (i + 1) with ⟨j, b, hfind, hj, hlt, hb, hbefore⟩ | ⟨hfind, hall⟩
      · exact .inl ⟨j, b, hfind, by omega, by omega, hb,
          fun l hl hlj => hrest l hl fun hl' => hbefore l hl' hlj⟩
      · exact .inr ⟨hfind, fun l hl hlm => hrest l hl fun hl' => hall l hl' (by omega)⟩

variable (num) in
/-- The two loops of `luaH_next` find the first place with a value. -/
theorem pairFrom_spec (t : Table N V) (i : Nat) :
    (∃ j pair, t.pairFrom num i = some pair ∧ i ≤ j ∧ j < places t ∧ pairAt num t j = some pair ∧
        ∀ l, i ≤ l → l < j → pairAt num t l = none) ∨
      (t.pairFrom num i = none ∧ ∀ l, i ≤ l → l < places t → pairAt num t l = none) := by
  have harray : ∀ l, l < t.sizearray → pairAt num t l = t.arrayPair num l := fun l hl => if_pos hl
  have hnode : ∀ l, t.sizearray ≤ l → pairAt num t l = t.nodePair (l - t.sizearray) := fun l hl =>
    if_neg (Nat.not_lt.mpr hl)
  rw [Table.pairFrom, places]
  rcases findSome?_range' (t.arrayPair num) i (t.sizearray - i) with
    ⟨j, pair, hfind, hj, hlt, hpair, hbefore⟩ | ⟨hfind, hall⟩
  · rw [hfind]
    refine .inl ⟨j, pair, rfl, hj, by omega, (harray j (by omega)).trans hpair, fun l hl hlj => ?_⟩
    rw [harray l (by omega)]
    exact hbefore l hl hlj
  · rw [hfind]
    simp only
    -- what is before the nodes has no value
    have hfront : ∀ l, i ≤ l → l < t.sizearray → pairAt num t l = none := fun l hl hlt =>
      (harray l hlt).trans (hall l hl (by omega))
    rcases findSome?_range' t.nodePair (max i t.sizearray - t.sizearray)
      (t.sizenode - (max i t.sizearray - t.sizearray)) with
      ⟨j, pair, hfind, hj, hlt, hpair, hbefore⟩ | ⟨hfind, hall⟩
    · refine .inl ⟨t.sizearray + j, pair, hfind, by omega, by omega, ?_, fun l hl hlj => ?_⟩
      · rw [hnode _ (Nat.le_add_right _ _), Nat.add_sub_cancel_left]
        exact hpair
      · rcases Nat.lt_or_ge l t.sizearray with hlt | hge
        · exact hfront l hl hlt
        · rw [hnode l hge]
          exact hbefore _ (by omega) (by omega)
    · refine .inr ⟨hfind, fun l hl hlp => ?_⟩
      rcases Nat.lt_or_ge l t.sizearray with hlt | hge
      · exact hfront l hl hlt
      · rw [hnode l hge]
        exact hall _ (by omega) (by omega)

variable [DecidableEq N]

theorem Intact.luaHGet_of_holds (h : Intact num t) (hn : 2 ^ MAXBITS < n) (hp : Holds num t k p) :
    t.luaHGet num n k = some (some p) := by
  have hle : t.sizenode ≤ n := Nat.le_of_lt (Nat.lt_of_le_of_lt h.sizenode_le hn)
  obtain ⟨i, hi, hget⟩ | ⟨hslot, ⟨x, hx, hget⟩ | ⟨hnew, -⟩⟩ := h.luaHGet hle k
  · rw [hget, h.holds_unique (q := .array i) hp hi]
  · rw [hget, h.holds_unique (q := .node x) hp hx]
  · cases p with
    | array i => exact absurd (hp.symm.trans hslot) (Option.some_ne_none i)
    | node x => exact absurd hp (hnew x)

/-- `findindex` gives the number of the place of a key. -/
theorem Intact.findindex (h : Intact num t) (hn : 2 ^ MAXBITS < n) (hp : Holds num t k p) :
    t.findindex num n (some k) = some (indexOf t p) := by
  have hget := h.luaHGet_of_holds hn hp
  rw [Table.findindex]
  cases p with
  | array i =>
    obtain ⟨hindex, hlt⟩ := arraySlot_eq_some hp
    rw [if_pos (by omega), hindex]
    exact congrArg some (by rw [indexOf]; omega)
  | node x =>
    have hslot : arraySlot num t.sizearray k = none := h.array x k hp
    rw [if_neg]
    · rw [Table.luaHGet, hslot] at hget
      obtain ⟨r, hr, hmap⟩ := Option.bind_eq_some_iff.mp hget
      obtain rfl : r = some x := by
        cases r with
        | none => cases hmap
        | some y =>
          cases hmap
          rfl
      simp [hr, indexOf, Int.add_comm]
    · rw [← arraySlot_isSome, hslot]
      exact Bool.false_ne_true

/-! ### Assignments to fields that exist -/

/-- Every key is at the same place. -/
structure SameShape (t u : Table N V) : Prop where
  sizearray : u.sizearray = t.sizearray
  lsizenode : u.lsizenode = t.lsizenode
  key : ∀ x, (u.node x).key = (t.node x).key

omit [DecidableEq N] in
theorem SameShape.holds (h : SameShape t u) : Holds num u k p ↔ Holds num t k p := by
  cases p with
  | array i => rw [Holds, Holds, h.sizearray]
  | node x => rw [Holds, Holds, h.key]

omit [DecidableEq N] in
theorem SameShape.indexOf (h : SameShape t u) (p : Place) : indexOf u p = indexOf t p := by
  cases p with
  | array i => rfl
  | node x => rw [Lua.indexOf, Lua.indexOf, h.sizearray]

omit [DecidableEq N] in
theorem SameShape.places (h : SameShape t u) : places u = places t := by
  rw [Lua.places, Lua.places, h.sizearray, Table.sizenode, h.lsizenode, Table.sizenode]

omit [DecidableEq N] in
theorem SameShape.trans {w : Table N V} (h : SameShape t u) (h' : SameShape u w) : SameShape t w :=
  ⟨h'.sizearray.trans h.sizearray, h'.lsizenode.trans h.lsizenode, fun x => (h'.key x).trans (h.key x)⟩

omit [DecidableEq N] in
theorem SameShape.put (t : Table N V) (v : Option V) (p : Place) : SameShape t (t.put v p) := by
  cases p with
  | array i => exact ⟨rfl, rfl, fun _ => rfl⟩
  | node x => exact ⟨rfl, rfl, fun y => (put_node_key t v x y).1⟩

/-- The values after some assignments. -/
def after (m : Key N → Option V) (ops : List (Key N × Option V)) : Key N → Option V :=
  ops.foldl (fun m op => Function.update m op.1 op.2) m

theorem after_append (m : Key N → Option V) (ops ops' : List (Key N × Option V)) :
    after m (ops ++ ops') = after (after m ops) ops' := List.foldl_append

/-- A key that no assignment clears has a value at the end. -/
theorem after_ne_none {m : Key N → Option V} {ops : List (Key N × Option V)} (h : m k ≠ none)
    (hops : ∀ op ∈ ops, op.1 = k → op.2 ≠ none) : after m ops k ≠ none := by
  induction ops generalizing m with
  | nil => exact h
  | cons op ops ih =>
    refine ih ?_ fun op' hop' => hops op' (List.mem_cons_of_mem _ hop')
    show Function.update m op.1 op.2 k ≠ none
    by_cases hk : k = op.1
    · rw [hk, Function.update_self]
      exact hops op List.mem_cons_self hk.symm
    · rw [Function.update_of_ne hk]
      exact h

/-- Assignments to keys that have places change no place. -/
theorem Intact.assignAll_shape (h : Intact num t) {m : Key N → Option V} (hm : Represents num t m)
    (hn : 2 ^ MAXBITS < n) (ops : List (Key N × Option V))
    (hops : ∀ op ∈ ops, ∃ p, Holds num t op.1 p) :
    ∃ u, t.assignAll num n ops = some u ∧ SameShape t u ∧ Intact num u ∧
      Represents num u (after m ops) := by
  induction ops generalizing t m with
  | nil => exact ⟨t, rfl, ⟨rfl, rfl, fun _ => rfl⟩, h, hm⟩
  | cons op ops ih =>
    obtain ⟨p, hp⟩ := hops op List.mem_cons_self
    have hassign : t.assign num n op.1 op.2 = some (t.put op.2 p) := by
      simp [Table.assign, Lua.luaHSet, h.luaHGet_of_holds hn hp]
    obtain ⟨u, hu, hui, hum⟩ | ⟨hnone, -⟩ := h.assign hm hn op.1 op.2
    · obtain rfl : t.put op.2 p = u := Option.some.inj (hassign.symm.trans hu)
      have hshape := SameShape.put t op.2 p
      obtain ⟨w, hrun, hw, hwi, hwm⟩ := ih hui hum fun op' hop' => by
        obtain ⟨q, hq⟩ := hops op' (List.mem_cons_of_mem _ hop')
        exact ⟨q, hshape.holds.mpr hq⟩
      refine ⟨w, ?_, hshape.trans hw, hwi, hwm⟩
      rw [Table.assignAll, List.foldlM_cons, hassign]
      exact hrun
    · rw [hassign] at hnone
      cases hnone

/-! ### The traversal -/

section Traverse

variable {body : List (Key N × V) → List (Key N × Option V)} {visited : List (Key N × V)}
  {m : Key N → Option V}

/-- The assignments of the loop bodies after the first visits. -/
def executed (body : List (Key N × V) → List (Key N × Option V)) (visited : List (Key N × V)) :
    List (Key N × Option V) :=
  (List.range visited.length).flatMap fun i => body (visited.take (i + 1))

omit [DecidableEq N] in
theorem executed_concat (pair : Key N × V) :
    executed body (visited ++ [pair]) = executed body visited ++ body (visited ++ [pair]) := by
  rw [executed, List.length_append, List.length_singleton, List.range_succ, List.flatMap_append,
    List.flatMap_singleton, executed]
  congr 1
  · refine List.flatMap_congr fun i hi => ?_
    rw [List.take_append_of_le_length (List.mem_range.mp hi)]
  · rw [List.take_of_length_le (by simp)]

/-- The traversal of a table `t₀` has come to the places from `i` on. -/
structure Visiting (num : Numbers N) (t₀ : Table N V) (m : Key N → Option V)
    (body : List (Key N × V) → List (Key N × Option V)) (visited : List (Key N × V)) (i : Nat)
    (t : Table N V) : Prop where
  intact : Intact num t
  shape : SameShape t₀ t
  values : Represents num t (after m (executed body visited))
  last : (i = 0 ∧ visited.getLast? = none) ∨
    ∃ k v p, visited.getLast? = some (k, v) ∧ Holds num t k p ∧ i = indexOf t p + 1
  nodup : (visited.map Prod.fst).Nodup
  before : ∀ k ∈ visited.map Prod.fst, ∃ p, Holds num t k p ∧ indexOf t p < i
  valued : ∀ pre k v suf, visited = pre ++ (k, v) :: suf →
    after m (executed body pre) k = some v
  seen : ∀ k p, Holds num t k p → indexOf t p < i → m k ≠ none →
    (∀ op ∈ executed body visited, op.1 = k → op.2 ≠ none) → k ∈ visited.map Prod.fst

/-- The next place with a value is visited, and the body runs. -/
theorem Visiting.step {t₀ : Table N V} (h : Visiting num t₀ m body visited i t) (hn : 2 ^ MAXBITS < n)
    (hbody : ∀ visited, ∀ op ∈ body visited, (∃ p, Holds num t₀ op.1 p) ∨
      op.1 ∈ visited.map Prod.fst) {v : V} (hi : i ≤ j)
    (hpair : pairAt num t j = some (k, v)) (hskip : ∀ l, i ≤ l → l < j → pairAt num t l = none) :
    ∃ u, t.assignAll num n (body (visited ++ [(k, v)])) = some u ∧
      Visiting num t₀ m body (visited ++ [(k, v)]) (j + 1) u := by
  obtain ⟨p, hp, hindex, hentry⟩ := (h.intact.pairAt_iff k v).mp hpair
  have hkeys : (visited ++ [(k, v)]).map Prod.fst = visited.map Prod.fst ++ [k] := by
    rw [List.map_append]
    rfl
  obtain ⟨u, hrun, hshape, hu, hum⟩ := h.intact.assignAll_shape h.values hn
    (body (visited ++ [(k, v)])) fun op hop => by
      rcases hbody _ op hop with ⟨q, hq⟩ | hmem
      · exact ⟨q, h.shape.holds.mpr hq⟩
      · rw [hkeys, List.mem_append, List.mem_singleton] at hmem
        rcases hmem with hmem | heq
        · obtain ⟨q, hq, -⟩ := h.before op.1 hmem
          exact ⟨q, hq⟩
        · exact ⟨p, heq ▸ hp⟩
  have hindexes : ∀ q, indexOf u q = indexOf t q := hshape.indexOf
  refine ⟨u, hrun, hu, h.shape.trans hshape, ?_, .inr ⟨k, v, p, List.getLast?_concat,
    hshape.holds.mpr hp, by rw [hindexes, hindex]⟩, ?_, fun k' hk' => ?_, fun pre k' w suf heq => ?_,
    fun k' q hq hlt hk' hkept => ?_⟩
  · rw [executed_concat, after_append]
    exact hum
  · rw [hkeys]
    refine h.nodup.append (List.nodup_singleton k) (List.disjoint_singleton.mpr fun hmem => ?_)
    -- the keys that were visited have places before
    obtain ⟨q, hq, hlt⟩ := h.before k hmem
    rw [h.intact.holds_unique hq hp] at hlt
    omega
  · rw [hkeys, List.mem_append, List.mem_singleton] at hk'
    rcases hk' with hmem | rfl
    · obtain ⟨q, hq, hlt⟩ := h.before k' hmem
      exact ⟨q, hshape.holds.mpr hq, by rw [hindexes]; omega⟩
    · exact ⟨p, hshape.holds.mpr hp, by rw [hindexes]; omega⟩
  · -- the last visit is this one, and the others were before
    rcases List.eq_nil_or_concat suf with rfl | ⟨suf, pair, rfl⟩
    · obtain ⟨rfl, hlast⟩ := List.append_inj' heq rfl
      cases hlast
      exact (h.values k v).mp hentry
    · rw [List.concat_eq_append, ← List.cons_append, ← List.append_assoc] at heq
      exact h.valued pre k' w suf (List.append_inj' heq rfl).1
  · rw [hkeys, List.mem_append, List.mem_singleton]
    have hq' := hshape.holds.mp hq
    rw [hindexes] at hlt
    have hkept' : ∀ op ∈ executed body visited, op.1 = k' → op.2 ≠ none := fun op hop =>
      hkept op (by rw [executed_concat]; exact List.mem_append_left _ hop)
    rcases Nat.lt_trichotomy (indexOf t q) j with hqj | hqj | hqj
    · rcases Nat.lt_or_ge (indexOf t q) i with hqi | hqi
      · exact .inl (h.seen k' q hq' hqi hk' hkept')
      · -- a place that was skipped has no value
        obtain ⟨w, hw⟩ := Option.ne_none_iff_exists'.mp (after_ne_none hk' hkept')
        have hsome := (h.intact.pairAt_iff k' w).mpr ⟨q, hq', rfl, (h.values k' w).mpr hw⟩
        rw [hskip _ hqi hqj] at hsome
        cases hsome
    · right
      obtain rfl := indexOf_inj hq' hp (hqj.trans hindex.symm)
      exact holds_inj hq' hp
    · omega

/-- From the place where it is the traversal comes to an end. -/
theorem Visiting.run {t₀ : Table N V} (h : Visiting num t₀ m body visited i t) (hn : 2 ^ MAXBITS < n)
    (hbody : ∀ visited, ∀ op ∈ body visited, (∃ p, Holds num t₀ op.1 p) ∨
      op.1 ∈ visited.map Prod.fst) (passes : Nat)
    (hpasses : places t < passes + i) :
    ∃ visited' u i', traverse num n body passes visited t = some (visited', u) ∧
      Visiting num t₀ m body visited' i' u ∧
      ∀ l, i' ≤ l → l < places u → pairAt num u l = none := by
  induction passes generalizing visited i t with
  | zero =>
    -- no place is behind the last one
    obtain ⟨rfl, -⟩ | ⟨k, v, p, -, hp, rfl⟩ := h.last
    · omega
    · have := h.intact.indexOf_lt hp
      omega
  | succ passes ih =>
    have hnext : t.luaHNext num n (visited.getLast?.map Prod.fst) = some (t.pairFrom num i) := by
      obtain ⟨rfl, hlast⟩ | ⟨k, v, p, hlast, hp, rfl⟩ := h.last
      · rw [hlast]
        rfl
      · rw [hlast, Table.luaHNext, Option.map_some, h.intact.findindex hn hp]
        rfl
    rw [Lua.traverse.eq_2, hnext]
    rcases pairFrom_spec num t i with
      ⟨j, ⟨k, v⟩, hpair, hj, hlt, hat, hskip⟩ | ⟨hnone, hall⟩
    · obtain ⟨u, hrun, hu⟩ := h.step hn hbody hj hat hskip
      have hplaces : places u = places t := by
        rw [hu.shape.places, h.shape.places]
      simp only [hpair, Option.bind_eq_bind, Option.bind_some, hrun]
      exact ih hu (by omega)
    · simp only [hnone, Option.bind_eq_bind, Option.bind_some]
      exact ⟨visited, t, i, rfl, h, hall⟩

/-- The body `t[k] = nil`. -/
def clearLast (visited : List (Key N × V)) : List (Key N × Option V) :=
  (visited.getLast?.map fun pair => (pair.1, none)).toList

omit [DecidableEq N] in
theorem clearLast_mem {op : Key N × Option V} (h : op ∈ clearLast visited) :
    op.1 ∈ visited.map Prod.fst := by
  rw [clearLast, Option.mem_toList, Option.map_eq_some_iff] at h
  obtain ⟨pair, hpair, rfl⟩ := h
  exact List.mem_map_of_mem (List.mem_of_getLast? hpair)

/-- A traversal of a table, with assignments in its body to fields
that the table had or that were visited, also of nil, comes to an end.
It visits no key twice, each key with the value it has at the time,
and every key that has a value all the time. -/
theorem traversal_visits_each (num : Numbers N) (t : Table N V) (ops : List (Key N × Option V))
    (n : Nat) (hn : 2 ^ MAXBITS < n) (h : Made num n t ops)
    (body : List (Key N × V) → List (Key N × Option V))
    (hbody : ∀ visited, ∀ op ∈ body visited, contents ops op.1 ≠ none ∨
      op.1 ∈ visited.map Prod.fst) :
    ∃ visited u, traverse num n body (t.sizearray + t.sizenode + 1) [] t = some (visited, u) ∧
      (visited.map Prod.fst).Nodup ∧
      (∀ pre k v suf, visited = pre ++ (k, v) :: suf →
        contents (ops ++ executed body pre) k = some v) ∧
      ∀ k, contents ops k ≠ none → (∀ op ∈ executed body visited, op.1 = k → op.2 ≠ none) →
        k ∈ visited.map Prod.fst := by
  obtain ⟨ht, hm⟩ := h.spec hn
  have hplace : ∀ k, contents ops k ≠ none → ∃ p, Holds num t k p := by
    intro k hk
    obtain ⟨v, hv⟩ := Option.ne_none_iff_exists'.mp hk
    rcases (hm k v).mpr hv with ⟨i, hi, -⟩ | ⟨x, hx⟩
    · exact ⟨.array i, hi⟩
    · exact ⟨.node x, hx.2.1⟩
  have hstart : Visiting num t (contents ops) body [] 0 t :=
    ⟨ht, ⟨rfl, rfl, fun _ => rfl⟩, hm, .inl ⟨rfl, rfl⟩, List.nodup_nil,
      fun k hk => absurd hk List.not_mem_nil, fun pre k v suf heq => by simp at heq,
      fun k p _ hlt => absurd hlt (Nat.not_lt_zero _)⟩
  obtain ⟨visited, u, i, hrun, hu, hend⟩ := hstart.run hn
    (fun visited op hop => (hbody visited op hop).imp_left (hplace op.1)) (t.sizearray + t.sizenode + 1)
    (Nat.lt_succ_self _)
  refine ⟨visited, u, hrun, hu.nodup, fun pre k v suf heq => ?_, fun k hk hkept => ?_⟩
  · rw [contents, List.foldl_append]
    exact hu.valued pre k v suf heq
  · obtain ⟨p, hp⟩ := hplace k hk
    have hp' := hu.shape.holds.mpr hp
    rcases Nat.lt_or_ge (indexOf u p) i with hlt | hge
    · exact hu.seen k p hp' hlt hk hkept
    · -- the places that are left have no value
      obtain ⟨w, hw⟩ := Option.ne_none_iff_exists'.mp (after_ne_none hk hkept)
      have hsome := (hu.intact.pairAt_iff k w).mpr ⟨p, hp', rfl, (hu.values k w).mpr hw⟩
      rw [hend _ hge (hu.intact.indexOf_lt hp')] at hsome
      cases hsome

/-- `for k in pairs(t) do t[k] = nil end`, for the table `{ [1] = 5, [true] = 6 }`. -/
theorem traversal_visits_each_clearing :
    ∃ (t : Table Int Nat) (visited : List (Key Int × Nat)) (u : Table Int Nat),
      traverse integers (2 ^ MAXBITS + 1) clearLast (t.sizearray + t.sizenode + 1) [] t =
        some (visited, u) ∧
      (visited.map Prod.fst).Nodup := by
  obtain ⟨t, ht⟩ : ∃ t, Made (V := Nat) integers (2 ^ MAXBITS + 1) t
      [(.number 1, some 5), (.boolean true, some 6)] :=
    exists_made integers (Nat.lt_succ_self _) (by show 2 < 2 ^ 26; omega)
  obtain ⟨visited, u, hrun, hnodup, -⟩ := traversal_visits_each integers t _ _
    (Nat.lt_succ_self _) ht clearLast fun _ _ hop => .inr (clearLast_mem hop)
  exact ⟨t, visited, u, hrun, hnodup⟩

end Traverse

end Alcor.Proofs.Lua
