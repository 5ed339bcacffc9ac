import Alcor.Proofs.Lua.Insert

/-!
# `Alcor.Proofs.Lua.Assign`: a table is a finite map

A table that was made by `luaH_new` and any assignments represents the
map that these assignments make.

* `Intact.luaHSet`: `luaH_set` gives a place for every key, after at most
  one rehash, and changes no entry. It fails only when there are more
  keys than a table can have.
* `Intact.assign` is one assignment, `Intact.assignAll` a program.
* `assignments_refine_map`: after any assignments each key has the value
  that was assigned to it last.
* `rehash_sizes`: after a rehash the array part has the largest size of
  which more than half is in use.
-/

set_option autoImplicit false

namespace Alcor.Proofs.Lua

open Alcor.Lua

variable {N V : Type} {num : Numbers N} {t u : Table N V} {k : Key N} {p : Place} {n : Nat}

/-! ### Places -/

/-- The place is that of the key. -/
def Holds (num : Numbers N) (t : Table N V) (k : Key N) : Place → Prop
  | .array i => arraySlot num t.sizearray k = some i
  | .node x  => (t.node x).key = some k

/-- What a node has but its value stays. -/
theorem put_node_key (t : Table N V) (v : Option V) (x y : Nat) :
    ((t.put v (.node x)).node y).key = (t.node y).key ∧
      ((t.put v (.node x)).node y).next = (t.node y).next := by
  by_cases hy : y = x
  · rw [hy, Table.put, setNode_self]
    exact ⟨rfl, rfl⟩
  · rw [Table.put, setNode_ne hy]
    exact ⟨rfl, rfl⟩

/-- A value at the place of a key keeps the invariant. -/
theorem Intact.put (h : Intact num t) (hp : Holds num t k p) (v : Option V) :
    Intact num (t.put v p) := by
  cases p with
  | array i =>
    exact ⟨h.dummy, h.sizearray_le, h.lsizenode_le, h.unused, h.beyond, h.keyed, h.before, h.ranked,
      h.distinct, h.head, h.reach, h.array, h.free, h.lastfree_le⟩
  | node x =>
    have hkey := fun y => (put_node_key t v x y).1
    have hlink : Link (t.put v (.node x)) = Link t := by
      funext a b
      rw [Link, Link, nextOf, (put_node_key t v x a).2, nextOf]
    have hmain : ∀ y, (t.put v (.node x)).mainOf num y = t.mainOf num y := fun y =>
      mainOf_congr rfl (hkey y)
    have hused : ∀ y, (t.node y).key = none → (t.put v (.node x)).node y = t.node y := by
      intro y hy
      refine setNode_ne ?_ _
      rintro rfl
      exact Option.some_ne_none k (hp.symm.trans hy)
    refine ⟨fun hd => ?_, h.sizearray_le, h.lsizenode_le, fun y hy => ?_, fun y hy => ?_,
      fun y z hyz => ?_, hlink ▸ h.before, hlink ▸ h.ranked, fun y z k' hy hz => ?_, fun y m hm => ?_,
      fun y m hm => ?_, fun y k' hy => ?_, fun hd y hy hnone => ?_, h.lastfree_le⟩
    · obtain ⟨hsize, hlast, hempty⟩ := h.dummy hd
      refine ⟨hsize, hlast, ?_⟩
      rw [hused 0 (by rw [hempty]), hempty]
    · rw [hkey] at hy
      rw [hused y hy]
      exact h.unused y hy
    · rw [hkey]
      exact h.beyond y hy
    · rw [hkey]
      exact h.keyed y z (hlink ▸ hyz)
    · exact h.distinct y z k' (hkey y ▸ hy) (hkey z ▸ hz)
    · rw [IsHead, hmain]
      exact h.head y m (hmain y ▸ hm)
    · rw [hlink]
      exact h.reach y m (hmain y ▸ hm)
    · exact h.array y k' (hkey y ▸ hy)
    · exact h.free hd y hy (hkey y ▸ hnone)

/-- The key has the value that is put at its place, and the others have theirs. -/
theorem Intact.put_entries (h : Intact num t) (hp : Holds num t k p) (v : Option V) (k' : Key N)
    (v' : V) : HasEntry num (t.put v p) k' v' ↔
      (k' = k ∧ v = some v') ∨ (k' ≠ k ∧ HasEntry num t k' v') := by
  cases p with
  | array i =>
    have hother : ∀ j, j ≠ i → (t.put v (.array i)).array j = t.array j := fun j hj =>
      Function.update_of_ne hj _ _
    have hself : (t.put v (.array i)).array i = v := Function.update_self _ _ _
    -- a key of the array part is in no node
    have hnode : ∀ x, (t.node x).key ≠ some k := fun x hx => by
      rw [Holds, h.array x k hx] at hp
      cases hp
    constructor
    · rintro (⟨j, hj, hv⟩ | ⟨x, hx⟩)
      · by_cases hji : j = i
        · subst hji
          exact .inl ⟨arraySlot_inj hj hp, hself.symm.trans hv⟩
        · refine .inr ⟨?_, .inl ⟨j, hj, (hother j hji).symm.trans hv⟩⟩
          rintro rfl
          exact hji (Option.some.inj (hj.symm.trans hp))
      · refine .inr ⟨?_, .inr ⟨x, hx⟩⟩
        rintro rfl
        exact hnode x hx.2.1
    · rintro (⟨rfl, rfl⟩ | ⟨hne, ⟨j, hj, hv⟩ | hx⟩)
      · exact .inl ⟨i, hp, hself⟩
      · refine .inl ⟨j, hj, (hother j ?_).trans hv⟩
        rintro rfl
        exact hne (arraySlot_inj hj hp)
      · exact .inr hx
  | node x =>
    have hother : ∀ y, y ≠ x → (t.put v (.node x)).node y = t.node y := fun y hy => setNode_ne hy _
    have hself : (t.put v (.node x)).node x = { t.node x with val := v } := setNode_self _ _
    have hslot : arraySlot num t.sizearray k = none := h.array x k hp
    constructor
    · rintro (⟨j, hj, hv⟩ | ⟨y, hlt, hkey, hv⟩)
      · refine .inr ⟨?_, .inl ⟨j, hj, hv⟩⟩
        rintro rfl
        exact Option.some_ne_none j (hj.symm.trans hslot)
      · by_cases hy : y = x
        · rw [hy, hself] at hkey hv
          exact .inl ⟨Option.some.inj (hkey.symm.trans hp), hv⟩
        · rw [hother y hy] at hkey hv
          refine .inr ⟨?_, .inr ⟨y, hlt, hkey, hv⟩⟩
          rintro rfl
          exact hy (h.distinct y x k' hkey hp)
    · rintro (⟨rfl, rfl⟩ | ⟨hne, ⟨j, hj, hv⟩ | ⟨y, hlt, hkey, hv⟩⟩)
      · refine .inr ⟨x, h.lt hp, ?_, ?_⟩
        · rw [hself]
          exact hp
        · rw [hself]
      · exact .inl ⟨j, hj, hv⟩
      · refine .inr ⟨y, hlt, ?_⟩
        rw [hother y ?_]
        · exact ⟨hkey, hv⟩
        · rintro rfl
          exact hne (Option.some.inj (hkey.symm.trans hp))

/-! ### A rehash, and a place after it -/

/-- The table without a free place has none before `lastfree` either. -/
theorem Intact.getfreepos_none (h : Intact num t) (hnone : t.getfreepos.1 = none) :
    Intact num t.getfreepos.2 ∧ t.getfreepos.2 = { t with lastfree := 0 } := by
  obtain ⟨z, hz, -⟩ | ⟨hz, hall⟩ := freeBelow_spec t t.lastfree
  · rw [Table.getfreepos, hz] at hnone
    cases hnone
  · have heq : t.getfreepos.2 = { t with lastfree := 0 } := by rw [Table.getfreepos, hz]
    rw [heq]
    refine ⟨⟨fun hd => ?_, h.sizearray_le, h.lsizenode_le, h.unused, h.beyond, h.keyed, h.before,
      h.ranked, h.distinct, h.head, h.reach, h.array, fun hd x hx hkey => ?_, Nat.zero_le _⟩, rfl⟩
    · obtain ⟨hsize, -, hempty⟩ := h.dummy hd
      exact ⟨hsize, rfl, hempty⟩
    · exact absurd hkey (hall x (h.free hd x hx hkey))

/-- A table after a resize has the invariant. -/
theorem Resized.intact {nasize nhsize : Nat} (h : Resized num t nasize nhsize u)
    (hasize : nasize ≤ MAXASIZE) (hmax : nhsize ≤ 2 ^ MAXBITS) : Intact num u := by
  obtain ⟨rest, hrest⟩ := h.rehashed
  refine hrest.intact (h.sizearray ▸ hasize) ?_ fun x k hk => ?_
  · have hle : 2 ^ u.lsizenode ≤ 2 ^ MAXBITS := by
      have := h.sizenode
      rw [Table.sizenode] at this
      rw [this]
      exact roomOf_le hmax
    exact (Nat.pow_le_pow_iff_right (by decide)).mp hle
  · have hlt : x < u.sizenode := by
      by_contra hle
      rw [hrest.beyond x (Nat.le_of_not_lt hle)] at hk
      cases hk
    refine h.sound.array x k hlt hk fun hnone => ?_
    rw [(hrest.linking.both x).mpr hnone] at hk
    cases hk

/-- After a rehash for a key that is not for the array part a node is free. -/
theorem Resized.exists_free {size : Nat} (hsize : t.sizearray < 2 ^ 31)
    (h : Resized num t size ((keysOf num t).length + 1 - within num size (keysOf num t ++ [k])) u)
    (hnew : ∀ x, (u.node x).key ≠ some k) (hslot : arraySlot num u.sizearray k = none) :
    ∃ x, x < u.sizenode ∧ (u.node x).key = none := by
  obtain ⟨rest, hrest⟩ := h.rehashed
  by_contra hno
  have hfull : ∀ x ∈ List.range u.sizenode, ∃ k v, At u (· < u.sizenode) x k v := by
    intro x hx
    have hlt := List.mem_range.mp hx
    obtain ⟨k', hk'⟩ := Option.ne_none_iff_exists'.mp fun hnone => hno ⟨x, hlt, hnone⟩
    obtain ⟨v, hv⟩ := Option.ne_none_iff_exists'.mp fun hnone =>
      hno ⟨x, hlt, (hrest.linking.both x).mpr hnone⟩
    exact ⟨k', v, hlt, hk', hv⟩
  obtain ⟨l, hl, hlen, hmem⟩ := hrest.single.exists_keys List.nodup_range hfull
  have hnotin : k ∉ l := fun hc => by
    obtain ⟨x, -, v, hat⟩ := hmem k hc
    exact hnew x hat.2.1
  -- the keys of the nodes and the new one are not for the array part
  have hsub : k :: l ⊆ (keysOf num t ++ [k]).filter fun k => (arraySlot num size k).isNone := by
    intro k' hk'
    rw [List.mem_filter]
    rcases List.mem_cons.mp hk' with rfl | hk'
    · exact ⟨List.mem_append_right _ (List.mem_singleton_self _), by
        rw [← h.sizearray, hslot]
        rfl⟩
    · obtain ⟨x, -, v, hat⟩ := hmem k' hk'
      have hentry := (h.held k' v).mp (.inr ⟨x, hat⟩)
      refine ⟨List.mem_append_left _ ((mem_keysOf hsize).mpr ⟨v, hentry⟩), ?_⟩
      rw [← h.sizearray,
        h.sound.array x k' hat.1 hat.2.1 (by rw [hat.2.2]; exact Option.some_ne_none v)]
      rfl
  have hle := (List.subperm_of_subset (List.nodup_cons.mpr ⟨hnotin, hl⟩) hsub).length_le
  have hadd := within_add num size (keysOf num t ++ [k])
  have hroom := le_roomOf ((keysOf num t).length + 1 - within num size (keysOf num t ++ [k]))
  rw [← h.sizenode] at hroom
  rw [List.length_cons, hlen, List.length_range] at hle
  rw [List.length_append, List.length_singleton] at hadd
  omega

theorem Intact.sizenode_le (h : Intact num t) : t.sizenode ≤ 2 ^ MAXBITS :=
  Nat.pow_le_pow_right (by decide) h.lsizenode_le

section Set

variable [DecidableEq N]

/-- `luaH_set` with a table that has a place for the key, or a free one. -/
theorem Intact.luaHSet_room (h : Intact num t) (hn : t.sizenode ≤ n) (calls : Nat)
    (hroom : (∀ x, (t.node x).key ≠ some k) → arraySlot num t.sizearray k = none →
      t.full num k = false) :
    ∃ p u, luaHSet num n k (calls + 1) t = some (p, u) ∧ Intact num u ∧ Holds num u k p ∧
      (∀ k' v, HasEntry num u k' v ↔ HasEntry num t k' v) ∧
      u.lsizenode = t.lsizenode ∧ u.sizearray = t.sizearray := by
  obtain ⟨i, hslot, hget⟩ | ⟨hslot, ⟨x, hx, hget⟩ | ⟨hnew, hget⟩⟩ := h.luaHGet hn k
  · exact ⟨.array i, t, by simp [luaHSet, hget], h, hslot, fun _ _ => Iff.rfl, rfl, rfl⟩
  · exact ⟨.node x, t, by simp [luaHSet, hget], h, hx, fun _ _ => Iff.rfl, rfl, rfl⟩
  · have hnot := hroom hnew hslot
    obtain ⟨i, u, hnewkey, hu⟩ := h.newkey hn hnew hslot hnot
    exact ⟨.node i, u, by simp [luaHSet, hget, hnot, hnewkey], hu.intact, hu.key, hu.entries,
      hu.lsizenode, hu.sizearray⟩

/-- The key is not there, and no place is free: a rehash chooses the sizes for the keys and the new
one, and then there is a place, or there are too many keys. -/
theorem Intact.luaHSet_full (h : Intact num t) (hn : 2 ^ MAXBITS < n)
    (hget : t.luaHGet num n k = some none) (hnew : ∀ x, (t.node x).key ≠ some k)
    (hslot : arraySlot num t.sizearray k = none) (hfull : t.full num k = true) :
    (∃ p u, luaHSet num n k 2 t = some (p, u) ∧ Intact num u ∧ Holds num u k p ∧
      (∀ k' v, HasEntry num u k' v ↔ HasEntry num t k' v) ∧
      Chosen num (keysOf num t ++ [k]) u.sizearray ∧
      u.sizenode = roomOf ((keysOf num t).length + 1 -
        within num u.sizearray (keysOf num t ++ [k]))) ∨
    (luaHSet num n k 2 t = none ∧ 2 ^ MAXBITS ≤ (keysOf num t).length) := by
  have hnone : t.getfreepos.1 = none := by
    rw [Table.full, Bool.and_eq_true, Option.isNone_iff_eq_none] at hfull
    exact hfull.2
  obtain ⟨h', heq⟩ := h.getfreepos_none hnone
  rw [heq] at h'
  have hkeys : keysOf num { t with lastfree := 0 } = keysOf num t := rfl
  have hnotin : k ∉ keysOf num { t with lastfree := 0 } := by
    rw [mem_keysOf h'.sound.sizearray_lt]
    rintro ⟨v, ⟨i, hi, -⟩ | ⟨x, hx⟩⟩
    · exact Option.some_ne_none i (hi.symm.trans hslot)
    · exact hnew x hx.2.1
  obtain ⟨size, hchosen, ⟨u, hrun, hu, hroom⟩ | ⟨hrun, hmany⟩⟩ :=
    h'.sound.rehash h.sizearray_le hnotin hn
  · have hui : Intact num u := hu.intact hchosen.le hroom
    obtain ⟨rest, hrest⟩ := hu.rehashed
    have hfree : (∀ x, (u.node x).key ≠ some k) → arraySlot num u.sizearray k = none →
        u.full num k = false := by
      intro hnew' hslot'
      obtain ⟨i, hi, -⟩ := hu.sound.getfreepos hrest.linking.real
        (hu.exists_free h'.sound.sizearray_lt hnew' hslot')
      rw [Table.full, hi]
      exact Bool.and_false _
    -- the second call adds a node to the table, or none
    obtain ⟨p, w, hset, hw, hp, hentries, hsizes⟩ := hui.luaHSet_room
      (Nat.le_of_lt (Nat.lt_of_le_of_lt hui.sizenode_le hn)) 0 hfree
    refine .inl ⟨p, w, ?_, hw, hp, fun k' v => (hentries k' v).trans (hu.held k' v), ?_, ?_⟩
    · simp only [Lua.luaHSet, hget, hfull, heq, hrun, Option.bind_eq_bind, Option.bind_some,
        if_true]
      simpa [Lua.luaHSet] using hset
    · rw [hsizes.2, hu.sizearray]
      exact hchosen
    · rw [Table.sizenode, hsizes.1, hsizes.2, hu.sizearray]
      exact hu.sizenode
  · refine .inr ⟨?_, hkeys ▸ hmany⟩
    simp only [Lua.luaHSet, hget, hfull, heq, hrun, Option.bind_eq_bind, Option.bind_some, if_true]
    rfl

/-- `luaH_set` gives the place of the key, and changes no entry, or there are too many keys. -/
theorem Intact.luaHSet (h : Intact num t) (hn : 2 ^ MAXBITS < n) (k : Key N) :
    (∃ p u, luaHSet num n k 2 t = some (p, u) ∧ Intact num u ∧ Holds num u k p ∧
      ∀ k' v, HasEntry num u k' v ↔ HasEntry num t k' v) ∨
    (luaHSet num n k 2 t = none ∧ 2 ^ MAXBITS ≤ (keysOf num t).length) := by
  have hle : t.sizenode ≤ n := Nat.le_of_lt (Nat.lt_of_le_of_lt h.sizenode_le hn)
  have hroom : ((∀ x, (t.node x).key ≠ some k) → arraySlot num t.sizearray k = none →
      t.full num k = false) → ∃ p u, Lua.luaHSet num n k 2 t = some (p, u) ∧ Intact num u ∧
        Holds num u k p ∧ ∀ k' v, HasEntry num u k' v ↔ HasEntry num t k' v := by
    intro hnot
    obtain ⟨p, u, hset, hu, hp, hentries, -⟩ := h.luaHSet_room hle 1 hnot
    exact ⟨p, u, hset, hu, hp, hentries⟩
  cases hfull : t.full num k with
  | false => exact .inl (hroom fun _ _ => hfull)
  | true =>
    obtain ⟨i, hslot, -⟩ | ⟨hslot, ⟨x, hx, -⟩ | ⟨hnew, hget⟩⟩ := h.luaHGet hle k
    · exact .inl (hroom fun _ hno => absurd (hslot.symm.trans hno) (Option.some_ne_none i))
    · exact .inl (hroom fun hno _ => absurd hx (hno x))
    · refine (h.luaHSet_full hn hget hnew hslot hfull).imp_left ?_
      rintro ⟨p, u, hset, hu, hp, hentries, -⟩
      exact ⟨p, u, hset, hu, hp, hentries⟩

end Set

/-! ### Runs -/

/-- What a program assigns last to each key. -/
def contents [DecidableEq N] (ops : List (Key N × Option V)) : Key N → Option V :=
  ops.foldl (fun m op => Function.update m op.1 op.2) fun _ => none

/-- There are as many keys as a table can have. -/
def Crowded (m : Key N → Option V) : Prop :=
  ∃ l : List (Key N), l.Nodup ∧ l.length = 2 ^ MAXBITS ∧ ∀ k ∈ l, m k ≠ none

/-- The table has the values of a map. -/
def Represents (num : Numbers N) (t : Table N V) (m : Key N → Option V) : Prop :=
  ∀ k v, HasEntry num t k v ↔ m k = some v

theorem Represents.crowded {m : Key N → Option V} (hm : Represents num t m) (h : Intact num t)
    (hcount : 2 ^ MAXBITS ≤ (keysOf num t).length) : Crowded m := by
  have hlt := h.sound.sizearray_lt
  refine ⟨(keysOf num t).take (2 ^ MAXBITS), (nodup_keysOf h.sound.single hlt).take,
    List.length_take_of_le hcount, fun k hk => ?_⟩
  obtain ⟨v, hv⟩ := (mem_keysOf hlt).mp (List.mem_of_mem_take hk)
  rw [(hm k v).mp hv]
  exact Option.some_ne_none v

/-- A new table is empty. -/
theorem luaHNew_spec (num : Numbers N) {narray nhash : Nat} (harray : narray ≤ MAXASIZE)
    (hhash : nhash ≤ 2 ^ MAXBITS) :
    ∃ t : Table N V, Table.luaHNew narray nhash = some t ∧ Intact num t ∧
      Represents num t fun _ => none := by
  have hempty : ∀ (lsize : Nat) (dummy : Bool) (last : Nat), lsize ≤ MAXBITS → last ≤ 2 ^ lsize →
      (dummy = true → lsize = 0 ∧ last = 0) → (dummy = false → last = 2 ^ lsize) →
      Intact num (⟨fun _ => {}, lsize, dummy, last, fun _ => none, narray⟩ : Table N V) ∧
        Represents num (⟨fun _ => {}, lsize, dummy, last, fun _ => none, narray⟩ : Table N V)
          fun _ => none := by
    intro lsize dummy last hlsize hlast hdummy hreal
    refine ⟨⟨fun hd => ⟨(hdummy hd).1, (hdummy hd).2, rfl⟩, harray, hlsize, fun _ _ => rfl,
      fun _ _ => rfl, fun _ _ h => (by cases h), fun _ _ _ h => (by cases h),
      ⟨fun _ => 0, fun _ _ h => (by cases h)⟩, fun _ _ _ h => (by cases h), fun _ _ h => (by cases h),
      fun _ _ h => (by cases h), fun _ _ h => (by cases h), fun hd x hx _ => hreal hd ▸ hx, hlast⟩,
      fun k v => ⟨?_, fun h => (by cases h)⟩⟩
    rintro (⟨i, -, hv⟩ | ⟨x, -, -, hv⟩)
    · cases hv
    · cases hv
  have harr : (fun i => if i < 0 then (none : Option V) else none) = fun _ => none := by
    funext i
    exact ite_self none
  rw [Table.luaHNew, Table.resizenodevector]
  by_cases hzero : nhash = 0
  · rw [if_pos hzero]
    have hnew := hempty 0 true 0 (Nat.zero_le _) (Nat.zero_le _) (fun _ => ⟨rfl, rfl⟩)
      fun hd => (by cases hd)
    rw [← harr] at hnew
    exact ⟨_, rfl, hnew⟩
  · have hle : Nat.clog 2 nhash ≤ MAXBITS := (Nat.clog_le_iff_le_pow (by decide)).mpr hhash
    have hnew := hempty (Nat.clog 2 nhash) false (2 ^ Nat.clog 2 nhash) hle (Nat.le_refl _)
      (fun hd => (by cases hd)) fun _ => rfl
    have hnode : (fun i => if i < 0 ∧ i < 2 ^ Nat.clog 2 nhash then ({} : Node N V) else {}) =
        fun _ => {} := by
      funext i
      exact ite_self _
    rw [← harr, ← hnode] at hnew
    rw [if_neg hzero]
    simp only
    rw [if_neg (Nat.not_lt.mpr hle)]
    exact ⟨_, rfl, hnew⟩

section Runs

variable [DecidableEq N]
variable {ops : List (Key N × Option V)} {m : Key N → Option V}

/-- An assignment: the key has the value, and the others have theirs. -/
theorem Intact.assign (h : Intact num t) (hm : Represents num t m) (hn : 2 ^ MAXBITS < n)
    (k : Key N) (v : Option V) :
    (∃ u, t.assign num n k v = some u ∧ Intact num u ∧ Represents num u (Function.update m k v)) ∨
      (t.assign num n k v = none ∧ Crowded m) := by
  obtain ⟨p, u, hset, hu, hp, hentries⟩ | ⟨hset, hmany⟩ := h.luaHSet hn k
  · refine .inl ⟨u.put v p, by simp [Table.assign, hset], hu.put hp v, fun k' v' => ?_⟩
    rw [hu.put_entries hp, hentries, hm]
    by_cases hk : k' = k
    · rw [hk, Function.update_self]
      simp
    · rw [Function.update_of_ne hk]
      simp [hk]
  · exact .inr ⟨by simp [Table.assign, hset], hm.crowded h hmany⟩

/-- A program on a table that represents a map. -/
theorem Intact.assignAll (h : Intact num t) (hm : Represents num t m) (hn : 2 ^ MAXBITS < n)
    (ops : List (Key N × Option V)) :
    (∃ u, t.assignAll num n ops = some u ∧ Intact num u ∧
        Represents num u (ops.foldl (fun m op => Function.update m op.1 op.2) m)) ∨
      (t.assignAll num n ops = none ∧ ∃ pre suf, ops = pre ++ suf ∧
        Crowded (pre.foldl (fun m op => Function.update m op.1 op.2) m)) := by
  induction ops generalizing t m with
  | nil => exact .inl ⟨t, rfl, h, hm⟩
  | cons op ops ih =>
    have hcons : t.assignAll num n (op :: ops) =
        (t.assign num n op.1 op.2).bind (·.assignAll num n ops) := by
      rw [Table.assignAll, List.foldlM_cons]
      rfl
    obtain ⟨u, hassign, hu, hmu⟩ | ⟨hassign, hcrowded⟩ := h.assign hm hn op.1 op.2
    · rw [hcons, hassign, Option.bind_some]
      refine (ih hu hmu).imp_right ?_
      rintro ⟨hrun, pre, suf, rfl, hcrowded⟩
      exact ⟨hrun, op :: pre, suf, rfl, hcrowded⟩
    · rw [hcons, hassign]
      exact .inr ⟨rfl, [], op :: ops, rfl, hcrowded⟩

/-- The tables that programs make, with what was assigned. -/
def Made (num : Numbers N) (n : Nat) (t : Table N V) (ops : List (Key N × Option V)) : Prop :=
  ∃ narray nhash t₀, narray ≤ MAXASIZE ∧ nhash ≤ 2 ^ MAXBITS ∧
    Table.luaHNew narray nhash = some t₀ ∧ t₀.assignAll num n ops = some t

theorem Made.spec (h : Made num n t ops) (hn : 2 ^ MAXBITS < n) :
    Intact num t ∧ Represents num t (contents ops) := by
  obtain ⟨narray, nhash, t₀, harray, hhash, hnew, hrun⟩ := h
  obtain ⟨t₁, hnew', ht, hempty⟩ := luaHNew_spec (V := V) num harray hhash
  obtain rfl : t₀ = t₁ := Option.some.inj (hnew.symm.trans hnew')
  obtain ⟨u, hrun', hu, hm⟩ | ⟨hrun', -⟩ := ht.assignAll hempty hn ops
  · obtain rfl : t = u := Option.some.inj (hrun.symm.trans hrun')
    exact ⟨hu, hm⟩
  · rw [hrun] at hrun'
    cases hrun'

theorem Intact.get (h : Intact num t) (hm : Represents num t m) (hn : 2 ^ MAXBITS < n)
    (k : Key N) : t.get num n k = some (m k) := by
  obtain ⟨r, hr, hiff⟩ := h.sound.get (Nat.le_of_lt (Nat.lt_of_le_of_lt h.sizenode_le hn)) k
  rw [hr]
  exact congrArg some (Option.ext fun v => (hiff v).trans (hm k v))

/-- **A table is a map**: after any assignments to a new table, each
key has the value that was assigned to it last. An assignment fails
only when there are as many keys as a table can have. By induction on
the assignments; one of them may resize the table. -/
theorem assignments_refine_map (num : Numbers N) (narray nhash : Nat) (harray : narray ≤ MAXASIZE)
    (hhash : nhash ≤ 2 ^ MAXBITS) (ops : List (Key N × Option V)) (n : Nat)
    (hn : 2 ^ MAXBITS < n) :
    ∃ t, Table.luaHNew narray nhash = some t ∧
      ((∃ u, t.assignAll num n ops = some u ∧ ∀ k, u.get num n k = some (contents ops k)) ∨
        (t.assignAll num n ops = none ∧ ∃ pre suf, ops = pre ++ suf ∧ Crowded (contents pre))) := by
  obtain ⟨t, hnew, ht, hempty⟩ := luaHNew_spec (V := V) num harray hhash
  refine ⟨t, hnew, (ht.assignAll hempty hn ops).imp_left ?_⟩
  rintro ⟨u, hrun, hu, hm⟩
  exact ⟨u, hrun, hu.get hm hn⟩

theorem mem_of_contents_ne_none {k : Key N} (h : contents ops k ≠ none) : k ∈ ops.map Prod.fst := by
  induction ops using List.reverseRecOn with
  | nil => exact absurd rfl h
  | append_singleton ops op ih =>
    rw [List.map_append, List.mem_append]
    by_cases hk : k = op.1
    · exact .inr (List.mem_singleton.mpr hk)
    · refine .inl (ih ?_)
      rwa [contents, List.foldl_append, List.foldl_cons, List.foldl_nil, Function.update_of_ne hk] at h

/-- A short program does not assign to so many keys. -/
theorem not_crowded (h : ops.length < 2 ^ MAXBITS) : ¬ Crowded (contents ops) := by
  rintro ⟨l, hl, hlen, hmem⟩
  have hle := (List.subperm_of_subset hl fun k hk => mem_of_contents_ne_none (hmem k hk)).length_le
  rw [List.length_map] at hle
  omega

theorem exists_made (num : Numbers N) (hn : 2 ^ MAXBITS < n) (h : ops.length < 2 ^ MAXBITS) :
    ∃ t, Made num n t ops := by
  obtain ⟨t₀, hnew, ht, hempty⟩ :=
    luaHNew_spec (V := V) num (Nat.zero_le MAXASIZE) (Nat.zero_le (2 ^ MAXBITS))
  obtain ⟨t, hrun, -⟩ | ⟨-, pre, suf, rfl, hcrowded⟩ := ht.assignAll hempty hn ops
  · exact ⟨t, 0, 0, t₀, Nat.zero_le _, Nat.zero_le _, hnew, hrun⟩
  · rw [List.length_append] at h
    exact absurd hcrowded (not_crowded (by omega))

end Runs

/-- `t = {}; t[true] = 7; t[1] = 5; t[true] = nil`. -/
theorem assignments_refine_map_small :
    ∃ t u, Table.luaHNew 0 0 = some t ∧
      t.assignAll integers (2 ^ MAXBITS + 1)
        [(.boolean true, some 7), (.number 1, some 5), (.boolean true, none)] = some u ∧
      u.get integers (2 ^ MAXBITS + 1) (.number 1) = some (some 5) ∧
      u.get integers (2 ^ MAXBITS + 1) (.boolean true) = some none := by
  obtain ⟨t, hnew, ⟨u, hrun, hget⟩ | ⟨-, pre, suf, hops, hcrowded⟩⟩ :=
    assignments_refine_map integers 0 0 (Nat.zero_le _) (Nat.zero_le _)
      [(.boolean true, some 7), (.number 1, some 5), (.boolean true, none)] (2 ^ MAXBITS + 1)
      (Nat.lt_succ_self _)
  · exact ⟨t, u, hnew, hrun, hget _, hget _⟩
  · refine absurd hcrowded (not_crowded ?_)
    have hlen := congrArg List.length hops
    rw [List.length_append] at hlen
    exact Nat.lt_of_le_of_lt (show pre.length ≤ 3 by simp at hlen; omega) (by decide)

/-! ### The sizes after a rehash -/

theorem within_perm {ks ls : List (Key N)} (h : ks.Perm ls) (size : Nat) :
    within num size ks = within num size ls := h.countP_eq _

/-- When a key comes that the table does not have and no node is free, the array part gets the
largest size, a power of two, of which more than half is in use by the keys and the new one, and
the hash part the least power of two with room for all others. -/
theorem rehash_sizes [DecidableEq N] (num : Numbers N) (t : Table N V) (k : Key N) (n : Nat)
    (h : Intact num t) (hn : 2 ^ MAXBITS < n) (hget : t.luaHGet num n k = some none)
    (hfull : t.full num k = true) (ks : List (Key N)) (hks : ks.Nodup)
    (hmem : ∀ k', k' ∈ ks ↔ k' = k ∨ ∃ v, HasEntry num t k' v) (p : Place) (u : Table N V)
    (hset : luaHSet num n k 2 t = some (p, u)) :
    Holds num u k p ∧ Chosen num ks u.sizearray ∧
      u.sizenode = 2 ^ Nat.clog 2 (ks.length - within num u.sizearray ks) := by
  have hle : t.sizenode ≤ n := Nat.le_of_lt (Nat.lt_of_le_of_lt h.sizenode_le hn)
  obtain ⟨i, -, hget'⟩ | ⟨hslot, ⟨x, -, hget'⟩ | ⟨hnew, -⟩⟩ := h.luaHGet hle k
  · rw [hget] at hget'
    cases hget'
  · rw [hget] at hget'
    cases hget'
  · have hlt := h.sound.sizearray_lt
    have hnotin : k ∉ keysOf num t := by
      rw [mem_keysOf hlt]
      rintro ⟨v, ⟨i, hi, -⟩ | ⟨x, hx⟩⟩
      · exact Option.some_ne_none i (hi.symm.trans hslot)
      · exact hnew x hx.2.1
    have hperm : ks.Perm (keysOf num t ++ [k]) := by
      refine (List.perm_ext_iff_of_nodup hks ((nodup_keysOf h.sound.single hlt).append
        (List.nodup_singleton k) (List.disjoint_singleton.mpr hnotin))).mpr fun k' => ?_
      rw [hmem, List.mem_append, mem_keysOf hlt, List.mem_singleton, or_comm]
    have hlen : ks.length = (keysOf num t).length + 1 := by
      rw [hperm.length_eq, List.length_append, List.length_singleton]
    obtain ⟨p', u', hset', -, hp, -, hchosen, hnodes⟩ | ⟨hset', -⟩ :=
      h.luaHSet_full hn hget hnew hslot hfull
    · cases hset.symm.trans hset'
      refine ⟨hp, ⟨?_, fun m hm hlt => ?_⟩, ?_⟩
      · refine hchosen.half.imp_right ?_
        rintro ⟨m, hm, hsize, hhalf⟩
        exact ⟨m, hm, hsize, within_perm hperm _ ▸ hhalf⟩
      · rw [within_perm hperm]
        exact hchosen.largest m hm hlt
      · rw [hnodes, hlen, within_perm hperm, roomOf]
        split
        · rfl
        · next hzero => rw [Nat.clog_of_right_le_one (by omega)]
    · rw [hset] at hset'
      cases hset'

/-- The first key of a new table. -/
theorem rehash_sizes_first :
    ∃ (t : Table Int Nat) (p : Place) (u : Table Int Nat), Table.luaHNew 0 0 = some t ∧
      luaHSet integers (2 ^ MAXBITS + 1) (.number 1) 2 t = some (p, u) ∧
      Holds integers u (.number 1) p ∧ Chosen integers [.number 1] u.sizearray ∧
      u.sizenode = 2 ^ Nat.clog 2 (1 - within integers u.sizearray [.number 1]) := by
  obtain ⟨t, hnew, ht, hempty⟩ :=
    luaHNew_spec (V := Nat) integers (Nat.zero_le MAXASIZE) (Nat.zero_le (2 ^ MAXBITS))
  obtain rfl : _ = t := Option.some.inj hnew
  have hmem : ∀ k' : Key Int, k' ∈ [Key.number 1] ↔
      k' = .number 1 ∨ ∃ v, HasEntry integers _ k' v := fun k' => by
    rw [List.mem_singleton, or_iff_left]
    rintro ⟨v, hv⟩
    cases (hempty k' v).mp hv
  obtain ⟨p, u, hset, -⟩ | ⟨-, hmany⟩ := ht.luaHSet (Nat.lt_succ_self (2 ^ MAXBITS)) (.number 1)
  · exact ⟨_, p, u, hnew, hset, rehash_sizes integers _ (.number 1) (2 ^ MAXBITS + 1) ht
      (Nat.lt_succ_self _) rfl rfl [.number 1] (List.nodup_singleton _) hmem p u hset⟩
  · exact absurd hmany (by decide)

end Alcor.Proofs.Lua
