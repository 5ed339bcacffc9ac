import Alcor.Proofs.Lua.Sizes
import Mathlib.Logic.Equiv.Basic

/-!
# `Alcor.Proofs.Lua.Insert`: new keys in a table in use

Between two resizes values become nil while their nodes stay in the
chains, and a node whose value is nil is used again for another key, in
the middle of a chain. `Intact` is what holds all the time: a node is
reached from the main position of its key, which has a key that belongs
there, and no node is reached in two ways.

* `Rehashed.intact`: a table after a resize has the invariant.
* `Intact.luaHGet`: it is enough for lookups.
* `Intact.newkey_here`, `Intact.newkey_behind` and
  `Intact.newkey_displaced` are the three places a new key can go to.
  `KeyAdded` is what they have in common: the nodes are those of before
  under a permutation, with the new key in one of them.
* `Intact.newkey`: a key that the table does not have gets a node, unless
  there is no free place.
-/

set_option autoImplicit false

namespace Alcor.Proofs.Lua

open Alcor.Lua
open Lib (Chain)
open Relation (ReflTransGen)

variable {N V : Type} {num : Numbers N} {t u : Table N V} {k : Key N} {i m x y : Nat}

/-- A node is linked to another. -/
def Link (t : Table N V) (x y : Nat) : Prop := nextOf t x = some y

/-- The invariant of the tables between two operations, with the nodes whose value is nil. -/
structure Intact (num : Numbers N) (t : Table N V) : Prop where
  dummy : t.dummy = true → t.lsizenode = 0 ∧ t.lastfree = 0 ∧ t.node 0 = {}
  sizearray_le : t.sizearray ≤ MAXASIZE
  lsizenode_le : t.lsizenode ≤ MAXBITS
  /-- A node without a key was not used since the last resize. -/
  unused : ∀ x, (t.node x).key = none → t.node x = {}
  beyond : ∀ x, t.sizenode ≤ x → (t.node x).key = none
  keyed : ∀ x y, Link t x y → (t.node y).key ≠ none
  before : ∀ x x' y, Link t x y → Link t x' y → x = x'
  ranked : ∃ rank : Nat → Nat, ∀ x y, Link t x y → rank y < rank x
  distinct : ∀ x y k, (t.node x).key = some k → (t.node y).key = some k → x = y
  /-- The colliding element is in its own main position. -/
  head : ∀ x m, t.mainOf num x = some m → IsHead num t m
  reach : ∀ x m, t.mainOf num x = some m → ReflTransGen (Link t) m x
  array : ∀ x k, (t.node x).key = some k → arraySlot num t.sizearray k = none
  free : t.dummy = false → ∀ x, x < t.sizenode → (t.node x).key = none → x < t.lastfree
  lastfree_le : t.lastfree ≤ t.sizenode

theorem mainOf_eq_some : t.mainOf num x = some m ↔
    ∃ k, (t.node x).key = some k ∧ mainposition num t.sizenode k = m :=
  Option.map_eq_some_iff

theorem Intact.lt (h : Intact num t) (hx : (t.node x).key = some k) : x < t.sizenode := by
  by_contra hle
  rw [h.beyond x (Nat.le_of_not_lt hle)] at hx
  cases hx

theorem Intact.next_unused (h : Intact num t) (hx : (t.node x).key = none) : nextOf t x = none := by
  rw [nextOf, h.unused x hx]

theorem Intact.val_unused (h : Intact num t) (hx : (t.node x).key = none) :
    (t.node x).val = none := by
  rw [h.unused x hx]

theorem Intact.chain (h : Intact num t) (m : Nat) : ∃ l, Chain (nextOf t) (m :: l) := by
  obtain ⟨rank, hrank⟩ := h.ranked
  exact Lib.exists_chain_of_rank rank hrank m

/-- What is behind a node is in the vector. -/
theorem Intact.chain_lt (h : Intact num t) {l : List Nat} (hl : Chain (nextOf t) (m :: l)) :
    ∀ x ∈ l, x < t.sizenode := by
  induction l generalizing m with
  | nil => exact fun x hx => absurd hx List.not_mem_nil
  | cons y l ih =>
    intro x hx
    rcases List.mem_cons.mp hx with rfl | hx
    · obtain ⟨k, hk⟩ := Option.ne_none_iff_exists'.mp (h.keyed m x hl.1)
      exact h.lt hk
    · exact ih hl.2 x hx

theorem Intact.sound (h : Intact num t) : Sound num t := by
  refine ⟨fun hd => ⟨(h.dummy hd).1, (h.dummy hd).2.2⟩, Nat.lt_of_le_of_lt h.sizearray_le (by decide),
    fun x _ => h.val_unused, fun x y _ _ hkey heq => ?_, fun m _ => ?_, fun x k _ hk _ l hl => ?_,
    fun x k _ hk _ => h.array x k hk, h.free, fun x hx => h.unused x (h.beyond x hx)⟩
  · obtain ⟨k, hk⟩ := Option.ne_none_iff_exists'.mp hkey
    exact h.distinct x y k hk (heq.symm.trans hk)
  · obtain ⟨l, hl⟩ := h.chain m
    exact ⟨l, hl, h.chain_lt hl⟩
  · exact hl.mem_iff_reaches.mpr (h.reach x _ (mainOf_eq_some.mpr ⟨k, hk, rfl⟩))

/-- A table whose nodes were all moved has the invariant. -/
theorem Rehashed.intact {rest : Nat → List Nat} (h : Rehashed num t rest)
    (hsize : t.sizearray ≤ MAXASIZE) (hlsize : t.lsizenode ≤ MAXBITS)
    (harray : ∀ x k, (t.node x).key = some k → arraySlot num t.sizearray k = none) :
    Intact num t := by
  have hl := h.linking
  have hnot : ∀ x, (t.node x).key = none → ¬ Chained num t rest x :=
    fun x hx hc => hl.key_of_chained hc hx
  -- a node with a key is in the chain of its main position
  have hsettled : ∀ x m, t.mainOf num x = some m → IsHead num t m ∧ x ∈ m :: rest m := by
    intro x m hmain
    obtain ⟨k, hk, rfl⟩ := mainOf_eq_some.mp hmain
    have hlt : x < t.sizenode := by
      by_contra hle
      rw [h.beyond x (Nat.le_of_not_lt hle)] at hk
      cases hk
    obtain ⟨m, hm, hmem⟩ := (h.settled x hlt).resolve_left (by rw [hk]; exact Option.some_ne_none k)
    obtain rfl : m = _ := Option.some.inj ((hl.mainOf_of_mem hm hmem).symm.trans hmain)
    exact ⟨hm, hmem⟩
  -- a link is one of a chain
  have hlink : ∀ x y, Link t x y →
      ∃ m, IsHead num t m ∧ x ∈ m :: rest m ∧ y ∈ rest m ∧ t.mainOf num y = some m := by
    intro x y hxy
    have hc : Chained num t rest x := by
      by_contra hno
      rw [Link, hl.loose x hno] at hxy
      cases hxy
    obtain ⟨m, hm, hmem⟩ := hc
    have hy := (hl.chain m hm).next_mem hmem hxy
    exact ⟨m, hm, hmem, hy, (hl.belongs m hm y hy).1⟩
  refine ⟨fun hd => ?_, hsize, hlsize, fun x hx => ?_, h.beyond, fun x y hxy => ?_,
    fun x x' y hxy hxy' => ?_, Lib.exists_rank_of_ends fun m => ?_, fun x y k hx hy => ?_,
    fun x m hm => (hsettled x m hm).1, fun x m hm => ?_, harray, fun _ => h.free, h.lastfree_le⟩
  · rw [hl.real] at hd
    cases hd
  · have hval := (hl.both x).mp hx
    have hnext : (t.node x).next = none := hl.loose x (hnot x hx)
    rw [show t.node x = ⟨(t.node x).key, (t.node x).val, (t.node x).next⟩ from rfl, hx, hval, hnext]
  · obtain ⟨m, -, -, -, hmain⟩ := hlink x y hxy
    obtain ⟨k, hk, -⟩ := mainOf_eq_some.mp hmain
    rw [hk]
    exact Option.some_ne_none k
  · obtain ⟨m, hm, hx, hy, hmain⟩ := hlink x y hxy
    obtain ⟨m', -, hx', -, hmain'⟩ := hlink x' y hxy'
    obtain rfl : m = m' := Option.some.inj (hmain.symm.trans hmain')
    exact (hl.chain m hm).next_inj hx hx' hxy hxy'
  · obtain ⟨l, hchain, -⟩ := hl.ends m
    exact ⟨l, hchain⟩
  · obtain ⟨v, hv⟩ := Option.ne_none_iff_exists'.mp fun hnone =>
      Option.some_ne_none k (hx.symm.trans ((hl.both x).mpr hnone))
    obtain ⟨w, hw⟩ := Option.ne_none_iff_exists'.mp fun hnone =>
      Option.some_ne_none k (hy.symm.trans ((hl.both y).mpr hnone))
    have hlt : ∀ z, (t.node z).key = some k → z < t.sizenode := fun z hz => by
      by_contra hle
      rw [h.beyond z (Nat.le_of_not_lt hle)] at hz
      cases hz
    exact h.single.distinct x y k v w ⟨hlt x hx, hx, hv⟩ ⟨hlt y hy, hy, hw⟩
  · obtain ⟨hm, hmem⟩ := hsettled x m hm
    exact (hl.chain m hm).mem_iff_reaches.mp hmem

/-! ### Lookups -/

section Lookup

variable [DecidableEq N]

/-- `luaH_get` gives the place of a key that the table has, and none of another. -/
theorem Intact.luaHGet (h : Intact num t) {n : Nat} (hn : t.sizenode ≤ n) (k : Key N) :
    (∃ i, arraySlot num t.sizearray k = some i ∧ t.luaHGet num n k = some (some (.array i))) ∨
      arraySlot num t.sizearray k = none ∧
        ((∃ x, (t.node x).key = some k ∧ t.luaHGet num n k = some (some (.node x))) ∨
          (∀ x, (t.node x).key ≠ some k) ∧ t.luaHGet num n k = some none) := by
  rw [Table.luaHGet]
  cases hslot : arraySlot num t.sizearray k with
  | some i => exact .inl ⟨i, rfl, rfl⟩
  | none =>
    refine .inr ⟨rfl, ?_⟩
    have hmain : mainposition num t.sizenode k < t.sizenode := mainposition_lt _ k
    obtain ⟨l, hl⟩ := h.chain (mainposition num t.sizenode k)
    obtain ⟨r, hr, hsome, hnone⟩ := findNode_spec k l _ n hl
      (Nat.lt_of_lt_of_le (length_le_of_chain hl hmain (h.chain_lt hl)) hn)
    rw [hr]
    cases r with
    | some x => exact .inl ⟨x, (hsome x rfl).2, rfl⟩
    | none =>
      refine .inr ⟨fun x hx => hnone rfl x ?_ hx, rfl⟩
      exact hl.mem_iff_reaches.mpr (h.reach x _ (mainOf_eq_some.mpr ⟨k, hx, rfl⟩))

end Lookup

/-! ### `newkey` -/

/-- A node has the new key, with no value yet, and nothing else has changed. -/
structure GetsKey (num : Numbers N) (t : Table N V) (k : Key N) (i : Nat) (u : Table N V) :
    Prop where
  intact : Intact num u
  key : (u.node i).key = some k
  lsizenode : u.lsizenode = t.lsizenode
  sizearray : u.sizearray = t.sizearray
  entries : ∀ k' v, HasEntry num u k' v ↔ HasEntry num t k' v

/-- Only nodes have changed, and how far the free ones go. -/
structure SameParts (t u : Table N V) : Prop where
  dummy : u.dummy = t.dummy
  lsizenode : u.lsizenode = t.lsizenode
  sizearray : u.sizearray = t.sizearray
  array : u.array = t.array

theorem SameParts.sizenode (h : SameParts t u) : u.sizenode = t.sizenode := by
  rw [Table.sizenode, Table.sizenode, h.lsizenode]

/-- The entries are in the same nodes, or in others. -/
theorem SameParts.entries (h : SameParts t u) (σ : Equiv.Perm Nat)
    (hσ : ∀ x, σ x < t.sizenode ↔ x < t.sizenode)
    (hat : ∀ x k v, (u.node x).key = some k ∧ (u.node x).val = some v ↔
      (t.node (σ x)).key = some k ∧ (t.node (σ x)).val = some v) (k : Key N) (v : V) :
    HasEntry num u k v ↔ HasEntry num t k v := by
  refine Held.moved σ (fun x k v => ?_) h.array h.sizearray k v
  rw [At, At, h.sizenode, hσ, hat]

section NewKey

variable {mp z n : Nat} {σ : Equiv.Perm Nat}

/-- The nodes of `u` are those of `t` in another order, but for one that has the new key. -/
structure KeyAdded (t : Table N V) (k : Key N) (i : Nat) (σ : Equiv.Perm Nat) (u : Table N V) :
    Prop where
  parts : SameParts t u
  real : t.dummy = false
  lt : i < t.sizenode
  self : (u.node i).key = some k
  key : ∀ x, x ≠ i → (u.node x).key = (t.node (σ x)).key
  val : ∀ x, (u.node x).val = (t.node (σ x)).val
  val_self : (u.node i).val = none
  within : ∀ x, σ x < t.sizenode ↔ x < t.sizenode

theorem KeyAdded.ne_of_unused (h : KeyAdded t k i σ u) (hx : (u.node x).key = none) : x ≠ i := by
  rintro rfl
  rw [h.self] at hx
  cases hx

theorem KeyAdded.mainOf_self (h : KeyAdded t k i σ u) :
    u.mainOf num i = some (mainposition num t.sizenode k) := by
  rw [Table.mainOf, h.self, Option.map_some, h.parts.sizenode]

theorem KeyAdded.mainOf (h : KeyAdded t k i σ u) (hx : x ≠ i) :
    u.mainOf num x = t.mainOf num (σ x) :=
  mainOf_congr h.parts.lsizenode (h.key x hx)

theorem KeyAdded.entries (h : KeyAdded t k i σ u) (k' : Key N) (v : V) :
    HasEntry num u k' v ↔ HasEntry num t k' v := by
  refine h.parts.entries σ h.within (fun x k' v => ?_) k' v
  by_cases hxi : x = i
  · rw [← h.val x, hxi, h.val_self]
    exact ⟨fun hv => (by cases hv.2), fun hv => (by cases hv.2)⟩
  · rw [h.key x hxi, h.val x]

theorem KeyAdded.distinct (h : KeyAdded t k i σ u) (ht : Intact num t)
    (hnew : ∀ x, (t.node x).key ≠ some k) (x y : Nat) (k' : Key N)
    (hx : (u.node x).key = some k') (hy : (u.node y).key = some k') : x = y := by
  have hk : ∀ z, z ≠ i → (u.node z).key ≠ some k := fun z hz => h.key z hz ▸ hnew (σ z)
  by_cases hxi : x = i
  · by_contra hne
    rw [hxi, h.self] at hx
    exact hk y (fun heq => hne (hxi.trans heq.symm)) (hx ▸ hy)
  · by_cases hyi : y = i
    · rw [hyi, h.self] at hy
      exact absurd (hy ▸ hx) (hk x hxi)
    · rw [h.key x hxi] at hx
      rw [h.key y hyi] at hy
      exact σ.injective (ht.distinct _ _ k' hx hy)

/-- What is left to show are the links and the free nodes. -/
theorem KeyAdded.getsKey (h : KeyAdded t k i σ u) (ht : Intact num t)
    (hnew : ∀ x, (t.node x).key ≠ some k) (hslot : arraySlot num t.sizearray k = none)
    (hunused : ∀ x, (u.node x).key = none → u.node x = {})
    (hkeyed : ∀ x y, Link u x y → (u.node y).key ≠ none)
    (hbefore : ∀ x x' y, Link u x y → Link u x' y → x = x')
    (hranked : ∃ rank : Nat → Nat, ∀ x y, Link u x y → rank y < rank x)
    (hhead : ∀ x m, u.mainOf num x = some m → IsHead num u m)
    (hreach : ∀ x m, u.mainOf num x = some m → ReflTransGen (Link u) m x)
    (hfree : ∀ x, x < t.sizenode → (u.node x).key = none → x < u.lastfree)
    (hlast : u.lastfree ≤ t.sizenode) : GetsKey num t k i u := by
  refine ⟨⟨fun hd => ?_, h.parts.sizearray ▸ ht.sizearray_le, h.parts.lsizenode ▸ ht.lsizenode_le,
    hunused, fun x hx => ?_, hkeyed, hbefore, hranked, h.distinct ht hnew, hhead, hreach,
    fun x k' hx => ?_, fun _ x hx => hfree x (h.parts.sizenode ▸ hx), h.parts.sizenode ▸ hlast⟩,
    h.self, h.parts.lsizenode, h.parts.sizearray, h.entries⟩
  · rw [h.parts.dummy, h.real] at hd
    cases hd
  · have hlt := h.lt
    rw [h.parts.sizenode] at hx
    rw [h.key x (by omega)]
    refine ht.beyond _ (Nat.le_of_not_lt fun hσ => ?_)
    have := (h.within x).mp hσ
    omega
  · rw [h.parts.sizearray]
    by_cases hxi : x = i
    · rw [hxi, h.self] at hx
      exact Option.some.inj hx ▸ hslot
    · rw [h.key x hxi] at hx
      exact ht.array (σ x) k' hx

/-- The main position has no value: the key goes there, whatever chain the node is in. -/
theorem Intact.newkey_here (h : Intact num t) (hnew : ∀ x, (t.node x).key ≠ some k)
    (hslot : arraySlot num t.sizearray k = none) (hmp : mp = mainposition num t.sizenode k)
    (hreal : t.dummy = false) (hval : (t.node mp).val = none) :
    GetsKey num t k mp (t.setNode mp { t.node mp with key := some k }) := by
  set u := t.setNode mp { t.node mp with key := some k } with hu
  have hother : ∀ x, x ≠ mp → u.node x = t.node x := fun x hx => setNode_ne hx _
  have hself : u.node mp = { t.node mp with key := some k } := setNode_self _ _
  have hadded : KeyAdded t k mp (Equiv.refl Nat) u := by
    refine ⟨⟨rfl, rfl, rfl, rfl⟩, hreal, hmp ▸ mainposition_lt _ k, by rw [hself],
      fun x hx => by rw [hother x hx]; rfl, fun x => ?_, by rw [hself]; exact hval, fun _ => Iff.rfl⟩
    by_cases hx : x = mp
    · rw [hx, hself]
      rfl
    · rw [hother x hx]
      rfl
  have hlink : Link u = Link t := by
    funext x y
    rw [Link, Link, nextOf, nextOf]
    by_cases hx : x = mp
    · rw [hx, hself]
    · rw [hother x hx]
  have hmainmp : u.mainOf num mp = some mp := hadded.mainOf_self.trans (congrArg some hmp.symm)
  have hmain : ∀ x, x ≠ mp → u.mainOf num x = t.mainOf num x := fun x hx => hadded.mainOf hx
  refine hadded.getsKey h hnew hslot (fun x hx => ?_) (fun x y hxy => ?_)
    (hlink ▸ h.before) (hlink ▸ h.ranked) (fun x m hx => ?_) (fun x m hx => ?_) (fun x hx hnone => ?_)
    h.lastfree_le
  · have hxm := hadded.ne_of_unused hx
    rw [hother x hxm] at hx ⊢
    exact h.unused x hx
  · by_cases hy : y = mp
    · rw [hy, hadded.self]
      exact Option.some_ne_none k
    · rw [hother y hy]
      exact h.keyed x y (hlink ▸ hxy)
  · by_cases hm : m = mp
    · exact hm ▸ hmainmp
    · have hxm : x ≠ mp := by
        rintro rfl
        exact hm (Option.some.inj (hx.symm.trans hmainmp))
      rw [hmain x hxm] at hx
      rw [IsHead, hmain m hm]
      exact h.head x m hx
  · rw [hlink]
    by_cases hxm : x = mp
    · rw [hxm, hmainmp] at hx
      rw [hxm, Option.some.inj hx]
    · rw [hmain x hxm] at hx
      exact h.reach x m hx
  · rw [hother x (hadded.ne_of_unused hnone)] at hnone
    exact h.free hreal x hx hnone

/-- The free node that is found when the main position of the key is taken. -/
structure Free (t : Table N V) (mp z : Nat) : Prop where
  getfreepos : t.getfreepos = (some z, { t with lastfree := z })
  lt : z < t.sizenode
  free : (t.node z).key = none
  below : ∀ x, x < t.sizenode → (t.node x).key = none → x ≠ z → x < z
  real : t.dummy = false
  ne : mp ≠ z

theorem Intact.free_of_not_full (h : Intact num t) (hmp : mp = mainposition num t.sizenode k)
    (htaken : (t.node mp).val ≠ none) (hnot : t.full num k = false) : ∃ z, Free t mp z := by
  have hkey : (t.node mp).key ≠ none := fun hnone => htaken (h.val_unused hnone)
  have hsome : t.getfreepos.1 ≠ none := by
    intro hnone
    rw [Table.full, ← hmp, Option.isSome_iff_ne_none.mpr htaken, hnone] at hnot
    cases hnot
  have hreal : t.dummy = false := by
    by_contra hd
    rw [Bool.not_eq_false] at hd
    rw [Table.getfreepos, (h.dummy hd).2.1] at hsome
    exact hsome rfl
  obtain ⟨z, hz, hzlt, hzfree, hall⟩ | ⟨hz, -⟩ := freeBelow_spec t t.lastfree
  · refine ⟨z, by rw [Table.getfreepos, hz], Nat.lt_of_lt_of_le hzlt h.lastfree_le, hzfree,
      fun x hx hnone hne => ?_, hreal, fun heq => hkey (heq ▸ hzfree)⟩
    rcases Nat.lt_or_ge z x with hgt | hle
    · exact absurd hnone (hall x hgt (h.free hreal x hx hnone))
    · exact Nat.lt_of_le_of_ne hle hne
  · rw [Table.getfreepos, hz] at hsome
    exact absurd rfl hsome

/-- No node is linked to a free one, nor a free one to another. -/
theorem Free.not_linked (hz : Free t mp z) (h : Intact num t) (x : Nat) : ¬ Link t x z :=
  fun hx => h.keyed x z hx hz.free

theorem Free.no_link (hz : Free t mp z) (h : Intact num t) (y : Nat) : ¬ Link t z y := by
  rw [Link, h.next_unused hz.free]
  exact fun hy => (by cases hy)

/-- The node that the function has written is the free one behind the colliding node. -/
structure Behind (t : Table N V) (k : Key N) (mp z : Nat) (u : Table N V) : Prop where
  parts : SameParts t u
  lastfree : u.lastfree = z
  self : u.node z = { key := some k, val := none, next := nextOf t mp }
  colliding : u.node mp = { t.node mp with next := some z }
  other : ∀ x, x ≠ z → x ≠ mp → u.node x = t.node x

/-- The key goes to the free node, and all others stay where they are. -/
theorem Behind.keyAdded (hb : Behind t k mp z u) (h : Intact num t) (hz : Free t mp z) :
    KeyAdded t k z (Equiv.refl Nat) u := by
  have hcases : ∀ x, x ≠ z →
      (u.node x).key = (t.node x).key ∧ (u.node x).val = (t.node x).val := by
    intro x hxz
    by_cases hxm : x = mp
    · rw [hxm, hb.colliding]
      exact ⟨rfl, rfl⟩
    · rw [hb.other x hxz hxm]
      exact ⟨rfl, rfl⟩
  refine ⟨hb.parts, hz.real, hz.lt, by rw [hb.self], fun x hx => (hcases x hx).1, fun x => ?_,
    by rw [hb.self], fun _ => Iff.rfl⟩
  by_cases hx : x = z
  · rw [hx, hb.self]
    exact (h.val_unused hz.free).symm
  · exact (hcases x hx).2

/-- The links are those of the table, with the new node behind the colliding one. -/
theorem Behind.link_iff (hb : Behind t k mp z u) (x y : Nat) :
    Link u x y ↔ (x = z ∧ Link t mp y) ∨ (x = mp ∧ x ≠ z ∧ y = z) ∨ (x ≠ z ∧ x ≠ mp ∧ Link t x y) := by
  rw [Link, nextOf]
  by_cases hxz : x = z
  · subst hxz
    rw [hb.self]
    simp [Link]
  · by_cases hxm : x = mp
    · subst hxm
      rw [hb.colliding]
      simp [hxz, eq_comm]
    · rw [hb.other x hxz hxm]
      simp [hxz, hxm, Link, nextOf]

/-- The colliding node is in its main position: the key goes to the free node behind it. -/
theorem Intact.newkey_behind (h : Intact num t) (hnew : ∀ x, (t.node x).key ≠ some k)
    (hslot : arraySlot num t.sizearray k = none) (hmp : mp = mainposition num t.sizenode k)
    (hz : Free t mp z) (hhead : IsHead num t mp) (hb : Behind t k mp z u) :
    GetsKey num t k z u := by
  have hadded := hb.keyAdded h hz
  have hlink := hb.link_iff
  have hnoz := hz.not_linked h
  have hzno := hz.no_link h
  have hmainz : u.mainOf num z = some mp := hadded.mainOf_self.trans (congrArg some hmp.symm)
  have hmain : ∀ x, x ≠ z → u.mainOf num x = t.mainOf num x := fun x hx => hadded.mainOf hx
  have hheads : ∀ m, IsHead num t m → IsHead num u m := by
    intro m hm
    have hmz : m ≠ z := by
      rintro rfl
      obtain ⟨k', hk', -⟩ := mainOf_eq_some.mp hm
      rw [hz.free] at hk'
      cases hk'
    rw [IsHead, hmain m hmz]
    exact hm
  have hzlink : Link u mp z := (hlink mp z).mpr (.inr (.inl ⟨rfl, hz.ne, rfl⟩))
  have hpath : ∀ a b, Link t a b → ReflTransGen (Link u) a b := by
    intro a b hab
    have haz : a ≠ z := by
      rintro rfl
      exact hzno b hab
    by_cases ham : a = mp
    · subst ham
      exact .head hzlink (.single ((hlink z b).mpr (.inl ⟨rfl, hab⟩)))
    · exact .single ((hlink a b).mpr (.inr (.inr ⟨haz, ham, hab⟩)))
  refine hadded.getsKey h hnew hslot (fun x hx => ?_) (fun x y hxy => ?_) (fun x x' y hx hx' => ?_) ?_
    (fun x m hx => ?_) (fun x m hx => ?_) (fun x hx hnone => ?_) ?_
  · have hxz := hadded.ne_of_unused hx
    rw [hadded.key x hxz] at hx
    have hxm : x ≠ mp := by
      rintro rfl
      obtain ⟨k', hk', -⟩ := mainOf_eq_some.mp hhead
      exact Option.some_ne_none k' (hk'.symm.trans hx)
    rw [hb.other x hxz hxm]
    exact h.unused x hx
  · by_cases hyz : y = z
    · rw [hyz, hadded.self]
      exact Option.some_ne_none k
    · rw [hadded.key y hyz]
      rcases (hlink x y).mp hxy with ⟨-, hy⟩ | ⟨-, -, hy⟩ | ⟨-, -, hy⟩
      · exact h.keyed mp y hy
      · exact absurd hy hyz
      · exact h.keyed x y hy
  · -- only the colliding node is linked to the new one, and that to what was behind it
    rcases (hlink x y).mp hx with ⟨hxz, hy⟩ | ⟨hxm, -, hy⟩ | ⟨-, hxm, hy⟩ <;>
      rcases (hlink x' y).mp hx' with ⟨hxz', hy'⟩ | ⟨hxm', -, hy'⟩ | ⟨-, hxm', hy'⟩
    · rw [hxz, hxz']
    · exact absurd (hy' ▸ hy) (hnoz mp)
    · exact absurd (h.before x' mp y hy' hy) hxm'
    · exact absurd (hy ▸ hy') (hnoz mp)
    · rw [hxm, hxm']
    · exact absurd (hy ▸ hy') (hnoz x')
    · exact absurd (h.before x mp y hy hy') hxm
    · exact absurd (hy' ▸ hy) (hnoz x)
    · exact h.before x x' y hy hy'
  · obtain ⟨rank, hrank⟩ := h.ranked
    refine ⟨fun x => if x = z then 2 * rank mp + 1 else 2 * rank x + 2, fun x y hxy => ?_⟩
    beta_reduce
    rcases (hlink x y).mp hxy with ⟨rfl, hy⟩ | ⟨rfl, hxz, rfl⟩ | ⟨hxz, -, hy⟩
    · have hyz : y ≠ x := fun heq => hnoz mp (heq ▸ hy)
      have := hrank mp y hy
      rw [if_neg hyz, if_pos rfl]
      omega
    · rw [if_pos rfl, if_neg hxz]
      omega
    · have hyz : y ≠ z := fun heq => hnoz x (heq ▸ hy)
      have := hrank x y hy
      rw [if_neg hyz, if_neg hxz]
      omega
  · by_cases hxz : x = z
    · rw [hxz, hmainz] at hx
      exact Option.some.inj hx ▸ hheads mp hhead
    · rw [hmain x hxz] at hx
      exact hheads m (h.head x m hx)
  · by_cases hxz : x = z
    · rw [hxz, hmainz] at hx
      rw [← Option.some.inj hx, hxz]
      exact .single hzlink
    · rw [hmain x hxz] at hx
      exact ReflTransGen.lift' id hpath m x (h.reach x m hx)
  · have hxz := hadded.ne_of_unused hnone
    rw [hadded.key x hxz] at hnone
    rw [hb.lastfree]
    exact hz.below x hx hnone hxz
  · rw [hb.lastfree]
    exact Nat.le_of_lt hz.lt

/-- The node that the function has written is the main position, and what was there is in the free
node, with the node in front linked to it. -/
structure Displaced (t : Table N V) (k : Key N) (mp z q : Nat) (u : Table N V) : Prop where
  parts : SameParts t u
  lastfree : u.lastfree = z
  front : Link t q mp
  self : u.node mp = { key := some k, val := none, next := none }
  moved : u.node z = t.node mp
  linked : u.node q = { t.node q with next := some z }
  other : ∀ x, x ≠ mp → x ≠ z → x ≠ q → u.node x = t.node x

section Displaced

variable {q : Nat}

theorem Displaced.ne (hd : Displaced t k mp z q u) (h : Intact num t) (hz : Free t mp z) :
    q ≠ mp ∧ q ≠ z := by
  obtain ⟨rank, hrank⟩ := h.ranked
  refine ⟨?_, ?_⟩
  · rintro rfl
    exact Nat.lt_irrefl _ (hrank q q hd.front)
  · rintro rfl
    exact hz.no_link h mp hd.front

/-- The colliding node and the free one are exchanged, and the key
goes where the colliding one was. -/
theorem Displaced.keyAdded (hd : Displaced t k mp z q u) (h : Intact num t) (hz : Free t mp z)
    (hlt : mp < t.sizenode) : KeyAdded t k mp (Equiv.swap mp z) u := by
  obtain ⟨hqm, hqz⟩ := hd.ne h hz
  have hcases : ∀ x, x ≠ mp → (u.node x).key = (t.node (Equiv.swap mp z x)).key ∧
      (u.node x).val = (t.node (Equiv.swap mp z x)).val := by
    intro x hxm
    by_cases hxz : x = z
    · rw [hxz, Equiv.swap_apply_right, hd.moved]
      exact ⟨rfl, rfl⟩
    · rw [Equiv.swap_apply_of_ne_of_ne hxm hxz]
      by_cases hxq : x = q
      · rw [hxq, hd.linked]
        exact ⟨rfl, rfl⟩
      · rw [hd.other x hxm hxz hxq]
        exact ⟨rfl, rfl⟩
  refine ⟨hd.parts, hz.real, hlt, by rw [hd.self], fun x hx => (hcases x hx).1, fun x => ?_,
    by rw [hd.self], fun x => ?_⟩
  · by_cases hx : x = mp
    · rw [hx, hd.self, Equiv.swap_apply_left]
      exact (h.val_unused hz.free).symm
    · exact (hcases x hx).2
  · have hzlt := hz.lt
    by_cases hxm : x = mp
    · rw [hxm, Equiv.swap_apply_left]
      exact iff_of_true hzlt hlt
    · by_cases hxz : x = z
      · rw [hxz, Equiv.swap_apply_right]
        exact iff_of_true hlt hzlt
      · rw [Equiv.swap_apply_of_ne_of_ne hxm hxz]

/-- The links are those of the table, with the names of the two nodes exchanged. -/
theorem Displaced.link_iff (hd : Displaced t k mp z q u) (h : Intact num t) (hz : Free t mp z)
    (x y : Nat) : Link u (Equiv.swap mp z x) (Equiv.swap mp z y) ↔ Link t x y := by
  obtain ⟨hqm, hqz⟩ := hd.ne h hz
  have hfix : ∀ w, w ≠ mp → w ≠ z → (w = Equiv.swap mp z y ↔ w = y) := by
    intro w hwm hwz
    by_cases hym : y = mp
    · rw [hym, Equiv.swap_apply_left]
      exact iff_of_false hwz hwm
    · by_cases hyz : y = z
      · rw [hyz, Equiv.swap_apply_right]
        exact iff_of_false hwm hwz
      · rw [Equiv.swap_apply_of_ne_of_ne hym hyz]
  -- what a node other than `q` is linked to is neither of the two
  have hsame : ∀ x, x ≠ q → (nextOf t x = some (Equiv.swap mp z y) ↔ nextOf t x = some y) := by
    intro x hxq
    cases hnext : nextOf t x with
    | none => exact iff_of_false (fun heq => (by cases heq)) fun heq => (by cases heq)
    | some w =>
      rw [Option.some.injEq, Option.some.injEq]
      refine hfix w ?_ ?_
      · rintro rfl
        exact hxq (h.before x q w hnext hd.front)
      · rintro rfl
        exact hz.not_linked h x hnext
  by_cases hxm : x = mp
  · rw [hxm, Equiv.swap_apply_left, Link, nextOf, hd.moved]
    exact hsame mp (Ne.symm hqm)
  · by_cases hxz : x = z
    · rw [hxz, Equiv.swap_apply_right, Link, nextOf, hd.self]
      exact iff_of_false (fun heq => (by cases heq)) (hz.no_link h y)
    · rw [Equiv.swap_apply_of_ne_of_ne hxm hxz]
      by_cases hxq : x = q
      · have hfront : nextOf t q = some mp := hd.front
        rw [hxq, Link, nextOf, hd.linked, Link, hfront, Option.some.injEq, Option.some.injEq,
          eq_comm, Equiv.swap_apply_eq_iff, Equiv.swap_apply_right, eq_comm]
      · rw [Link, nextOf, hd.other x hxm hxz hxq]
        exact hsame x hxq

/-- The colliding node is not in its main position: it goes to the free node. -/
theorem Intact.newkey_displaced (h : Intact num t) (hnew : ∀ x, (t.node x).key ≠ some k)
    (hslot : arraySlot num t.sizearray k = none) (hmp : mp = mainposition num t.sizenode k)
    (hz : Free t mp z) (hhead : ¬ IsHead num t mp) (htaken : (t.node mp).key ≠ none)
    (hd : Displaced t k mp z q u) : GetsKey num t k mp u := by
  have hlt : mp < t.sizenode := hmp ▸ mainposition_lt _ k
  have hadded := hd.keyAdded h hz hlt
  obtain ⟨hqm, hqz⟩ := hd.ne h hz
  set σ := Equiv.swap mp z with hσ
  have hσσ : ∀ x, σ (σ x) = x := fun x => Equiv.swap_apply_self mp z x
  have hlink : ∀ x y, Link u x y ↔ Link t (σ x) (σ y) := fun x y => by
    rw [← hd.link_iff h hz, ← hσ, hσσ, hσσ]
  have hmainmp : u.mainOf num mp = some mp := hadded.mainOf_self.trans (congrArg some hmp.symm)
  have hmain : ∀ x, x ≠ mp → u.mainOf num x = t.mainOf num (σ x) := fun x hx => hadded.mainOf hx
  -- a main position is neither of the two nodes
  have hfixed : ∀ x m, t.mainOf num x = some m → m ≠ mp ∧ σ m = m := by
    intro x m hx
    have hm := h.head x m hx
    have hmp' : m ≠ mp := by
      rintro rfl
      exact hhead hm
    refine ⟨hmp', Equiv.swap_apply_of_ne_of_ne hmp' ?_⟩
    rintro rfl
    obtain ⟨k', hk', -⟩ := mainOf_eq_some.mp hm
    rw [hz.free] at hk'
    cases hk'
  have hunused : ∀ x, (u.node x).key = none → u.node x = t.node x ∧ x ≠ z := by
    intro x hx
    have hxm := hadded.ne_of_unused hx
    have hxz : x ≠ z := by
      rintro rfl
      rw [hd.moved] at hx
      exact htaken hx
    refine ⟨hd.other x hxm hxz ?_, hxz⟩
    rintro rfl
    rw [hd.linked] at hx
    have hnone := h.next_unused hx
    rw [hd.front] at hnone
    cases hnone
  refine hadded.getsKey h hnew hslot (fun x hx => ?_) (fun x y hxy => ?_) (fun x x' y hx hx' => ?_) ?_
    (fun x m hx => ?_) (fun x m hx => ?_) (fun x hx hnone => ?_) ?_
  · obtain ⟨heq, -⟩ := hunused x hx
    rw [heq] at hx ⊢
    exact h.unused x hx
  · by_cases hym : y = mp
    · rw [hym, hadded.self]
      exact Option.some_ne_none k
    · rw [hadded.key y hym]
      exact h.keyed _ _ ((hlink x y).mp hxy)
  · exact σ.injective (h.before _ _ _ ((hlink x y).mp hx) ((hlink x' y).mp hx'))
  · obtain ⟨rank, hrank⟩ := h.ranked
    exact ⟨fun x => rank (σ x), fun x y hxy => hrank _ _ ((hlink x y).mp hxy)⟩
  · by_cases hxm : x = mp
    · rw [hxm, hmainmp] at hx
      exact Option.some.inj hx ▸ hmainmp
    · rw [hmain x hxm] at hx
      obtain ⟨hmm, hm⟩ := hfixed _ m hx
      rw [IsHead, hmain m hmm, hm]
      exact h.head _ m hx
  · by_cases hxm : x = mp
    · rw [hxm, hmainmp] at hx
      rw [hxm, Option.some.inj hx]
    · rw [hmain x hxm] at hx
      have hpath : ReflTransGen (Link u) (σ m) (σ (σ x)) :=
        (h.reach _ m hx).lift σ fun a b hab => (hd.link_iff h hz a b).mpr hab
      rw [hσσ, (hfixed _ m hx).2] at hpath
      exact hpath
  · obtain ⟨heq, hxz⟩ := hunused x hnone
    rw [heq] at hnone
    rw [hd.lastfree]
    exact hz.below x hx hnone hxz
  · rw [hd.lastfree]
    exact Nat.le_of_lt hz.lt

end Displaced

/-- A key that the table does not have gets a node, unless there is no free place. -/
theorem Intact.newkey (h : Intact num t) (hn : t.sizenode ≤ n) (hnew : ∀ x, (t.node x).key ≠ some k)
    (hslot : arraySlot num t.sizearray k = none) (hnot : t.full num k = false) :
    ∃ i u, t.newkey num n k = some (i, u) ∧ GetsKey num t k i u := by
  obtain ⟨mp, hmp⟩ : ∃ mp, mp = mainposition num t.sizenode k := ⟨_, rfl⟩
  by_cases hval : (t.node mp).val = none
  · have hreal : t.dummy = false := by
      by_contra hd
      rw [Bool.not_eq_false] at hd
      rw [Table.full, hd, Bool.or_true, Table.getfreepos, (h.dummy hd).2.1] at hnot
      cases hnot
    refine ⟨mp, _, ?_, h.newkey_here hnew hslot hmp hreal hval⟩
    simp [Table.newkey, ← hmp, hval, hreal]
  · obtain ⟨z, hz⟩ := h.free_of_not_full hmp hval hnot
    have htaken : (t.node mp).val.isSome = true := Option.isSome_iff_ne_none.mpr hval
    have hkey : (t.node mp).key ≠ none := fun hnone => hval (h.val_unused hnone)
    have hne := hz.ne
    obtain ⟨k', hk'⟩ := Option.ne_none_iff_exists'.mp hkey
    obtain ⟨o, ho⟩ : ∃ o, t.mainOf num mp = some o := ⟨_, mainOf_eq_some.mpr ⟨k', hk', rfl⟩⟩
    have ho' : Table.mainOf num { t with lastfree := z } mp = some o := ho
    by_cases hhead : o = mp
    · subst hhead
      set s := ({ t with lastfree := z } : Table N V).setNext z (t.node o).next with hs
      refine ⟨z, (s.setNext o (some z)).setNode z { (s.setNext o (some z)).node z with key := some k },
        ?_, h.newkey_behind hnew hslot hmp hz ho
          ⟨⟨rfl, rfl, rfl, rfl⟩, rfl, ?_, ?_, fun x hxz hxo => ?_⟩⟩
      · simp [Table.newkey, ← hmp, htaken, hz.getfreepos, ho', hs]
      · rw [setNode_self, Table.setNext, setNode_ne hne.symm, hs, Table.setNext, setNode_self]
        show ({ t.node z with key := some k, next := (t.node o).next } : Node N V) = _
        rw [h.unused z hz.free]
        rfl
      · rw [setNode_ne hne, Table.setNext, setNode_self, hs, Table.setNext, setNode_ne hne]
      · rw [setNode_ne hxz, Table.setNext, setNode_ne hxo, hs, Table.setNext, setNode_ne hxz]
    · -- the node in front of the colliding one is found from its main position
      obtain ⟨l, hl⟩ := h.chain o
      have hmem : mp ∈ l := by
        have hmem := hl.mem_iff_reaches.mpr (h.reach mp o ho)
        exact (List.mem_cons.mp hmem).resolve_left (Ne.symm hhead)
      have holt : o < t.sizenode := mainOf_lt ho
      obtain ⟨q, hfind, -, hq⟩ := (findPrevNode_spec (t := { t with lastfree := z }) l o n hl
        (Nat.lt_of_lt_of_le (length_le_of_chain hl holt (h.chain_lt hl)) hn)).2 hmem
      have hq' : Link t q mp := hq
      have hqm : q ≠ mp := by
        rintro rfl
        obtain ⟨rank, hrank⟩ := h.ranked
        exact Nat.lt_irrefl _ (hrank q q hq')
      have hqz : q ≠ z := by
        rintro rfl
        exact hz.no_link h mp hq'
      set s := ({ t with lastfree := z } : Table N V).setNext q (some z) with hs
      have hsm : s.node mp = t.node mp := setNode_ne hqm.symm _
      refine ⟨mp, (s.setNode z (s.node mp)).setNode mp
        { (s.setNode z (s.node mp)).node mp with next := none, val := none, key := some k }, ?_,
        h.newkey_displaced (q := q) hnew hslot hmp hz
          (fun hm => hhead (Option.some.inj (ho.symm.trans hm))) hkey
          ⟨⟨rfl, rfl, rfl, rfl⟩, rfl, hq', ?_, ?_, ?_, fun x hxm hxz hxq => ?_⟩⟩
      · simp [Table.newkey, ← hmp, htaken, hz.getfreepos, ho', hhead, hfind, hs]
      · rw [setNode_self]
      · rw [setNode_ne hne.symm, setNode_self, hsm]
      · rw [setNode_ne hqm, setNode_ne hqz, hs, Table.setNext, setNode_self]
      · rw [setNode_ne hxm, setNode_ne hxz, hs, Table.setNext, setNode_ne hxq]

end NewKey

end Alcor.Proofs.Lua
