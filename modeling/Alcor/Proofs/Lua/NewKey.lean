import Alcor.Proofs.Lua.Breaking

/-!
# `Alcor.Proofs.Lua.NewKey`: new keys

A table after its nodes were moved, and a new key in it.

* `Breaking.shrinks` and `Breaking.rehash`: the second half of
  `resize_hashpart`, where the vector shrinks and its nodes are moved.
* `resizeHashpart_spec`: the hash part is resized, and does not fail if
  there is room for the keys.
* `Rehashed.newkey_free`, `Rehashed.newkey_behind` and
  `Rehashed.newkey_moved` are the places that a key of the vanishing
  array part can go to; `Rehashed.newkey` puts them together.
-/

set_option autoImplicit false

/-!
## The resize of the hash part

The two loops of `resize_hashpart` and what is between them, for a
vector that grows, stays or shrinks.
-/

namespace Alcor.Proofs.Lua

open Alcor.Lua
open Lib (Chain)

variable {N V : Type} {num : Numbers N} {t u : Table N V} {rest : Nat → List Nat}

/-- A table whose nodes are all in their chains. -/
structure Rehashed (num : Numbers N) (t : Table N V) (rest : Nat → List Nat) : Prop where
  linking : Linking num t rest
  settled : ∀ x, x < t.sizenode → Settled num t rest x
  beyond : ∀ x, t.sizenode ≤ x → (t.node x).key = none
  single : Single num t (· < t.sizenode)
  free : ∀ x, x < t.sizenode → (t.node x).key = none → x < t.lastfree
  lastfree_le : t.lastfree ≤ t.sizenode

/-- The table between the loops: there are no other nodes than those that are clean. -/
structure Shrunk (num : Numbers N) (b : Table N V) (old : Nat) (s t : Table N V) : Prop where
  lsize : t.lsizenode = b.lsizenode
  real : t.dummy = false
  array : t.array = s.array
  sizearray : t.sizearray = b.sizearray
  lastfree : t.lastfree = b.sizenode
  below : ∀ x, x < b.sizenode → x < old → t.node x = s.node x
  above : ∀ x, ¬ (x < b.sizenode ∧ x < old) → t.node x = {}

section Shrunk

variable {b s : Table N V} {old n : Nat}

/-- The vector shrinks, if it is to. -/
theorem Breaking.shrinks (h : Breaking num b old old s) (hreal : b.dummy = false)
    (hmax : b.lsizenode ≤ MAXBITS) (hbeyond : ∀ x, old ≤ x → b.node x = {}) :
    ∃ t, (if b.sizenode < old then s.resizenodevector old b.sizenode else some s) = some t ∧
      Shrunk num b old s t := by
  have hpos : b.sizenode ≠ 0 := Nat.ne_of_gt (Nat.two_pow_pos _)
  by_cases hshrink : b.sizenode < old
  · have hclog : Nat.clog 2 b.sizenode = b.lsizenode := Nat.clog_pow 2 _ (by decide)
    refine ⟨{ s with
      node := fun i => if i < old ∧ i < 2 ^ b.lsizenode then s.node i else {}
      lsizenode := b.lsizenode, dummy := false, lastfree := 2 ^ b.lsizenode }, ?_, rfl, rfl, rfl,
      h.sizearray, rfl, fun x hx hxo => if_pos ⟨hxo, hx⟩, fun x hx => if_neg fun hc => hx hc.symm⟩
    rw [if_pos hshrink]
    unfold Table.resizenodevector
    rw [if_neg hpos, hclog]
    simp only
    rw [if_neg (Nat.not_lt.mpr hmax), h.real, hreal]
    rfl
  · have hle := Nat.le_of_not_lt hshrink
    refine ⟨s, if_neg hshrink, h.lsize, h.real.trans hreal, rfl, h.sizearray, h.fresh hle,
      fun _ _ _ => rfl, fun x hx => ?_⟩
    have hxo : old ≤ x := by omega
    rw [h.todo x hxo, hbeyond x hxo]

theorem Shrunk.sizenode (ht : Shrunk num b old s t) : t.sizenode = b.sizenode := by
  rw [Table.sizenode, Table.sizenode, ht.lsize]

/-- A node is empty, or as the first loop left it. -/
theorem Shrunk.clean (ht : Shrunk num b old s t) (h : Breaking num b old old s) (x : Nat) :
    t.node x = {} ∨ ((t.node x).next = none ∧ ((t.node x).key = none ↔ (t.node x).val = none) ∧
      ∀ k, (t.node x).key = some k → arraySlot num b.sizearray k = none) := by
  by_cases hx : x < b.sizenode ∧ x < old
  · rw [ht.below x hx.1 hx.2]
    exact .inr (h.clean x hx.2 hx.1)
  · exact .inl (ht.above x hx)

theorem Shrunk.linking (ht : Shrunk num b old s t) (h : Breaking num b old old s) :
    Linking num t fun _ => [] := by
  refine linking_start ht.real (fun x => ?_) fun x => ?_
  · obtain hx | hx := ht.clean h x
    · rw [hx]
      exact ⟨fun _ => rfl, fun _ => rfl⟩
    · exact hx.2.1
  · obtain hx | hx := ht.clean h x
    · rw [hx]
    · exact hx.1

theorem Shrunk.at_iff (ht : Shrunk num b old s t) (x : Nat) (k : Key N) (v : V) :
    At t (· < t.sizenode) x k v ↔ At s (Live old b.sizenode old) x k v := by
  by_cases hx : x < b.sizenode ∧ x < old
  · rw [At, At, ht.below x hx.1 hx.2]
    refine and_congr_left fun _ => ?_
    exact ⟨fun _ => ⟨hx.2, .inr hx.1⟩, fun _ => ht.sizenode.symm ▸ hx.1⟩
  · rw [At, ht.above x hx]
    refine ⟨fun hat => (by cases hat.2.1), fun hat => absurd hat.1 fun hlive => hx ?_⟩
    unfold Live at hlive
    omega

/-- The second half: the vector shrinks, and its nodes are moved. -/
theorem Breaking.rehash (h : Breaking num b old old s)
    (hreal : b.dummy = false) (hmax : b.lsizenode ≤ MAXBITS)
    (hbeyond : ∀ x, old ≤ x → b.node x = {}) (hn : b.sizenode < n) :
    ∃ u rest, (if b.sizenode < old then s.resizenodevector old b.sizenode else some s).bind
        (moveNodes num n b.sizenode) = some u ∧ Rehashed num u rest ∧
      u.lsizenode = b.lsizenode ∧ u.array = s.array ∧ u.sizearray = b.sizearray ∧
      (∀ k v, HasEntry num u k v ↔ Held num b (· < old) k v) ∧
      ∀ x k, (u.node x).key = some k → arraySlot num b.sizearray k = none := by
  obtain ⟨t, hshrink, ht⟩ := h.shrinks hreal hmax hbeyond
  have hsize : t.sizenode = b.sizenode := ht.sizenode
  have hsizearray : t.sizearray = s.sizearray := ht.sizearray.trans h.sizearray.symm
  obtain ⟨u, rest, hmove, hlink, hframe, ⟨σ, hσ, hnodes⟩, hsettled⟩ :=
    (ht.linking h).moveNodes (n := n) (hsize.symm ▸ hn) t.sizenode (Nat.le_refl _)
  have husize : u.sizenode = t.sizenode := by
    rw [hframe]
    rfl
  -- the nodes of `u` are those of `t` in another order
  have hat : ∀ x k v, At u (· < u.sizenode) x k v ↔ At t (· < t.sizenode) (σ x) k v := by
    intro x k v
    rw [At, At, (hnodes x).1, (hnodes x).2, husize, hσ]
  have huarray : u.array = t.array := by rw [hframe]
  have husizearray : u.sizearray = t.sizearray := by rw [hframe]
  have hulast : u.lastfree = u.sizenode := by
    rw [husize, hsize, ← ht.lastfree, hframe]
  have hsingle : Single num t (· < t.sizenode) :=
    h.single.moved (Equiv.refl _) ht.at_iff ht.array hsizearray
  refine ⟨u, rest, ?_, ⟨hlink, fun x hx => hsettled x (husize ▸ hx), fun x hx => ?_,
    hsingle.moved σ hat huarray husizearray, fun x hx _ => hulast.symm ▸ hx, Nat.le_of_eq hulast⟩,
    ?_, huarray.trans ht.array, husizearray.trans ht.sizearray, fun k v => ?_, fun x k hk => ?_⟩
  · rw [hshrink, ← hsize]
    exact hmove
  · -- a node beyond the vector comes from one beyond it
    have hσx : ¬ σ x < t.sizenode := fun hlt => by
      have := (hσ x).mp hlt
      omega
    rw [(hnodes x).1, ht.above (σ x) (by omega)]
  · rw [hframe]
    exact ht.lsize
  · exact ((Held.moved σ hat huarray husizearray k v).trans
      (Held.moved (Equiv.refl _) ht.at_iff ht.array hsizearray k v)).trans (h.held k v)
  · rw [(hnodes x).1] at hk
    obtain hx | hx := ht.clean h (σ x)
    · rw [hx] at hk
      cases hk
    · exact hx.2.2 k hk

end Shrunk

/-- The number of nodes that a resize asks for. -/
def roomOf (nhsize : Nat) : Nat := 2 ^ (if 0 < nhsize then Nat.clog 2 nhsize else 0)

/-- What a resize of the hash part needs of the table. -/
structure Resizable (num : Numbers N) (t : Table N V) : Prop where
  dummy : t.dummy = true → t.lsizenode = 0
  empty : t.dummy = true → t.node 0 = {}
  beyond : ∀ x, t.sizenode ≤ x → t.node x = {}
  keyed : ∀ x, x < t.sizenode → (t.node x).key = none → (t.node x).val = none
  single : Single num t (· < t.sizenode)

/-- The number of nodes of its own that a table has. -/
def oldOf (t : Table N V) : Nat := if t.dummy = true then 0 else t.sizenode

theorem lt_of_lt_oldOf {x : Nat} (hx : x < oldOf t) : x < t.sizenode := by
  unfold oldOf at hx
  split at hx
  · exact absurd hx (Nat.not_lt_zero x)
  · exact hx

/-- The other nodes are empty, also that of the dummy. -/
theorem Resizable.eq_of_oldOf_le (h : Resizable num t) {x : Nat} (hx : oldOf t ≤ x) :
    t.node x = {} := by
  unfold oldOf at hx
  split at hx
  · next hd =>
    cases x with
    | zero => exact h.empty hd
    | succ x =>
      refine h.beyond _ ?_
      rw [Table.sizenode, h.dummy hd]
      exact Nat.succ_le_succ (Nat.zero_le x)
  · exact h.beyond x hx

theorem Resizable.at_oldOf (h : Resizable num t) (x : Nat) (k : Key N) (v : V) :
    At t (· < oldOf t) x k v ↔ At t (· < t.sizenode) x k v := by
  refine ⟨fun hat => ⟨lt_of_lt_oldOf hat.1, hat.2⟩, fun hat => ⟨Nat.lt_of_not_le fun hx => ?_, hat.2⟩⟩
  rw [At, h.eq_of_oldOf_le hx] at hat
  cases hat.2.1

/-- The loops, on a vector of the new size with the nodes of the old one. -/
theorem Resizable.rehashNodes (h : Resizable num t) {b : Table N V} {n lsize : Nat}
    (hroom : Room num t (· < t.sizenode) t.sizearray (2 ^ lsize)) (hmax : lsize ≤ MAXBITS)
    (hn : 2 ^ lsize < n) (hlsize : b.lsizenode = lsize) (hreal : b.dummy = false)
    (harray : b.array = t.array) (hsize : b.sizearray = t.sizearray)
    (hlast : b.lastfree = b.sizenode) (hnode : ∀ x, b.node x = t.node x) :
    ∃ u rest, b.rehashNodes num n (oldOf t) (2 ^ lsize) = some u ∧ Rehashed num u rest ∧
      u.sizenode = 2 ^ lsize ∧ u.sizearray = t.sizearray ∧
      (∀ k v, HasEntry num u k v ↔ HasEntry num t k v) ∧
      ∀ x k, (u.node x).key = some k → arraySlot num t.sizearray k = none := by
  have hnew : b.sizenode = 2 ^ lsize := by rw [Table.sizenode, hlsize]
  have hat : ∀ x k v, At b (· < oldOf t) x k v ↔ At t (· < t.sizenode) x k v := by
    intro x k v
    rw [← h.at_oldOf, At, At, hnode]
  have hheld : ∀ k v, Held num b (· < oldOf t) k v ↔ HasEntry num t k v :=
    Held.moved (Equiv.refl _) hat harray hsize
  have hsingle : Single num b (· < oldOf t) := h.single.moved (Equiv.refl _) hat harray hsize
  have hlive : ∀ x k v, At b (Live (oldOf t) b.sizenode 0) x k v ↔ At b (· < oldOf t) x k v := by
    intro x k v
    exact and_congr_left fun _ => ⟨fun hx => hx.1, fun hx => ⟨hx, .inl (Nat.zero_le x)⟩⟩
  have hstart : Breaking num b (oldOf t) 0 b :=
    ⟨rfl, rfl, rfl, fun x hx => absurd hx (Nat.not_lt_zero x), fun _ _ => rfl,
      hsingle.moved (Equiv.refl _) hlive rfl rfl, Held.moved (Equiv.refl _) hlive rfl rfl,
      fun x hx _ => hlast.symm ▸ hx, Nat.le_of_eq hlast, fun _ => hlast⟩
  have hkeyed : ∀ x, x < oldOf t → (b.node x).key = none → (b.node x).val = none := by
    intro x hx
    rw [hnode]
    exact h.keyed x (lt_of_lt_oldOf hx)
  have hroomb : Room num b (· < oldOf t) b.sizearray b.sizenode := by
    intro l hl hmem
    rw [hnew]
    refine hroom l hl fun k hk => ?_
    obtain ⟨⟨v, hv⟩, hslot⟩ := hmem k hk
    exact ⟨⟨v, (hheld k v).mp hv⟩, hsize ▸ hslot⟩
  obtain ⟨s, hbreak, hs⟩ := breaking_run hstart hkeyed hroomb (oldOf t) (Nat.le_refl _)
  obtain ⟨u, rest, hmove, hu, hul, -, hus, huheld, huslot⟩ := hs.rehash hreal
    (hlsize.symm ▸ hmax) (fun x hx => (hnode x).trans (h.eq_of_oldOf_le hx)) (n := n)
    (by rw [hnew]; exact hn)
  refine ⟨u, rest, ?_, hu, ?_, hus.trans hsize, fun k v => (huheld k v).trans (hheld k v),
    fun x k hk => hsize ▸ huslot x k hk⟩
  · unfold Table.rehashNodes
    rw [← hnew, hbreak]
    exact hmove
  · rw [Table.sizenode, hul, hlsize]

/-- A new vector, with the nodes of the old one. -/
theorem resizenodevector_grow {lsize : Nat} (hmax : lsize ≤ MAXBITS) :
    t.resizenodevector (oldOf t) (2 ^ lsize) = some { t with
      node := fun i => if i < oldOf t ∧ i < 2 ^ lsize then t.node i else {}
      lsizenode := lsize, dummy := false, lastfree := 2 ^ lsize } := by
  have hclog : Nat.clog 2 (2 ^ lsize) = lsize := Nat.clog_pow 2 _ (by decide)
  have hold : (if t.dummy = true then 0 else oldOf t) = oldOf t := by
    unfold oldOf
    split <;> rfl
  unfold Table.resizenodevector
  rw [if_neg (Nat.ne_of_gt (Nat.two_pow_pos _)), hclog]
  simp only
  rw [if_neg (Nat.not_lt.mpr hmax), hold]

/-- The hash part is resized: it does not fail if there is room for the keys. -/
theorem resizeHashpart_spec {n nhsize : Nat} (hmax : nhsize ≤ 2 ^ MAXBITS)
    (hdummy : t.dummy = true → t.lsizenode = 0)
    (hempty : t.dummy = true → t.node 0 = {})
    (hbeyond : ∀ x, t.sizenode ≤ x → t.node x = {})
    (hkeyed : ∀ x, x < t.sizenode → (t.node x).key = none → (t.node x).val = none)
    (hsingle : Single num t (· < t.sizenode))
    (hroom : Room num t (· < t.sizenode) t.sizearray (roomOf nhsize)) (hn : roomOf nhsize < n) :
    ∃ u rest, t.resizeHashpart num n nhsize = some u ∧ Rehashed num u rest ∧
      u.sizenode = roomOf nhsize ∧ u.sizearray = t.sizearray ∧
      (∀ k v, HasEntry num u k v ↔ HasEntry num t k v) ∧
      ∀ x k, (u.node x).key = some k → arraySlot num t.sizearray k = none := by
  have h : Resizable num t := ⟨hdummy, hempty, hbeyond, hkeyed, hsingle⟩
  set lsize := if 0 < nhsize then Nat.clog 2 nhsize else 0 with hlsize
  have hlmax : lsize ≤ MAXBITS := by
    rw [hlsize]
    split
    · exact (Nat.clog_le_iff_le_pow (by decide)).mpr hmax
    · exact Nat.zero_le _
  have hpos : 0 < 2 ^ lsize := Nat.two_pow_pos _
  have hguard : ¬ (0 < nhsize ∧ MAXBITS < lsize) := fun hc => Nat.not_lt.mpr hlmax hc.2
  have hold : (if t.dummy = true then 0 else t.sizenode) = oldOf t := rfl
  unfold Table.resizeHashpart
  simp only [hold, ← hlsize, if_neg hguard]
  by_cases hgrow : oldOf t < 2 ^ lsize
  · rw [if_pos hgrow, resizenodevector_grow hlmax]
    refine h.rehashNodes hroom hlmax hn rfl rfl rfl rfl rfl fun x => ?_
    show (if x < oldOf t ∧ x < 2 ^ lsize then t.node x else {}) = t.node x
    split
    · rfl
    · exact (h.eq_of_oldOf_le (by omega)).symm
  · -- the vector stays until its nodes are clean
    have hreal : t.dummy = false := by
      by_contra hd
      rw [Bool.not_eq_false] at hd
      rw [oldOf, if_pos hd] at hgrow
      exact hgrow hpos
    rw [if_neg hgrow, if_pos hpos]
    exact h.rehashNodes hroom hlmax hn rfl hreal rfl rfl rfl fun _ => rfl

end Alcor.Proofs.Lua

/-!
## A key gets a node

`newkey` does what `move_node` does to a node with the new key at the
free place it finds, so it keeps the chains for the same reasons.
-/

namespace Alcor.Proofs.Lua

open Alcor.Lua
open Lib (Chain)

variable {mp : Nat}
variable {N V : Type} {num : Numbers N} {t s u : Table N V} {rest rest' : Nat → List Nat}

theorem table_ext (hnode : ∀ x, t.node x = u.node x) (hlsize : t.lsizenode = u.lsizenode)
    (hdummy : t.dummy = u.dummy) (hlast : t.lastfree = u.lastfree) (harray : t.array = u.array)
    (hsize : t.sizearray = u.sizearray) : t = u := by
  cases t
  cases u
  simp only at hnode hlsize hdummy hlast harray hsize
  subst hlsize hdummy hlast harray hsize
  rw [funext hnode]

/-- What is known of a table after a key has got a node. -/
structure Added (num : Numbers N) (s : Table N V) (k₀ : Key N) (v₀ : V) (u : Table N V) :
    Prop where
  sizenode : u.sizenode = s.sizenode
  array : u.array = s.array
  sizearray : u.sizearray = s.sizearray
  held : ∀ k v, HasEntry num u k v ↔ HasEntry num s k v ∨ (k = k₀ ∧ v = v₀)
  keys : ∀ x k, (u.node x).key = some k → (∃ y, (s.node y).key = some k) ∨ k = k₀

section NewKey

variable {z last n : Nat} {k₀ : Key N} {v₀ : V}

/-- The table with the key in a node that no chain has yet. -/
def withKey (s : Table N V) (last z : Nat) (k₀ : Key N) (v₀ : V) : Table N V :=
  ({ s with lastfree := last } : Table N V).setNode z
    { key := some k₀, val := some v₀, next := none }

@[simp] theorem withKey_self (s : Table N V) (last z : Nat) (k₀ : Key N) (v₀ : V) :
    (withKey s last z k₀ v₀).node z = { key := some k₀, val := some v₀, next := none } :=
  setNode_self _ _

theorem withKey_ne {x : Nat} (hx : x ≠ z) : (withKey s last z k₀ v₀).node x = s.node x :=
  setNode_ne hx _

/-- The entries are those from before and the new one. -/
theorem at_withKey (hz : z < s.sizenode) (hzfree : (s.node z).key = none) (x : Nat) (k : Key N)
    (v : V) : At (withKey s last z k₀ v₀) (· < s.sizenode) x k v ↔
      (x = z ∧ k = k₀ ∧ v = v₀) ∨ At s (· < s.sizenode) x k v := by
  by_cases hx : x = z
  · subst hx
    rw [At, withKey_self]
    refine ⟨fun hat => .inl ⟨rfl, (Option.some.inj hat.2.1).symm, (Option.some.inj hat.2.2).symm⟩,
      ?_⟩
    rintro (⟨-, rfl, rfl⟩ | hat)
    · exact ⟨hz, rfl, rfl⟩
    · exact absurd hat.2.1 (by rw [hzfree]; exact fun hk => (by cases hk))
  · rw [At, withKey_ne hx]
    exact ⟨fun hat => .inr hat, fun hat => hat.resolve_left fun hc => hx hc.1⟩

theorem held_withKey (hz : z < s.sizenode) (hzfree : (s.node z).key = none) (k : Key N) (v : V) :
    HasEntry num (withKey s last z k₀ v₀) k v ↔ HasEntry num s k v ∨ (k = k₀ ∧ v = v₀) := by
  constructor
  · rintro (harr | ⟨x, hx⟩)
    · exact .inl (.inl harr)
    · obtain ⟨-, hk, hv⟩ | hat := (at_withKey hz hzfree x k v).mp hx
      · exact .inr ⟨hk, hv⟩
      · exact .inl (.inr ⟨x, hat⟩)
  · rintro ((harr | ⟨x, hat⟩) | ⟨hk, hv⟩)
    · exact .inl harr
    · exact .inr ⟨x, (at_withKey hz hzfree x k v).mpr (.inr hat)⟩
    · exact .inr ⟨z, (at_withKey hz hzfree z k v).mpr (.inl ⟨rfl, hk, hv⟩)⟩

/-- A key that is new, also in the array, is once in the table. -/
theorem single_withKey (h : Single num s (· < s.sizenode)) (hz : z < s.sizenode)
    (hzfree : (s.node z).key = none) (hnew : ∀ x, (s.node x).key ≠ some k₀)
    (hslot : arraySlot num s.sizearray k₀ = none) :
    Single num (withKey s last z k₀ v₀) (· < s.sizenode) := by
  refine ⟨fun x y k v w hx hy => ?_, fun x k v i hx hi => ?_⟩
  · obtain ⟨rfl, rfl, -⟩ | hatx := (at_withKey hz hzfree x k v).mp hx
    · obtain ⟨rfl, -, -⟩ | haty := (at_withKey hz hzfree y k w).mp hy
      · rfl
      · exact absurd haty.2.1 (hnew y)
    · obtain ⟨-, rfl, -⟩ | haty := (at_withKey hz hzfree y k w).mp hy
      · exact absurd hatx.2.1 (hnew x)
      · exact h.distinct x y k v w hatx haty
  · obtain ⟨-, rfl, -⟩ | hat := (at_withKey hz hzfree x k v).mp hx
    · rw [show (withKey s last z k v₀).sizearray = s.sizearray from rfl, hslot] at hi
      cases hi
    · exact h.apart x k v i hat hi

/-- A key has been put into a free node, and nodes have been moved. -/
theorem Rehashed.placed (h : Rehashed num s rest) (hz : z < s.sizenode)
    (hzfree : (s.node z).key = none) (hnew : ∀ x, (s.node x).key ≠ some k₀)
    (hslot : arraySlot num s.sizearray k₀ = none) (hlast : last ≤ s.lastfree)
    (hfree : ∀ x, x < s.sizenode → (s.node x).key = none → x ≠ z → x < last)
    (hmoved : Moved num (withKey s last z k₀ v₀) rest z true u rest')
    (hkeys : ∀ x, x ≠ z → (u.node x).key = none → (s.node x).key = none)
    (hzkey : (u.node z).key ≠ none) :
    Rehashed num u rest' ∧ Added num s k₀ v₀ u := by
  have hpsize : (withKey s last z k₀ v₀).sizenode = s.sizenode := rfl
  have hchained : ∀ x, Chained num s rest x → Chained num (withKey s last z k₀ v₀) rest x :=
    fun x hx => Chained.write (t := { s with lastfree := last }) hx
      (fun hc => h.linking.key_of_chained hc hzfree) _
  have hsingle : Single num (withKey s last z k₀ v₀) (· < s.sizenode) :=
    single_withKey h.single hz hzfree hnew hslot
  -- the nodes of `u` are those of this table in another order
  obtain ⟨σ, hσ, hnodes⟩ := hmoved.permuted
  have husize : u.sizenode = s.sizenode := hmoved.sizenode_eq
  have hat : ∀ x k v, At u (· < u.sizenode) x k v ↔
      At (withKey s last z k₀ v₀) (· < (withKey s last z k₀ v₀).sizenode) (σ x) k v := by
    intro x k v
    rw [At, At, (hnodes x).1, (hnodes x).2, husize, hσ, hpsize]
  have huarray : u.array = s.array := by rw [hmoved.frame]; rfl
  have husizearray : u.sizearray = s.sizearray := by rw [hmoved.frame]; rfl
  have hulast : u.lastfree = last := by rw [hmoved.frame]; rfl
  refine ⟨⟨hmoved.linking, fun x hx => ?_, fun x hx => ?_, hsingle.moved σ hat huarray husizearray,
    fun x hx hnone => ?_, ?_⟩, husize, huarray, husizearray, fun k v => ?_, fun x k hk => ?_⟩
  · -- every node is in the chain of its main position, `z` because of the move
    by_cases hxz : x = z
    · rw [hxz]
      exact hmoved.settled rfl
    · refine hmoved.keep x hxz ?_
      exact (h.settled x (husize ▸ hx)).of_linking hchained (by rw [withKey_ne hxz])
  · -- behind the vector, which no node is moved to
    rw [husize] at hx
    have hσx : ¬ σ x < s.sizenode := fun hlt => by
      have := (hσ x).mp hlt
      rw [hpsize] at this
      omega
    have hσz : σ x ≠ z := fun heq => hσx (heq ▸ hz)
    rw [(hnodes x).1, withKey_ne hσz]
    exact h.beyond _ (Nat.le_of_not_lt hσx)
  · rw [husize] at hx
    have hxz : x ≠ z := fun heq => hzkey (heq ▸ hnone)
    rw [hulast]
    exact hfree x hx (hkeys x hxz hnone) hxz
  · rw [hulast, husize]
    exact Nat.le_trans hlast h.lastfree_le
  · exact (Held.moved σ hat huarray husizearray k v).trans (held_withKey hz hzfree k v)
  · rw [(hnodes x).1] at hk
    by_cases hσz : σ x = z
    · rw [hσz, withKey_self] at hk
      exact .inr (Option.some.inj hk).symm
    · rw [withKey_ne hσz] at hk
      exact .inl ⟨σ x, hk⟩

/-- `newkey` finds a node for the key, and with the value in it the table is as it should be. -/
def GetsNode (num : Numbers N) (s : Table N V) (n : Nat) (k₀ : Key N) (v₀ : V) : Prop :=
  ∃ i s', s.newkey num n k₀ = some (i, s') ∧
    ∃ rest', Rehashed num (s'.setNode i { s'.node i with val := some v₀ }) rest' ∧
      Added num s k₀ v₀ (s'.setNode i { s'.node i with val := some v₀ })

/-- The free node `z` that is found when the main position `mp` of the key is taken. -/
structure Placing (num : Numbers N) (s : Table N V) (rest : Nat → List Nat) (k₀ : Key N) (v₀ : V)
    (mp z : Nat) : Prop where
  main : mp = mainposition num s.sizenode k₀
  taken : (s.node mp).key ≠ none
  taken_val : (s.node mp).val.isSome = true
  getfreepos : s.getfreepos = (some z, { s with lastfree := z })
  lt_lastfree : z < s.lastfree
  lt : z < s.sizenode
  free : (s.node z).key = none
  below : ∀ x, x < s.sizenode → (s.node x).key = none → x ≠ z → x < z
  unplaced : Linking num { s with lastfree := z } rest
  linking : Linking num (withKey s z z k₀ v₀) rest
  loose : ¬ Chained num (withKey s z z k₀ v₀) rest z
  mainOf : (withKey s z z k₀ v₀).mainOf num z = some mp

theorem Placing.ne (hp : Placing num s rest k₀ v₀ mp z) : mp ≠ z :=
  fun heq => hp.taken (heq ▸ hp.free)

theorem Placing.not_chained (hp : Placing num s rest k₀ v₀ mp z) :
    ¬ Chained num { s with lastfree := z } rest z :=
  fun hc => hp.unplaced.key_of_chained hc hp.free

/-- The last free node is one that no chain has. -/
theorem Rehashed.placing (h : Rehashed num s rest) (hmp : mp = mainposition num s.sizenode k₀)
    (hval : (s.node mp).val ≠ none) (hz : s.freeBelow s.lastfree = some z)
    (hzlt : z < s.lastfree) (hzfree : (s.node z).key = none)
    (hzall : ∀ x, z < x → x < s.lastfree → (s.node x).key ≠ none) (v₀ : V) :
    Placing num s rest k₀ v₀ mp z := by
  have hkey : (s.node mp).key ≠ none := fun hnone => hval ((h.linking.both mp).mp hnone)
  have hne : mp ≠ z := fun heq => hkey (heq ▸ hzfree)
  have hunplaced : Linking num { s with lastfree := z } rest :=
    ⟨h.linking.real, h.linking.both, h.linking.chain, h.linking.belongs, h.linking.other,
      h.linking.loose⟩
  have hznot : ¬ Chained num { s with lastfree := z } rest z :=
    fun hc => hunplaced.key_of_chained hc hzfree
  have hlink : Linking num (withKey s z z k₀ v₀) rest := hunplaced.write hznot
    ⟨fun hk => (by cases hk), fun hv => (by cases hv)⟩ rfl
  have hmain : (withKey s z z k₀ v₀).mainOf num z = some mp := by
    rw [Table.mainOf, withKey_self, Option.map_some, hmp]
    rfl
  refine
    { main := hmp
      taken := hkey
      taken_val := Option.isSome_iff_ne_none.mpr hval
      getfreepos := by rw [Table.getfreepos, hz]
      lt_lastfree := hzlt
      lt := Nat.lt_of_lt_of_le hzlt h.lastfree_le
      free := hzfree
      below := fun x hx hnone hxz => ?_
      unplaced := hunplaced
      linking := hlink
      loose := ?_
      mainOf := hmain }
  · -- all behind it are in use
    rcases Nat.lt_or_ge z x with hgt | hle
    · exact absurd hnone (hzall x hgt (h.free x hx hnone))
    · exact Nat.lt_of_le_of_ne hle hxz
  · rintro ⟨m, hm, hmem⟩
    have hmz := hlink.mainOf_of_mem hm hmem
    rw [hmain] at hmz
    obtain rfl : mp = m := Option.some.inj hmz
    refine hznot ⟨mp, isHead_of_key hm rfl ?_, hmem⟩
    exact congrArg Node.key (withKey_ne hne).symm

/-- The main position is free. -/
theorem Rehashed.newkey_free (h : Rehashed num s rest)
    (hmp : mp = mainposition num s.sizenode k₀) (hnew : ∀ x, (s.node x).key ≠ some k₀)
    (hslot : arraySlot num s.sizearray k₀ = none) (hval : (s.node mp).val = none) (v₀ : V) :
    GetsNode num s n k₀ v₀ := by
  have hkey : (s.node mp).key = none := (h.linking.both mp).mpr hval
  have hnot : ¬ Chained num s rest mp := fun hc => h.linking.key_of_chained hc hkey
  have hnext : (s.node mp).next = none := h.linking.loose mp hnot
  refine ⟨mp, s.setNode mp { s.node mp with key := some k₀ }, ?_, rest, ?_⟩
  · simp [Table.newkey, ← hmp, hval, h.linking.real]
  · have heq : (s.setNode mp { s.node mp with key := some k₀ }).setNode mp
        { (s.setNode mp { s.node mp with key := some k₀ }).node mp with val := some v₀ } =
        withKey s s.lastfree mp k₀ v₀ := by
      rw [setNode_setNode, setNode_self, withKey]
      simp only [hnext]
    rw [heq]
    have hlink := h.linking.write (n := { key := some k₀, val := some v₀, next := none }) hnot
      ⟨fun hk => (by cases hk), fun hv => (by cases hv)⟩ rfl
    have hhead :
        IsHead num (s.setNode mp { key := some k₀, val := some v₀, next := none }) mp := by
      rw [IsHead, Table.mainOf, setNode_self, Option.map_some, setNode_sizenode, ← hmp]
    refine h.placed (hmp ▸ mainposition_lt _ k₀) hkey hnew hslot (Nat.le_refl _)
      (fun x hx hnone _ => h.free x hx hnone)
      ⟨hlink, rfl, Permuted.refl _, fun _ _ hx => hx, fun _ => .inr hhead.chained,
        fun hno => (by cases hno)⟩
      (fun x hx hnone => ?_) ?_
    · rw [← hnone]
      exact congrArg Node.key (setNode_ne hx _).symm
    · rw [withKey_self]
      exact Option.some_ne_none k₀

/-- The node there is in its main position, and the key goes behind it. -/
theorem Rehashed.newkey_behind (h : Rehashed num s rest) (hp : Placing num s rest k₀ v₀ mp z)
    (hnew : ∀ x, (s.node x).key ≠ some k₀) (hslot : arraySlot num s.sizearray k₀ = none)
    (hhead : IsHead num s mp) : GetsNode num s n k₀ v₀ := by
  have hne := hp.ne
  have hmain' : Table.mainOf num { s with lastfree := z } mp = some mp := hhead
  have hheadp : IsHead num (withKey s z z k₀ v₀) mp :=
    isHead_of_key hhead rfl (by rw [withKey_ne hne])
  have hmoved := hp.linking.behind (i := z) hp.lt hp.loose hp.mainOf hheadp
  set u := ((withKey s z z k₀ v₀).setNext z (nextOf (withKey s z z k₀ v₀) mp)).setNext mp (some z)
    with hu
  have huz : u.node z = { key := some k₀, val := some v₀, next := (s.node mp).next } := by
    rw [hu, Table.setNext, setNode_ne hne.symm, Table.setNext, setNode_self, withKey_self, nextOf,
      withKey_ne hne]
  have hum : u.node mp = { s.node mp with next := some z } := by
    rw [hu, Table.setNext, setNode_self, Table.setNext, setNode_ne hne, withKey_ne hne]
  have hux : ∀ x, x ≠ z → x ≠ mp → u.node x = s.node x := fun x hxz hxm => by
    rw [hu, Table.setNext, setNode_ne hxm, Table.setNext, setNode_ne hxz, withKey_ne hxz]
  -- what the function makes of the table
  set s₂ := (({ s with lastfree := z } : Table N V).setNext z (s.node mp).next).setNext mp
    (some z) with hs₂
  have hs₂z : s₂.node z = { s.node z with next := (s.node mp).next } := by
    rw [hs₂, Table.setNext, setNode_ne hne.symm]
    exact setNode_self _ _
  have hs₂m : s₂.node mp = { s.node mp with next := some z } := by
    rw [hs₂, Table.setNext, setNode_self, Table.setNext, setNode_ne hne]
  have hs₂x : ∀ x, x ≠ z → x ≠ mp → s₂.node x = s.node x := fun x hxz hxm => by
    rw [hs₂, Table.setNext, setNode_ne hxm, Table.setNext, setNode_ne hxz]
  refine ⟨z, s₂.setNode z { s₂.node z with key := some k₀ }, ?_, ?_⟩
  · simp [Table.newkey, ← hp.main, hp.taken_val, hp.getfreepos, hmain', hs₂]
  · have heq : (s₂.setNode z { s₂.node z with key := some k₀ }).setNode z
        { (s₂.setNode z { s₂.node z with key := some k₀ }).node z with val := some v₀ } = u := by
      rw [setNode_setNode, setNode_self]
      refine table_ext (fun x => ?_) rfl rfl rfl rfl rfl
      by_cases hxz : x = z
      · rw [hxz, setNode_self, huz, hs₂z]
      · rw [setNode_ne hxz]
        by_cases hxm : x = mp
        · rw [hxm, hs₂m, hum]
        · rw [hs₂x x hxz hxm, hux x hxz hxm]
    rw [heq]
    refine ⟨_, h.placed hp.lt hp.free hnew hslot (Nat.le_of_lt hp.lt_lastfree) hp.below hmoved
      (fun x hxz hnone => ?_) ?_⟩
    · by_cases hxm : x = mp
      · rw [hxm, hum] at hnone
        exact absurd hnone hp.taken
      · rw [hux x hxz hxm] at hnone
        exact hnone
    · rw [huz]
      exact Option.some_ne_none k₀

/-- The node there is not in its main position: it goes to the free one, and the key takes its
place. -/
theorem Rehashed.newkey_moved (h : Rehashed num s rest) (hn : s.sizenode ≤ n)
    (hp : Placing num s rest k₀ v₀ mp z) (hnew : ∀ x, (s.node x).key ≠ some k₀)
    (hslot : arraySlot num s.sizearray k₀ = none) (hhead : ¬ IsHead num s mp) :
    GetsNode num s n k₀ v₀ := by
  have hne := hp.ne
  have hznot := hp.not_chained
  have hchained : Chained num s rest mp :=
    (h.settled mp (hp.main ▸ mainposition_lt _ k₀)).resolve_left hp.taken
  -- `o` is the head of its chain, and `q` the node in front of it
  obtain ⟨o, ho, hmem⟩ := hchained
  have hmain' : Table.mainOf num { s with lastfree := z } mp = some o :=
    h.linking.mainOf_of_mem ho hmem
  have hne' : o ≠ mp := fun heq => hhead (heq ▸ ho)
  have hrest : mp ∈ rest o := (List.mem_cons.mp hmem).resolve_left hne'.symm
  obtain ⟨q, hfind, hq, hqm⟩ :=
    hp.unplaced.find_head (n := n) (show IsHead num _ o from ho) hn hrest
  have hqz : q ≠ z := fun heq => hznot (heq ▸ ⟨o, ho, hq⟩)
  have hqm' : q ≠ mp := by
    rintro rfl
    exact (h.linking.chain o ho).next_ne hq hqm
  have hoz : o ≠ z := by
    rintro rfl
    exact hznot (IsHead.chained (show IsHead num { s with lastfree := o } o from ho))
  have hop : IsHead num (withKey s z z k₀ v₀) o := isHead_of_key ho rfl (by rw [withKey_ne hoz])
  have hqm'' : nextOf (withKey s z z k₀ v₀) q = some mp := by
    rw [nextOf, withKey_ne hqz]
    exact hqm
  obtain ⟨rest', hmoved⟩ :=
    hp.linking.relinked (i := z) hp.lt hp.loose hp.mainOf hop hrest hq hqm''
  set u := (((withKey s z z k₀ v₀).setNext q (some z)).setNode z
    ((withKey s z z k₀ v₀).node mp)).setNode mp ((withKey s z z k₀ v₀).node z) with hu
  have hum : u.node mp = { key := some k₀, val := some v₀, next := none } := by
    rw [hu, setNode_self, withKey_self]
  have huz : u.node z = s.node mp := by
    rw [hu, setNode_ne hne.symm, setNode_self, withKey_ne hne]
  have hux : ∀ x, x ≠ z → x ≠ mp →
      u.node x = (({ s with lastfree := z } : Table N V).setNext q (some z)).node x := by
    intro x hxz hxm
    rw [hu, setNode_ne hxm, setNode_ne hxz]
    by_cases hxq : x = q
    · rw [hxq, Table.setNext, setNode_self, withKey_ne hqz, Table.setNext, setNode_self]
    · rw [Table.setNext, setNode_ne hxq, withKey_ne hxz, Table.setNext, setNode_ne hxq]
  -- what the function makes of the table
  set s₂ := (({ s with lastfree := z } : Table N V).setNext q (some z)).setNode z (s.node mp)
    with hs₂
  have hs₁m : (({ s with lastfree := z } : Table N V).setNext q (some z)).node mp =
      s.node mp := setNode_ne hqm'.symm _
  have hs₂m : s₂.node mp = s.node mp := by
    rw [hs₂, setNode_ne hne, hs₁m]
  refine ⟨mp, s₂.setNode mp { s₂.node mp with next := none, val := none, key := some k₀ }, ?_, ?_⟩
  · simp [Table.newkey, ← hp.main, hp.taken_val, hp.getfreepos, hmain', hne', hfind, hs₁m, hs₂]
  · have heq : (s₂.setNode mp { s₂.node mp with
          next := none, val := none, key := some k₀ }).setNode mp
        { (s₂.setNode mp { s₂.node mp with
          next := none, val := none, key := some k₀ }).node mp with val := some v₀ } = u := by
      rw [setNode_setNode, setNode_self]
      refine table_ext (fun x => ?_) rfl rfl rfl rfl rfl
      by_cases hxm : x = mp
      · rw [hxm, setNode_self, hum]
      · rw [setNode_ne hxm]
        by_cases hxz : x = z
        · rw [hxz, hs₂, setNode_self, huz]
        · rw [hs₂, setNode_ne hxz, hux x hxz hxm]
    rw [heq]
    refine ⟨rest', h.placed hp.lt hp.free hnew hslot (Nat.le_of_lt hp.lt_lastfree) hp.below hmoved
      (fun x hxz hnone => ?_) ?_⟩
    · by_cases hxm : x = mp
      · rw [hxm, hum] at hnone
        cases hnone
      · rw [hux x hxz hxm, setNext_key] at hnone
        exact hnone
    · rw [huz]
      exact hp.taken

/-- A key that is new gets a node, if there is a free one. -/
theorem Rehashed.newkey (h : Rehashed num s rest) (hn : s.sizenode ≤ n)
    (hnew : ∀ x, (s.node x).key ≠ some k₀) (hslot : arraySlot num s.sizearray k₀ = none)
    (hfree : ∃ x, x < s.sizenode ∧ (s.node x).key = none) (v₀ : V) :
    ∃ i s', s.newkey num n k₀ = some (i, s') ∧
      ∃ rest', Rehashed num (s'.setNode i { s'.node i with val := some v₀ }) rest' ∧
        Added num s k₀ v₀ (s'.setNode i { s'.node i with val := some v₀ }) := by
  by_cases hval : (s.node (mainposition num s.sizenode k₀)).val = none
  · exact h.newkey_free rfl hnew hslot hval v₀
  · obtain ⟨z, hz, hzlt, hzfree, hzall⟩ | ⟨-, hall⟩ := freeBelow_spec s s.lastfree
    · have hp := h.placing rfl hval hz hzlt hzfree hzall v₀
      by_cases hhead : IsHead num s (mainposition num s.sizenode k₀)
      · exact h.newkey_behind hp hnew hslot hhead
      · exact h.newkey_moved hn hp hnew hslot hhead
    · -- the free node is below the pointer
      obtain ⟨x, hx, hnone⟩ := hfree
      exact absurd hnone (hall x (h.free x hx hnone))

end NewKey

end Alcor.Proofs.Lua
