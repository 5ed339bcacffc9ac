import Alcor.Proofs.Lua.Entries
import Alcor.Proofs.Lua.Moving

/-!
# `Alcor.Proofs.Lua.Breaking`: the loop that breaks the chains

The first loop of `resize_hashpart`. At each step the nodes that the
loop has passed are clean, the others are as they were, and the entries
of both and of the array part are those of the table before
(`Breaking`).

* `Breaking.stepNil`, `Breaking.stepArray`, `Breaking.stepStay` and
  `Breaking.stepMove` are the four things that can become of a node.
* `Breaking.exists_free`: a free node is found because there is room for
  the keys.
* `breaking_run`: the loop does not fail, and keeps the invariant.
-/

set_option autoImplicit false

namespace Alcor.Proofs.Lua

open Alcor.Lua
open Lib (Chain)

variable {N V : Type} {num : Numbers N} {t u : Table N V} {live live' : Nat → Prop}

/-- An entry goes to the array part. -/
theorem Single.toArray (h : Single num t live) {i a : Nat} {k₀ : Key N} {v₀ : V}
    (hi : At t live i k₀ v₀) (hslot : arraySlot num t.sizearray k₀ = some a)
    (hat : ∀ x k v, At u live' x k v ↔ At t live x k v ∧ x ≠ i)
    (harray : u.array = Function.update t.array a (some v₀)) (hsize : u.sizearray = t.sizearray) :
    Single num u live' ∧ ∀ k v, Held num u live' k v ↔ Held num t live k v := by
  refine ⟨⟨fun x y k v w hx hy => ?_, fun x k v b hx hb => ?_⟩, fun k v => ⟨?_, ?_⟩⟩
  · exact h.distinct x y k v w ((hat x k v).mp hx).1 ((hat y k w).mp hy).1
  · obtain ⟨hx, hxi⟩ := (hat x k v).mp hx
    rw [hsize] at hb
    by_cases hba : b = a
    · subst hba
      obtain rfl := arraySlot_inj hb hslot
      exact absurd (h.distinct x i k v v₀ hx hi) hxi
    · rw [harray, Function.update_of_ne hba]
      exact h.apart x k v b hx hb
  · rintro (⟨b, hb, hv⟩ | ⟨x, hx⟩)
    · rw [hsize] at hb
      rw [harray] at hv
      by_cases hba : b = a
      · subst hba
        obtain rfl := arraySlot_inj hb hslot
        rw [Function.update_self] at hv
        cases hv
        exact .inr ⟨i, hi⟩
      · rw [Function.update_of_ne hba] at hv
        exact .inl ⟨b, hb, hv⟩
    · exact .inr ⟨x, ((hat x k v).mp hx).1⟩
  · rintro (⟨b, hb, hv⟩ | ⟨x, hx⟩)
    · have hba : b ≠ a := by
        rintro rfl
        rw [h.apart i k₀ v₀ b hi hslot] at hv
        cases hv
      refine .inl ⟨b, hsize ▸ hb, ?_⟩
      rw [harray, Function.update_of_ne hba]
      exact hv
    · by_cases hxi : x = i
      · subst hxi
        obtain rfl : k₀ = k := Option.some.inj (hi.2.1.symm.trans hx.2.1)
        refine .inl ⟨a, hsize ▸ hslot, ?_⟩
        rw [harray, Function.update_self]
        exact hi.2.2.symm.trans hx.2.2
      · exact .inr ⟨x, (hat x k v).mpr ⟨hx, hxi⟩⟩

/-- As many keys as there are nodes with an entry. -/
theorem Single.exists_keys (h : Single num t live) {xs : List Nat} (hxs : xs.Nodup)
    (hat : ∀ x ∈ xs, ∃ k v, At t live x k v) :
    ∃ l : List (Key N), l.Nodup ∧ l.length = xs.length ∧
      ∀ k ∈ l, ∃ x ∈ xs, ∃ v, At t live x k v := by
  induction xs with
  | nil => exact ⟨[], List.nodup_nil, rfl, fun _ hk => absurd hk List.not_mem_nil⟩
  | cons x xs ih =>
    obtain ⟨hnotin, hxs⟩ := List.nodup_cons.mp hxs
    obtain ⟨l, hl, hlen, hmem⟩ := ih hxs fun y hy => hat y (List.mem_cons_of_mem _ hy)
    obtain ⟨k, v, hx⟩ := hat x List.mem_cons_self
    refine ⟨k :: l, List.nodup_cons.mpr ⟨fun hk => ?_, hl⟩, congrArg Nat.succ hlen,
      fun k' hk' => ?_⟩
    · obtain ⟨y, hy, w, hyk⟩ := hmem k hk
      exact hnotin (h.distinct x y k v w hx hyk ▸ hy)
    · rcases List.mem_cons.mp hk' with rfl | hk'
      · exact ⟨x, List.mem_cons_self, v, hx⟩
      · obtain ⟨y, hy, hyk⟩ := hmem k' hk'
        exact ⟨y, List.mem_cons_of_mem _ hy, hyk⟩

/-- The keys with a value that are not in an array part of a size fit into the nodes. -/
def Room (num : Numbers N) (t : Table N V) (live : Nat → Prop) (asize size : Nat) : Prop :=
  ∀ l : List (Key N), l.Nodup →
    (∀ k ∈ l, (∃ v, Held num t live k v) ∧ arraySlot num asize k = none) → l.length ≤ size

/-! ### `getfreepos` -/

theorem freeBelow_spec (t : Table N V) (m : Nat) :
    (∃ n, t.freeBelow m = some n ∧ n < m ∧ (t.node n).key = none ∧
      ∀ x, n < x → x < m → (t.node x).key ≠ none) ∨
    (t.freeBelow m = none ∧ ∀ x, x < m → (t.node x).key ≠ none) := by
  induction m with
  | zero => exact .inr ⟨rfl, fun x hx => absurd hx (Nat.not_lt_zero x)⟩
  | succ m ih =>
    by_cases hkey : (t.node m).key = none
    · refine .inl ⟨m, by simp [Table.freeBelow, hkey], Nat.lt_succ_self m, hkey, fun x hx hxm => ?_⟩
      omega
    · have hstep : t.freeBelow (m + 1) = t.freeBelow m := by simp [Table.freeBelow, hkey]
      obtain ⟨n, hn, hlt, hnone, hall⟩ | ⟨hn, hall⟩ := ih
      · refine .inl ⟨n, hstep.trans hn, Nat.lt_succ_of_lt hlt, hnone, fun x hx hxm => ?_⟩
        obtain hxm | rfl := Nat.lt_succ_iff_lt_or_eq.mp hxm
        · exact hall x hx hxm
        · exact hkey
      · refine .inr ⟨hstep.trans hn, fun x hxm => ?_⟩
        obtain hxm | rfl := Nat.lt_succ_iff_lt_or_eq.mp hxm
        · exact hall x hxm
        · exact hkey

/-! ### The loop -/

/-- The nodes that matter when the loop has come to a node. -/
def Live (old new j x : Nat) : Prop := x < old ∧ (j ≤ x ∨ x < new)

theorem live_self {old new j : Nat} (hj : j < old) : Live old new j j :=
  ⟨hj, .inl (Nat.le_refl j)⟩

theorem live_succ {old new j x : Nat} (hx : x ≠ j) : Live old new (j + 1) x ↔ Live old new j x := by
  unfold Live
  omega

/-- The invariant of the loop, for the table before it. -/
structure Breaking (num : Numbers N) (b : Table N V) (old j : Nat) (s : Table N V) : Prop where
  lsize : s.lsizenode = b.lsizenode
  real : s.dummy = b.dummy
  sizearray : s.sizearray = b.sizearray
  clean : ∀ x, x < j → x < b.sizenode → (s.node x).next = none ∧
    ((s.node x).key = none ↔ (s.node x).val = none) ∧
      ∀ k, (s.node x).key = some k → arraySlot num b.sizearray k = none
  todo : ∀ x, j ≤ x → s.node x = b.node x
  single : Single num s (Live old b.sizenode j)
  held : ∀ k v, Held num s (Live old b.sizenode j) k v ↔ Held num b (· < old) k v
  free : ∀ x, x < b.sizenode → (s.node x).key = none → x < s.lastfree
  lastfree_le : s.lastfree ≤ b.sizenode
  fresh : j ≤ b.sizenode → s.lastfree = b.sizenode

section Step

variable {b s : Table N V} {old j : Nat} {k₀ : Key N} {v₀ : V}

/-- The node has been emptied, and of the rest only the array may have changed. -/
theorem Breaking.emptied (h : Breaking num b old j s) (hlsize : u.lsizenode = s.lsizenode)
    (hdummy : u.dummy = s.dummy) (hsize : u.sizearray = s.sizearray)
    (hlast : u.lastfree = s.lastfree) (hself : u.node j = {})
    (hother : ∀ x, x ≠ j → u.node x = s.node x)
    (hsingle : Single num u (Live old b.sizenode (j + 1)))
    (hheld : ∀ k v, Held num u (Live old b.sizenode (j + 1)) k v ↔
      Held num s (Live old b.sizenode j) k v) :
    Breaking num b old (j + 1) u := by
  refine ⟨hlsize.trans h.lsize, hdummy.trans h.real, hsize.trans h.sizearray,
    fun x hxj hxn => ?_, fun x hx => ?_, hsingle, fun k v => (hheld k v).trans (h.held k v),
    fun x hxn hnone => ?_, hlast ▸ h.lastfree_le,
    fun hle => hlast.trans (h.fresh (Nat.le_of_succ_le hle))⟩
  · by_cases hx : x = j
    · rw [hx, hself]
      exact ⟨rfl, ⟨fun _ => rfl, fun _ => rfl⟩, fun k hk => (by cases hk)⟩
    · rw [hother x hx]
      exact h.clean x (by omega) hxn
  · rw [hother x (by omega)]
    exact h.todo x (Nat.le_of_succ_le hx)
  · rw [hlast]
    by_cases hx : x = j
    · -- below the new size no free node has been asked for yet
      rw [h.fresh (hx ▸ Nat.le_of_lt hxn)]
      exact hxn
    · rw [hother x hx] at hnone
      exact h.free x hxn hnone

/-- A node with a nil value is cleared. -/
theorem Breaking.stepNil (h : Breaking num b old j s) (hval : (s.node j).val = none) :
    ∃ s', s.breakNode num b.sizenode j = some s' ∧ Breaking num b old (j + 1) s' := by
  have hnode : (s.setNext j none).node j = { s.node j with next := none } := setNode_self _ _
  refine ⟨(s.setNext j none).setNode j { (s.setNext j none).node j with key := none }, ?_, ?_⟩
  · simp [Table.breakNode, hnode, hval]
  · set s' := (s.setNext j none).setNode j { (s.setNext j none).node j with key := none } with hs'
    have hself : s'.node j = {} := by
      rw [hs', setNode_self, hnode]
      simp [hval]
    have hother : ∀ x, x ≠ j → s'.node x = s.node x := by
      intro x hx
      rw [hs', setNode_ne hx]
      exact setNode_ne hx _
    have hat : ∀ x k v, At s' (Live old b.sizenode (j + 1)) x k v ↔
        At s (Live old b.sizenode j) x k v := by
      intro x k v
      by_cases hx : x = j
      · -- neither has an entry there
        subst hx
        refine ⟨fun hat => ?_, fun hat => ?_⟩
        · rw [At, hself] at hat
          cases hat.2.1
        · rw [At, hval] at hat
          cases hat.2.2
      · rw [At, At, hother x hx, live_succ hx]
    exact h.emptied rfl rfl rfl rfl hself hother (h.single.moved (Equiv.refl _) hat rfl rfl)
      (Held.moved (Equiv.refl _) hat rfl rfl)

/-- An integer key of the array's range goes to the array part. -/
theorem Breaking.stepArray (h : Breaking num b old j s) (hj : j < old)
    (hk₀ : (s.node j).key = some k₀) (hv₀ : (s.node j).val = some v₀) {a : Nat}
    (hslot : arraySlot num s.sizearray k₀ = some a) :
    ∃ s', s.breakNode num b.sizenode j = some s' ∧ Breaking num b old (j + 1) s' := by
  have hnode : (s.setNext j none).node j = { s.node j with next := none } := setNode_self _ _
  refine ⟨({ s.setNext j none with array := Function.update s.array a (some v₀) } :
    Table N V).setNode j { (s.setNext j none).node j with key := none, val := none }, ?_, ?_⟩
  · have harray : (s.setNext j none).array = s.array := rfl
    have hsize : (s.setNext j none).sizearray = s.sizearray := rfl
    simp [Table.breakNode, Table.moveNumber, hnode, hv₀, hk₀, hslot, harray, hsize]
  · set s' := ({ s.setNext j none with array := Function.update s.array a (some v₀) } :
      Table N V).setNode j { (s.setNext j none).node j with key := none, val := none } with hs'
    have hself : s'.node j = {} := by rw [hs', setNode_self, hnode]
    have hother : ∀ x, x ≠ j → s'.node x = s.node x := by
      intro x hx
      rw [hs', setNode_ne hx]
      exact setNode_ne hx _
    have hat : ∀ x k v, At s' (Live old b.sizenode (j + 1)) x k v ↔
        At s (Live old b.sizenode j) x k v ∧ x ≠ j := by
      intro x k v
      by_cases hx : x = j
      · refine ⟨fun hat => ?_, fun hat => absurd hx hat.2⟩
        rw [At, hx, hself] at hat
        cases hat.2.1
      · rw [At, At, hother x hx, live_succ hx]
        exact (and_iff_left hx).symm
    obtain ⟨hsingle, hheld⟩ :=
      h.single.toArray (u := s') ⟨live_self hj, hk₀, hv₀⟩ hslot hat rfl rfl
    exact h.emptied rfl rfl rfl rfl hself hother hsingle hheld

/-- The node that is passed has a key that does not belong to the array. -/
structure HashNode (num : Numbers N) (s : Table N V) (j : Nat) (k₀ : Key N) (v₀ : V) : Prop where
  key : (s.node j).key = some k₀
  val : (s.node j).val = some v₀
  slot : arraySlot num s.sizearray k₀ = none

theorem HashNode.node_setNext (hn : HashNode num s j k₀ v₀) :
    (s.setNext j none).node j = { key := some k₀, val := some v₀, next := none } := by
  rw [Table.setNext, setNode_self]
  simp only [hn.key, hn.val]

theorem HashNode.moveNumber (hn : HashNode num s j k₀ v₀) :
    (s.setNext j none).moveNumber num j = none := by
  have hsize : (s.setNext j none).sizearray = s.sizearray := rfl
  simp [Table.moveNumber, hn.node_setNext, hn.slot, hsize]

/-- A node with this key is as the loop leaves it. -/
theorem HashNode.clean (hn : HashNode num s j k₀ v₀) (h : Breaking num b old j s) {x : Nat}
    (hx : u.node x = { key := some k₀, val := some v₀, next := none }) :
    (u.node x).next = none ∧ ((u.node x).key = none ↔ (u.node x).val = none) ∧
      ∀ k, (u.node x).key = some k → arraySlot num b.sizearray k = none := by
  rw [hx]
  refine ⟨rfl, ⟨fun hnone => (by cases hnone), fun hnone => (by cases hnone)⟩, fun k hk => ?_⟩
  obtain rfl : k₀ = k := Option.some.inj hk
  rw [← h.sizearray]
  exact hn.slot

/-- Below the new size the node stays where it is. -/
theorem Breaking.stepStay (h : Breaking num b old j s) (hn : HashNode num s j k₀ v₀)
    (hjn : j < b.sizenode) :
    ∃ s', s.breakNode num b.sizenode j = some s' ∧ Breaking num b old (j + 1) s' := by
  have hother : ∀ x, x ≠ j → (s.setNext j none).node x = s.node x := fun x hx => setNode_ne hx _
  refine ⟨s.setNext j none, ?_, ?_⟩
  · have hvalj : ((s.setNext j none).node j).val.isNone = false := by
      rw [hn.node_setNext]
      rfl
    simp only [Table.breakNode, hvalj, hn.moveNumber, if_neg (Nat.not_le.mpr hjn)]
    rfl
  · have hat : ∀ x k v, At (s.setNext j none) (Live old b.sizenode (j + 1)) x k v ↔
        At s (Live old b.sizenode j) x k v := by
      intro x k v
      rw [At, At, setNext_key, setNext_val]
      refine and_congr_left fun _ => ?_
      unfold Live
      omega
    refine ⟨h.lsize, h.real, h.sizearray, fun x hxj hxn => ?_, fun x hx => ?_,
      h.single.moved (Equiv.refl _) hat rfl rfl,
      fun k v => (Held.moved (Equiv.refl _) hat rfl rfl k v).trans (h.held k v),
      fun x hxn hnone => ?_, h.lastfree_le, fun hle => h.fresh (Nat.le_of_succ_le hle)⟩
    · by_cases hx : x = j
      · exact hn.clean h (hx ▸ hn.node_setNext)
      · rw [hother x hx]
        exact h.clean x (by omega) hxn
    · rw [hother x (by omega)]
      exact h.todo x (Nat.le_of_succ_le hx)
    · rw [setNext_key] at hnone
      exact h.free x hxn hnone

/-- A node that vanishes finds a free one below: otherwise there are more keys than room. -/
theorem Breaking.exists_free (h : Breaking num b old j s) (hj : j < old)
    (hn : HashNode num s j k₀ v₀) (hjn : b.sizenode ≤ j)
    (hroom : Room num b (· < old) b.sizearray b.sizenode) :
    ∃ n, (s.setNext j none).freeBelow s.lastfree = some n ∧ n < s.lastfree ∧
      (s.node n).key = none ∧ ∀ x, n < x → x < s.lastfree → (s.node x).key ≠ none := by
  have hkeys : ∀ x, ((s.setNext j none).node x).key = (s.node x).key := fun x => setNext_key _ _ _
  have hbelow := freeBelow_spec (s.setNext j none) s.lastfree
  simp only [hkeys] at hbelow
  obtain hfound | ⟨-, hall⟩ := hbelow
  · exact hfound
  · have hfull : ∀ x ∈ j :: List.range b.sizenode,
        ∃ k v, At s (Live old b.sizenode j) x k v := by
      intro x hx
      rcases List.mem_cons.mp hx with rfl | hx
      · exact ⟨k₀, v₀, live_self hj, hn.key, hn.val⟩
      · have hxn := List.mem_range.mp hx
        have hkey : (s.node x).key ≠ none := fun hnone => hall x (h.free x hxn hnone) hnone
        obtain ⟨-, hboth, -⟩ := h.clean x (by omega) hxn
        obtain ⟨k, hk⟩ := Option.ne_none_iff_exists'.mp hkey
        obtain ⟨v, hv⟩ := Option.ne_none_iff_exists'.mp fun hnone => hkey (hboth.mpr hnone)
        exact ⟨k, v, ⟨by omega, .inr hxn⟩, hk, hv⟩
    have hnodup : (j :: List.range b.sizenode).Nodup :=
      List.nodup_cons.mpr ⟨fun hmem => Nat.not_lt.mpr hjn (List.mem_range.mp hmem),
        List.nodup_range⟩
    -- one key more than the nodes have room for
    obtain ⟨l, hl, hlen, hmem⟩ := h.single.exists_keys hnodup hfull
    have hle := hroom l hl fun k hk => by
      obtain ⟨x, hx, v, hat⟩ := hmem k hk
      refine ⟨⟨v, (h.held k v).mp (.inr ⟨x, hat⟩)⟩, ?_⟩
      rcases List.mem_cons.mp hx with rfl | hx
      · obtain rfl : k₀ = k := Option.some.inj (hn.key.symm.trans hat.2.1)
        rw [← h.sizearray]
        exact hn.slot
      · have hxn := List.mem_range.mp hx
        exact (h.clean x (by omega) hxn).2.2 k hat.2.1
    rw [hlen, List.length_cons, List.length_range] at hle
    omega

/-- A node that vanishes goes to the free one. -/
theorem Breaking.stepMove (h : Breaking num b old j s) (hj : j < old)
    (hn : HashNode num s j k₀ v₀) (hjn : b.sizenode ≤ j)
    (hroom : Room num b (· < old) b.sizearray b.sizenode) :
    ∃ s', s.breakNode num b.sizenode j = some s' ∧ Breaking num b old (j + 1) s' := by
  obtain ⟨n, hfound, hnlt, hnkey, hnall⟩ := h.exists_free hj hn hjn hroom
  have hnb : n < b.sizenode := Nat.lt_of_lt_of_le hnlt h.lastfree_le
  have hkeys : ∀ x, ((s.setNext j none).node x).key = (s.node x).key := fun x => setNext_key _ _ _
  refine ⟨({ s.setNext j none with lastfree := n } : Table N V).setNode n
    ((s.setNext j none).node j), ?_, ?_⟩
  · have hfree : (s.setNext j none).lastfree = s.lastfree := rfl
    have hget : (s.setNext j none).getfreepos =
        (some n, { s.setNext j none with lastfree := n }) := by
      rw [Table.getfreepos, hfree, hfound]
    have hvalj : ((s.setNext j none).node j).val.isNone = false := by
      rw [hn.node_setNext]
      rfl
    simp only [Table.breakNode, hvalj, hn.moveNumber, if_pos hjn, hget]
    rfl
  · set s' := ({ s.setNext j none with lastfree := n } : Table N V).setNode n
      ((s.setNext j none).node j) with hs'
    have hself : s'.node n = { key := some k₀, val := some v₀, next := none } := by
      rw [hs', setNode_self, hn.node_setNext]
    have hother : ∀ x, x ≠ n → s'.node x = (s.setNext j none).node x :=
      fun x hx => setNode_ne hx _
    have hstay : ∀ x, x ≠ n → x ≠ j → s'.node x = s.node x := fun x hxn hxj =>
      (hother x hxn).trans (setNode_ne hxj _)
    -- the entries of the two nodes change places
    have hat : ∀ x k v, At s' (Live old b.sizenode (j + 1)) x k v ↔
        At s (Live old b.sizenode j) (Equiv.swap j n x) k v := by
      intro x k v
      by_cases hxn : x = n
      · subst hxn
        rw [Equiv.swap_apply_right, At, At, hself, hn.key, hn.val]
        exact and_congr_left fun _ =>
          ⟨fun _ => live_self hj, fun _ => ⟨by omega, .inr hnb⟩⟩
      · by_cases hxj : x = j
        · subst hxj
          rw [Equiv.swap_apply_left]
          refine ⟨fun hat => ?_, fun hat => ?_⟩
          · have hlive := hat.1
            unfold Live at hlive
            omega
          · exact absurd hat.2.1 (by rw [hnkey]; exact fun hk => (by cases hk))
        · rw [Equiv.swap_apply_of_ne_of_ne hxj hxn, At, At, hstay x hxn hxj, live_succ hxj]
    refine ⟨h.lsize, h.real, h.sizearray, fun x hxj hxn => ?_, fun x hx => ?_,
      h.single.moved _ hat rfl rfl,
      fun k v => (Held.moved _ hat rfl rfl k v).trans (h.held k v),
      fun x hxn hnone => ?_, Nat.le_of_lt hnb, fun hle => by omega⟩
    · by_cases hx : x = n
      · exact hn.clean h (hx ▸ hself)
      · rw [hstay x hx (by omega)]
        exact h.clean x (by omega) hxn
    · rw [hstay x (by omega) (by omega)]
      exact h.todo x (Nat.le_of_succ_le hx)
    · by_cases hx : x = n
      · rw [hx, hself] at hnone
        cases hnone
      · rw [hother x hx, hkeys] at hnone
        have hlt := h.free x hxn hnone
        rcases Nat.lt_or_ge n x with hgt | hle
        · exact absurd hnone (hnall x hgt hlt)
        · exact Nat.lt_of_le_of_ne hle hx

/-- One pass does not fail, and keeps the invariant. -/
theorem Breaking.step (h : Breaking num b old j s) (hj : j < old)
    (hkeyed : ∀ x, x < old → (b.node x).key = none → (b.node x).val = none)
    (hroom : Room num b (· < old) b.sizearray b.sizenode) :
    ∃ s', s.breakNode num b.sizenode j = some s' ∧ Breaking num b old (j + 1) s' := by
  by_cases hval : (s.node j).val = none
  · exact h.stepNil hval
  · have hnode := h.todo j (Nat.le_refl j)
    have hkey : (s.node j).key ≠ none := fun hnone => hval (by
      rw [hnode] at hnone ⊢
      exact hkeyed j hj hnone)
    obtain ⟨v₀, hv₀⟩ := Option.ne_none_iff_exists'.mp hval
    obtain ⟨k₀, hk₀⟩ := Option.ne_none_iff_exists'.mp hkey
    cases hslot : arraySlot num s.sizearray k₀ with
    | some a => exact h.stepArray hj hk₀ hv₀ hslot
    | none =>
      have hn : HashNode num s j k₀ v₀ := ⟨hk₀, hv₀, hslot⟩
      rcases Nat.lt_or_ge j b.sizenode with hjn | hjn
      · exact h.stepStay hn hjn
      · exact h.stepMove hj hn hjn hroom

end Step

/-- The loop does not fail, and keeps the invariant. -/
theorem breaking_run {b : Table N V} {old : Nat}
    (hstart : Breaking num b old 0 b)
    (hkeyed : ∀ x, x < old → (b.node x).key = none → (b.node x).val = none)
    (hroom : Room num b (· < old) b.sizearray b.sizenode) :
    ∀ j, j ≤ old → ∃ s, breakNodes num b.sizenode j b = some s ∧ Breaking num b old j s := by
  intro j
  induction j with
  | zero => exact fun _ => ⟨b, rfl, hstart⟩
  | succ j ih =>
    intro hj
    obtain ⟨s, hrun, hs⟩ := ih (Nat.le_of_succ_le hj)
    obtain ⟨s', hstep, hs'⟩ := hs.step hj hkeyed hroom
    exact ⟨s', by simp [breakNodes, hrun, hstep], hs'⟩

end Alcor.Proofs.Lua
