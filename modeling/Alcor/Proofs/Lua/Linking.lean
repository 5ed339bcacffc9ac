import Alcor.Lib.Chain
import Alcor.Lua.Table
import Mathlib.Data.List.Perm.Subperm
import Mathlib.Data.Nat.Bitwise
import Mathlib.Tactic.Set

/-!
# `Alcor.Proofs.Lua.Linking`: the chains while nodes are moved

Some nodes are in the chain of their main position already, the others
have no link yet. `Linking` says so for a function that gives the rest
of each chain. Three things keep it, and all that `move_node` and
`newkey` do is made of these:

* `Linking.write`: a node of no chain is written;
* `Linking.insert`: it goes behind a node in its main position;
* `Linking.relocate`: a node of a chain goes to a free place, and the
  chain goes through that place.

`findPrevNode_spec` is the search for the node before one in a chain.
-/

set_option autoImplicit false

namespace Alcor.Proofs.Lua

open Alcor.Lua
open Lib (Chain)

variable {x y : Nat}
variable {N V : Type} {num : Numbers N} {t : Table N V} {rest : Nat → List Nat}

/-! ### Writing nodes -/

@[simp] theorem setNode_self (i : Nat) (n : Node N V) : (t.setNode i n).node i = n :=
  Function.update_self _ _ _

@[simp] theorem setNode_ne {i : Nat} (h : x ≠ i) (n : Node N V) :
    (t.setNode i n).node x = t.node x :=
  Function.update_of_ne h _ _

@[simp] theorem setNode_sizenode (i : Nat) (n : Node N V) :
    (t.setNode i n).sizenode = t.sizenode := rfl

theorem setNext_key (i x : Nat) (next : Option Nat) :
    ((t.setNext i next).node x).key = (t.node x).key := by
  by_cases hx : x = i
  · subst hx
    simp [Table.setNext]
  · simp [Table.setNext, hx]

theorem setNext_val (i x : Nat) (next : Option Nat) :
    ((t.setNext i next).node x).val = (t.node x).val := by
  by_cases hx : x = i
  · subst hx
    simp [Table.setNext]
  · simp [Table.setNext, hx]

theorem hashmod_lt (l n : Nat) : hashmod (2 ^ l) n < 2 ^ l := by
  unfold hashmod
  cases l with
  | zero => simp [Nat.mod_one]
  | succ l =>
    have hor : (2 ^ (l + 1) - 1) ||| 1 < 2 ^ (l + 1) :=
      Nat.or_lt_two_pow (Nat.sub_lt (Nat.two_pow_pos _) Nat.one_pos)
        (Nat.one_lt_two_pow (Nat.succ_ne_zero l))
    have hone : 0 < (2 ^ (l + 1) - 1) ||| 1 :=
      Nat.lt_of_lt_of_le Nat.one_pos Nat.right_le_or
    exact Nat.lt_trans (Nat.mod_lt _ hone) hor

theorem mainposition_lt (l : Nat) (k : Key N) : mainposition num (2 ^ l) k < 2 ^ l := by
  have hpos : 0 < 2 ^ l := Nat.two_pow_pos l
  cases k with
  | number n =>
    show (if num.isZero n = true then 0 else hashmod (2 ^ l) (num.word n)) < 2 ^ l
    split
    · exact hpos
    · exact hashmod_lt l _
  | string address hash => exact Nat.mod_lt _ hpos
  | boolean b => exact Nat.mod_lt _ hpos
  | pointer type p => exact hashmod_lt l p
  | object p => exact hashmod_lt l p

theorem mainOf_lt {m : Nat} (h : t.mainOf num x = some m) : m < t.sizenode := by
  obtain ⟨k, -, rfl⟩ := Option.map_eq_some_iff.mp h
  exact mainposition_lt _ k

theorem mainOf_congr {u : Table N V} (hsize : u.lsizenode = t.lsizenode)
    (hkey : (u.node x).key = (t.node y).key) : u.mainOf num x = t.mainOf num y := by
  rw [Table.mainOf, Table.mainOf, hkey, Table.sizenode, Table.sizenode, hsize]

/-! ### The invariant -/

/-- The links of a table. -/
def nextOf (t : Table N V) (i : Nat) : Option Nat := (t.node i).next

theorem nextOf_setNext_self (i : Nat) (next : Option Nat) :
    nextOf (t.setNext i next) i = next := by
  rw [nextOf, Table.setNext, setNode_self]

theorem nextOf_setNext_ne {i : Nat} (h : x ≠ i) (next : Option Nat) :
    nextOf (t.setNext i next) x = nextOf t x := by
  rw [nextOf, Table.setNext, setNode_ne h, nextOf]

/-- The node is in its main position. -/
def IsHead (num : Numbers N) (t : Table N V) (m : Nat) : Prop := t.mainOf num m = some m

/-- A node with the key of one that belongs there is in its main position. -/
theorem isHead_of_key {u : Table N V} {i m : Nat} (hmain : t.mainOf num i = some m)
    (hsize : u.lsizenode = t.lsizenode) (hkey : (u.node m).key = (t.node i).key) :
    IsHead num u m :=
  (mainOf_congr hsize hkey).trans hmain

/-- The node is in the chain of a node that is in its main position. -/
def Chained (num : Numbers N) (t : Table N V) (rest : Nat → List Nat) (x : Nat) : Prop :=
  ∃ m, IsHead num t m ∧ x ∈ m :: rest m

/-- While nodes are moved: each node in its main position is the first of a chain of nodes that
belong there, and the nodes that are in no chain have no link. -/
structure Linking (num : Numbers N) (t : Table N V) (rest : Nat → List Nat) : Prop where
  real : t.dummy = false
  both : ∀ x, (t.node x).key = none ↔ (t.node x).val = none
  chain : ∀ m, IsHead num t m → Chain (nextOf t) (m :: rest m)
  belongs : ∀ m, IsHead num t m → ∀ x ∈ rest m, t.mainOf num x = some m ∧ x < t.sizenode
  other : ∀ m, ¬ IsHead num t m → rest m = []
  loose : ∀ x, ¬ Chained num t rest x → nextOf t x = none

theorem IsHead.chained {m : Nat} (h : IsHead num t m) : Chained num t rest m :=
  ⟨m, h, List.mem_cons_self⟩

theorem Linking.mainOf_of_mem (h : Linking num t rest) {m : Nat} (hm : IsHead num t m)
    (hx : x ∈ m :: rest m) : t.mainOf num x = some m := by
  rcases List.mem_cons.mp hx with rfl | hx
  · exact hm
  · exact (h.belongs m hm x hx).1

theorem Linking.key_of_chained (h : Linking num t rest) (hx : Chained num t rest x) :
    (t.node x).key ≠ none := by
  obtain ⟨m, hm, hx⟩ := hx
  intro hnone
  have hmain := h.mainOf_of_mem hm hx
  rw [Table.mainOf, hnone] at hmain
  cases hmain

theorem Linking.lt_of_chained (h : Linking num t rest) (hx : Chained num t rest x) :
    x < t.sizenode := by
  obtain ⟨m, hm, hx⟩ := hx
  rcases List.mem_cons.mp hx with rfl | hx
  · exact mainOf_lt hm
  · exact (h.belongs m hm x hx).2

theorem Linking.length_lt (h : Linking num t rest) {m : Nat} (hm : IsHead num t m) :
    (rest m).length < t.sizenode := by
  have hsub : m :: rest m ⊆ List.range t.sizenode := by
    intro x hx
    exact List.mem_range.mpr (h.lt_of_chained ⟨m, hm, hx⟩)
  have hle := (List.subperm_of_subset ((h.chain m hm).nodup) hsub).length_le
  rw [List.length_range] at hle
  exact hle

/-! ### The search for the node before one -/

/-- The search along a chain finds the node before the one it looks
for, or says that it is not there. -/
theorem findPrevNode_spec :
    ∀ (r : List Nat) (s n : Nat), Chain (nextOf t) (s :: r) → r.length < n →
      (x ∉ r → t.findPrevNode n s x = some none) ∧
      (x ∈ r → ∃ p, t.findPrevNode n s x = some (some p) ∧ p ∈ s :: r ∧ nextOf t p = some x) := by
  intro r
  induction r with
  | nil =>
    intro s n h hn
    cases n with
    | zero => cases hn
    | succ n =>
      have hnext : (t.node s).next = none := h.1
      exact ⟨fun _ => by simp [Table.findPrevNode, hnext], fun hx => (by cases hx)⟩
  | cons y r ih =>
    intro s n h hn
    cases n with
    | zero => cases hn
    | succ n =>
      have hnext : (t.node s).next = some y := h.1
      by_cases hxy : x = y
      · subst hxy
        refine ⟨fun hx => absurd List.mem_cons_self hx, fun _ => ⟨s, ?_, List.mem_cons_self, hnext⟩⟩
        simp [Table.findPrevNode, hnext]
      · have hstep : t.findPrevNode (n + 1) s x = t.findPrevNode n y x := by
          simp [Table.findPrevNode, hnext, Ne.symm hxy]
        obtain ⟨hno, hyes⟩ := ih y n h.2 (Nat.lt_of_succ_lt_succ hn)
        rw [hstep]
        refine ⟨fun hx => hno fun hm => hx (List.mem_cons_of_mem _ hm), fun hx => ?_⟩
        rcases List.mem_cons.mp hx with rfl | hx
        · exact absurd rfl hxy
        · obtain ⟨p, hp, hmem, hlink⟩ := hyes hx
          exact ⟨p, hp, List.mem_cons_of_mem _ hmem, hlink⟩

/-- From a node in its main position the search is in its chain. -/
theorem Linking.find_head (h : Linking num t rest) {s n : Nat} (hs : IsHead num t s)
    (hn : t.sizenode ≤ n) (hx : x ∈ rest s) :
    ∃ p, t.findPrevNode n s x = some (some p) ∧ p ∈ s :: rest s ∧ nextOf t p = some x :=
  (findPrevNode_spec (rest s) s n (h.chain s hs) (Nat.lt_of_lt_of_le (h.length_lt hs) hn)).2 hx

/-- No search finds a node that is in no chain. -/
theorem Linking.find_loose (h : Linking num t rest) {s n : Nat} (hx : ¬ Chained num t rest x)
    (hn : t.sizenode ≤ n) : t.findPrevNode n s x = some none := by
  by_cases hs : Chained num t rest s
  · obtain ⟨m, hm, hs⟩ := hs
    obtain ⟨a, b, hab⟩ := List.append_of_mem hs
    have hchain := h.chain m hm
    rw [hab] at hchain
    have hlen : b.length ≤ (rest m).length := by
      have hl := congrArg List.length hab
      simp only [List.length_cons, List.length_append] at hl
      omega
    have hlt := h.length_lt hm
    refine (findPrevNode_spec b s n hchain.suffix (by omega)).1 fun hxb => hx ⟨m, hm, ?_⟩
    rw [hab]
    exact List.mem_append_right _ (List.mem_cons_of_mem _ hxb)
  · have hpos : 0 < t.sizenode := Nat.two_pow_pos _
    refine (findPrevNode_spec [] s n ⟨h.loose s hs, trivial⟩ ?_).1 List.not_mem_nil
    exact Nat.lt_of_lt_of_le hpos hn

/-! ### What keeps the invariant -/

/-- A node that is in no chain may be written. -/
theorem Linking.write (h : Linking num t rest) (hx : ¬ Chained num t rest x) {n : Node N V}
    (hboth : n.key = none ↔ n.val = none) (hnext : n.next = none) :
    Linking num (t.setNode x n) rest := by
  have hxhead : ¬ IsHead num t x := fun hm => hx hm.chained
  have hrest : rest x = [] := h.other x hxhead
  have hmain : ∀ y, y ≠ x → (t.setNode x n).mainOf num y = t.mainOf num y :=
    fun y hy => mainOf_congr rfl (by rw [setNode_ne hy])
  have hhead : ∀ m, m ≠ x → (IsHead num (t.setNode x n) m ↔ IsHead num t m) := fun m hm => by
    rw [IsHead, hmain m hm, IsHead]
  -- the chains do not go through the node
  have hin : ∀ m, IsHead num t m → ∀ y ∈ m :: rest m, y ≠ x :=
    fun m hm y hy heq => hx ⟨m, hm, heq ▸ hy⟩
  have hlink : ∀ y, y ≠ x → nextOf (t.setNode x n) y = nextOf t y := fun y hy => by
    rw [nextOf, setNode_ne hy, nextOf]
  refine ⟨h.real, fun y => ?_, fun m hm => ?_, fun m hm y hy => ?_, fun m hm => ?_, fun y hy => ?_⟩
  · by_cases hy : y = x
    · subst hy
      rw [setNode_self]
      exact hboth
    · rw [setNode_ne hy]
      exact h.both y
  · by_cases hmx : m = x
    · subst hmx
      rw [hrest]
      exact ⟨by rw [nextOf, setNode_self, hnext]; rfl, trivial⟩
    · have hm' := (hhead m hmx).mp hm
      exact (h.chain m hm').congr fun y hy => hlink y (hin m hm' y hy)
  · by_cases hmx : m = x
    · rw [hmx, hrest] at hy
      cases hy
    · have hm' := (hhead m hmx).mp hm
      rw [hmain y (hin m hm' y (List.mem_cons_of_mem _ hy))]
      exact h.belongs m hm' y hy
  · by_cases hmx : m = x
    · rw [hmx]
      exact hrest
    · exact h.other m fun hm' => hm ((hhead m hmx).mpr hm')
  · by_cases hyx : y = x
    · rw [hyx, nextOf, setNode_self, hnext]
    · rw [hlink y hyx]
      refine h.loose y fun hc => ?_
      obtain ⟨m, hm, hmem⟩ := hc
      refine hy ⟨m, ?_, hmem⟩
      exact (hhead m (hin m hm m List.mem_cons_self)).mpr hm

/-- The nodes that are in chains stay there when another is written. -/
theorem Chained.write (hy : Chained num t rest y) (hx : ¬ Chained num t rest x) (n : Node N V) :
    Chained num (t.setNode x n) rest y := by
  obtain ⟨m, hm, hmem⟩ := hy
  refine ⟨m, ?_, hmem⟩
  have hmx : m ≠ x := fun heq => hx (heq ▸ hm.chained)
  exact isHead_of_key hm rfl (by rw [setNode_ne hmx])

/-- A node of no chain goes behind the node in its main position. -/
theorem Linking.insert (h : Linking num t rest) {m i : Nat} (hm : IsHead num t m)
    (hi : ¬ Chained num t rest i) (hmain : t.mainOf num i = some m) (hlt : i < t.sizenode) :
    let u := (t.setNext i (nextOf t m)).setNext m (some i)
    let rest' := Function.update rest m (i :: rest m)
    Linking num u rest' ∧ (∀ x, Chained num t rest x → Chained num u rest' x) ∧
      Chained num u rest' i := by
  intro u rest'
  have hne : m ≠ i := fun heq => hi (heq ▸ hm.chained)
  have hkey : ∀ x, (u.node x).key = (t.node x).key := fun x => by
    rw [setNext_key, setNext_key]
  have hmainOf : ∀ x, u.mainOf num x = t.mainOf num x := fun x => mainOf_congr rfl (hkey x)
  have hhead : ∀ x, IsHead num u x ↔ IsHead num t x := fun x => by rw [IsHead, hmainOf, IsHead]
  have hlink : ∀ x, x ≠ m → x ≠ i → nextOf u x = nextOf t x := fun x hxm hxi => by
    rw [nextOf_setNext_ne hxm, nextOf_setNext_ne hxi]
  have hlinkm : nextOf u m = some i := nextOf_setNext_self _ _
  have hlinki : nextOf u i = nextOf t m := by
    rw [nextOf_setNext_ne hne.symm, nextOf_setNext_self]
  have hrestm : rest' m = i :: rest m := Function.update_self _ _ _
  have hrestx : ∀ x, x ≠ m → rest' x = rest x := fun x hx => Function.update_of_ne hx _ _
  have hnot : ∀ x, IsHead num t x → i ∉ x :: rest x := fun x hx hmem => hi ⟨x, hx, hmem⟩
  have hkeep : ∀ x, Chained num t rest x → Chained num u rest' x := by
    rintro x ⟨m', hm', hx⟩
    refine ⟨m', (hhead m').mpr hm', ?_⟩
    by_cases heq : m' = m
    · subst heq
      rw [hrestm]
      rcases List.mem_cons.mp hx with rfl | hx
      · exact List.mem_cons_self
      · exact List.mem_cons_of_mem _ (List.mem_cons_of_mem _ hx)
    · rw [hrestx m' heq]
      exact hx
  have hidone : Chained num u rest' i := by
    refine ⟨m, (hhead m).mpr hm, ?_⟩
    rw [hrestm]
    exact List.mem_cons_of_mem _ List.mem_cons_self
  obtain ⟨hfirst, hrest⟩ := h.chain m hm
  obtain ⟨hnotin, -⟩ := List.nodup_cons.mp (h.chain m hm).nodup
  refine ⟨⟨h.real, fun x => ?_, fun x hx => ?_, fun x hx y hy => ?_, fun x hx => ?_,
    fun x hx => ?_⟩, hkeep, hidone⟩
  · rw [hkey, setNext_val, setNext_val]
    exact h.both x
  · -- the chain of `m` goes through `i` now, and the others through neither of the two
    have hx' := (hhead x).mp hx
    by_cases heq : x = m
    · subst heq
      rw [hrestm]
      refine ⟨hlinkm, hlinki.trans hfirst, hrest.congr fun y hy => hlink y ?_ ?_⟩
      · exact fun hyx => hnotin (hyx ▸ hy)
      · exact fun hyi => hnot x hm (hyi ▸ List.mem_cons_of_mem _ hy)
    · rw [hrestx x heq]
      refine (h.chain x hx').congr fun y hy => hlink y ?_ ?_
      · rintro rfl
        have hmy := h.mainOf_of_mem hx' hy
        rw [hm] at hmy
        exact heq (Option.some.inj hmy).symm
      · exact fun hyi => hnot x hx' (hyi ▸ hy)
  · have hx' := (hhead x).mp hx
    rw [hmainOf]
    by_cases heq : x = m
    · subst heq
      rw [hrestm] at hy
      rcases List.mem_cons.mp hy with rfl | hy
      · exact ⟨hmain, hlt⟩
      · exact h.belongs x hm y hy
    · rw [hrestx x heq] at hy
      exact h.belongs x hx' y hy
  · have heq : x ≠ m := by
      rintro rfl
      exact hx ((hhead x).mpr hm)
    rw [hrestx x heq]
    exact h.other x fun hx' => hx ((hhead x).mpr hx')
  · have hxi : x ≠ i := by
      rintro rfl
      exact hx hidone
    have hxm : x ≠ m := by
      rintro rfl
      exact hx (hkeep x hm.chained)
    rw [hlink x hxm hxi]
    exact h.loose x fun hc => hx (hkeep x hc)

/-! ### A node of a chain goes to a free node -/

/-- The node `m` of the chain of `o`, with `p` before it, and a free node `i`. -/
structure Movable (num : Numbers N) (t : Table N V) (rest : Nat → List Nat) (o p m i : Nat) :
    Prop where
  linking : Linking num t rest
  head : IsHead num t o
  mem : m ∈ rest o
  pred : p ∈ o :: rest o
  link : nextOf t p = some m
  free : (t.node i).key = none
  lt : i < t.sizenode

/-- The table in which the node has gone to the free one. -/
def relocated (t : Table N V) (p m i : Nat) : Table N V :=
  ((t.setNext p (some i)).setNode i (t.node m)).setNode m {}

/-- A chain with the free node in place of the other. -/
def relocatedRest (rest : Nat → List Nat) (o m i : Nat) : Nat → List Nat :=
  Function.update rest o ((rest o).map fun y => if y = m then i else y)

namespace Movable

variable {o p m i : Nat} (h : Movable num t rest o p m i)
include h

theorem not_chained : ¬ Chained num t rest i :=
  fun hc => h.linking.key_of_chained hc h.free

theorem not_mem (hx : IsHead num t x) : i ∉ x :: rest x :=
  fun hmem => h.not_chained ⟨x, hx, hmem⟩

theorem mainOf_eq : t.mainOf num m = some o := (h.linking.belongs o h.head m h.mem).1

theorem ne_head : m ≠ o := by
  obtain ⟨hnotin, -⟩ := List.nodup_cons.mp (h.linking.chain o h.head).nodup
  exact fun heq => hnotin (heq ▸ h.mem)

theorem ne_free : m ≠ i :=
  fun heq => h.not_chained (heq ▸ ⟨o, h.head, List.mem_cons_of_mem _ h.mem⟩)

theorem pred_ne_free : p ≠ i := fun heq => h.not_chained (heq ▸ ⟨o, h.head, h.pred⟩)

theorem pred_ne : p ≠ m := by
  rintro rfl
  exact (h.linking.chain o h.head).next_ne h.pred h.link

theorem head_ne_free : o ≠ i := fun heq => h.not_chained (heq ▸ h.head.chained)

omit h in
theorem node_self : (relocated t p m i).node m = {} := setNode_self _ _

theorem node_free : (relocated t p m i).node i = t.node m := by
  rw [relocated, setNode_ne h.ne_free.symm, setNode_self]

omit h in
theorem node_ne (hxm : x ≠ m) (hxi : x ≠ i) :
    (relocated t p m i).node x = (t.setNext p (some i)).node x := by
  rw [relocated, setNode_ne hxm, setNode_ne hxi]

omit h in
theorem mainOf_ne (hxm : x ≠ m) (hxi : x ≠ i) : (relocated t p m i).mainOf num x = t.mainOf num x :=
  mainOf_congr rfl (by rw [node_ne hxm hxi, setNext_key])

theorem mainOf_free : (relocated t p m i).mainOf num i = some o := by
  rw [← h.mainOf_eq]
  exact mainOf_congr rfl (by rw [h.node_free])

/-- The same nodes are in their main positions: neither of the two is. -/
theorem isHead_iff (x : Nat) : IsHead num (relocated t p m i) x ↔ IsHead num t x := by
  by_cases hxm : x = m
  · subst hxm
    refine ⟨fun hx => ?_, fun hx => ?_⟩
    · rw [IsHead, Table.mainOf, node_self] at hx
      cases hx
    · exact absurd (Option.some.inj (hx.symm.trans h.mainOf_eq)) h.ne_head
  · by_cases hxi : x = i
    · subst hxi
      refine ⟨fun hx => ?_, fun hx => absurd hx.chained h.not_chained⟩
      rw [IsHead, h.mainOf_free] at hx
      exact absurd (Option.some.inj hx) h.head_ne_free
    · rw [IsHead, mainOf_ne hxm hxi, IsHead]

omit h in
theorem next_ne (hxm : x ≠ m) (hxi : x ≠ i) (hxp : x ≠ p) :
    nextOf (relocated t p m i) x = nextOf t x := by
  rw [nextOf, node_ne hxm hxi]
  exact nextOf_setNext_ne hxp _

theorem next_pred : nextOf (relocated t p m i) p = some i := by
  rw [nextOf, node_ne h.pred_ne h.pred_ne_free]
  exact nextOf_setNext_self _ _

theorem next_free : nextOf (relocated t p m i) i = nextOf t m := by
  rw [nextOf, h.node_free, nextOf]

theorem rest_head : o :: relocatedRest rest o m i o =
    (o :: rest o).map fun y => if y = m then i else y := by
  rw [relocatedRest, Function.update_self, List.map_cons, if_neg h.ne_head.symm]

omit h in
theorem rest_ne (hx : x ≠ o) : relocatedRest rest o m i x = rest x :=
  Function.update_of_ne hx _ _

/-- The other chains go through none of the three nodes. -/
theorem apart (hx : IsHead num t x) (hxo : x ≠ o) (hy : y ∈ x :: rest x) :
    y ≠ m ∧ y ≠ i ∧ y ≠ p := by
  have hmy := h.linking.mainOf_of_mem hx hy
  refine ⟨?_, fun hyi => h.not_mem hx (hyi ▸ hy), ?_⟩
  · rintro rfl
    exact hxo (Option.some.inj (hmy.symm.trans h.mainOf_eq))
  · rintro rfl
    exact hxo (Option.some.inj (hmy.symm.trans (h.linking.mainOf_of_mem h.head h.pred)))

theorem keep (hxm : x ≠ m) (hx : Chained num t rest x) :
    Chained num (relocated t p m i) (relocatedRest rest o m i) x := by
  obtain ⟨x', hx', hx⟩ := hx
  refine ⟨x', (h.isHead_iff x').mpr hx', ?_⟩
  by_cases heq : x' = o
  · subst heq
    rw [h.rest_head]
    exact Lib.mem_replace.mpr (.inl ⟨hx, hxm⟩)
  · rw [rest_ne heq]
    exact hx

theorem chained_free : Chained num (relocated t p m i) (relocatedRest rest o m i) i := by
  refine ⟨o, (h.isHead_iff o).mpr h.head, ?_⟩
  rw [h.rest_head]
  exact Lib.mem_replace.mpr (.inr ⟨rfl, List.mem_cons_of_mem _ h.mem⟩)

/-- In the chain of `o` the free node stands where `m` stood. -/
theorem chain (hx : IsHead num t x) :
    Chain (nextOf (relocated t p m i)) (x :: relocatedRest rest o m i x) := by
  by_cases heq : x = o
  · subst heq
    rw [h.rest_head]
    refine (h.linking.chain x hx).replace h.next_free fun y hy hym => ?_
    have hyi : y ≠ i := fun hyi => h.not_mem hx (hyi ▸ hy)
    by_cases hyp : y = p
    · rw [hyp, h.next_pred, if_pos h.link]
    · rw [next_ne hym hyi hyp, if_neg]
      exact fun hym' => hyp ((h.linking.chain x hx).next_inj hy h.pred hym' h.link)
  · rw [rest_ne heq]
    refine (h.linking.chain x hx).congr fun y hy => ?_
    obtain ⟨hym, hyi, hyp⟩ := h.apart hx heq hy
    exact next_ne hym hyi hyp

theorem belongs (hx : IsHead num t x) (hy : y ∈ relocatedRest rest o m i x) :
    (relocated t p m i).mainOf num y = some x ∧ y < t.sizenode := by
  by_cases heq : x = o
  · subst heq
    rw [relocatedRest, Function.update_self] at hy
    rcases Lib.mem_replace.mp hy with ⟨hy, hym⟩ | ⟨rfl, -⟩
    · have hyi : y ≠ i := fun hyi => h.not_mem hx (hyi ▸ List.mem_cons_of_mem _ hy)
      rw [mainOf_ne hym hyi]
      exact h.linking.belongs x hx y hy
    · exact ⟨h.mainOf_free, h.lt⟩
  · rw [rest_ne heq] at hy
    obtain ⟨hym, hyi, -⟩ := h.apart hx heq (List.mem_cons_of_mem _ hy)
    rw [mainOf_ne hym hyi]
    exact h.linking.belongs x hx y hy

/-- The chains are as they should be when the node has been moved. -/
theorem linking_relocated : Linking num (relocated t p m i) (relocatedRest rest o m i) := by
  refine ⟨h.linking.real, fun x => ?_, fun x hx => h.chain ((h.isHead_iff x).mp hx),
    fun x hx y hy => h.belongs ((h.isHead_iff x).mp hx) hy, fun x hx => ?_, fun x hx => ?_⟩
  · by_cases hxm : x = m
    · rw [hxm, node_self]
      exact ⟨fun _ => rfl, fun _ => rfl⟩
    · by_cases hxi : x = i
      · rw [hxi, h.node_free]
        exact h.linking.both m
      · rw [node_ne hxm hxi, setNext_key, setNext_val]
        exact h.linking.both x
  · have heq : x ≠ o := by
      rintro rfl
      exact hx ((h.isHead_iff x).mpr h.head)
    rw [rest_ne heq]
    exact h.linking.other x fun hx' => hx ((h.isHead_iff x).mpr hx')
  · by_cases hxm : x = m
    · rw [nextOf, hxm, node_self]
    · have hxi : x ≠ i := fun heq => hx (heq ▸ h.chained_free)
      have hxp : x ≠ p := fun heq => hx (heq ▸ h.keep h.pred_ne ⟨o, h.head, h.pred⟩)
      rw [next_ne hxm hxi hxp]
      exact h.linking.loose x fun hc => hx (h.keep hxm hc)

end Movable

/-- A node of a chain that is not in its main position goes to a free node. -/
theorem Linking.relocate (h : Linking num t rest) {o p m i : Nat} (ho : IsHead num t o)
    (hm : m ∈ rest o) (hp : p ∈ o :: rest o) (hpm : nextOf t p = some m)
    (hi : (t.node i).key = none) (hlt : i < t.sizenode) :
    let u := ((t.setNext p (some i)).setNode i (t.node m)).setNode m {}
    let rest' := Function.update rest o ((rest o).map fun y => if y = m then i else y)
    Linking num u rest' ∧ (∀ x, x ≠ m → Chained num t rest x → Chained num u rest' x) ∧
      Chained num u rest' i := by
  have hmovable : Movable num t rest o p m i := ⟨h, ho, hm, hp, hpm, hi, hlt⟩
  exact ⟨hmovable.linking_relocated, fun x hxm hx => hmovable.keep hxm hx,
    hmovable.chained_free⟩

end Alcor.Proofs.Lua
