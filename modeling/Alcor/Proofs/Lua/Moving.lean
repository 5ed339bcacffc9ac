import Alcor.Proofs.Lua.Linking
import Mathlib.Data.Finset.Card
import Mathlib.Data.Finset.Range
import Mathlib.Logic.Equiv.Basic

/-!
# `Alcor.Proofs.Lua.Moving`: `move_node` and its loops

Every call of `move_node` keeps the chains, and the entries are in
other nodes (`Permuted`).

* `Linking.moveNode_chained`, `Linking.moveNode_free`,
  `Linking.moveNode_behind`, `Linking.moveNode_swap` and
  `Linking.moveNode_relink` are its five cases, which
  `Linking.moveNode` puts together.
* `Moved.displaced_lt`: when it returns 0 one more node is in its main
  position, so the loop around it ends (`Linking.moveWhile`).
* `Linking.moveNodes`: the loop over all nodes puts each into a chain.
-/

set_option autoImplicit false

namespace Alcor.Proofs.Lua

open Alcor.Lua
open Lib (Chain)

variable {N V : Type} {num : Numbers N} {t u : Table N V} {rest rest' : Nat → List Nat}

theorem setNode_comm {i j : Nat} (h : i ≠ j) (a b : Node N V) :
    (t.setNode i a).setNode j b = (t.setNode j b).setNode i a := by
  unfold Table.setNode
  simp only
  rw [Function.update_comm h.symm]

theorem setNode_setNode (i : Nat) (a b : Node N V) :
    (t.setNode i a).setNode i b = t.setNode i b := by
  unfold Table.setNode
  simp only
  rw [Function.update_idem]

/-- The node is free, or in a chain. -/
def Settled (num : Numbers N) (t : Table N V) (rest : Nat → List Nat) (x : Nat) : Prop :=
  (t.node x).key = none ∨ Chained num t rest x

/-- Two tables have the same entries, in other nodes. -/
def Permuted (t u : Table N V) : Prop :=
  ∃ σ : Equiv.Perm Nat, (∀ x, σ x < t.sizenode ↔ x < t.sizenode) ∧
    ∀ x, (u.node x).key = (t.node (σ x)).key ∧ (u.node x).val = (t.node (σ x)).val

theorem Permuted.refl (t : Table N V) : Permuted t t :=
  ⟨Equiv.refl Nat, fun _ => Iff.rfl, fun _ => ⟨rfl, rfl⟩⟩

theorem Permuted.trans {w : Table N V} (h : Permuted t u) (h' : Permuted u w)
    (hsize : u.sizenode = t.sizenode) : Permuted t w := by
  obtain ⟨σ, hσ, heq⟩ := h
  obtain ⟨τ, hτ, heq'⟩ := h'
  rw [hsize] at hτ
  refine ⟨τ.trans σ, fun x => (hσ _).trans (hτ x), fun x => ?_⟩
  exact ⟨(heq' x).1.trans (heq (τ x)).1, (heq' x).2.trans (heq (τ x)).2⟩

theorem permuted_of_eq (hkey : ∀ x, (u.node x).key = (t.node x).key)
    (hval : ∀ x, (u.node x).val = (t.node x).val) : Permuted t u :=
  ⟨Equiv.refl Nat, fun _ => Iff.rfl, fun x => ⟨hkey x, hval x⟩⟩

/-- Two nodes have been exchanged. -/
theorem permuted_swap {i j : Nat} (hi : i < t.sizenode) (hj : j < t.sizenode)
    (hui : (u.node i).key = (t.node j).key ∧ (u.node i).val = (t.node j).val)
    (huj : (u.node j).key = (t.node i).key ∧ (u.node j).val = (t.node i).val)
    (hux : ∀ x, x ≠ i → x ≠ j →
      (u.node x).key = (t.node x).key ∧ (u.node x).val = (t.node x).val) : Permuted t u := by
  refine ⟨Equiv.swap i j, fun x => ?_, fun x => ?_⟩
  · by_cases hxi : x = i
    · rw [hxi, Equiv.swap_apply_left]
      exact ⟨fun _ => hi, fun _ => hj⟩
    · by_cases hxj : x = j
      · rw [hxj, Equiv.swap_apply_right]
        exact ⟨fun _ => hj, fun _ => hi⟩
      · rw [Equiv.swap_apply_of_ne_of_ne hxi hxj]
  · by_cases hxi : x = i
    · rw [hxi, Equiv.swap_apply_left]
      exact hui
    · by_cases hxj : x = j
      · rw [hxj, Equiv.swap_apply_right]
        exact huj
      · rw [Equiv.swap_apply_of_ne_of_ne hxi hxj]
        exact hux x hxi hxj

/-- What is in a chain after a node that is in none is written was in it before. -/
theorem Linking.of_write (h : Linking num t rest) {x y : Nat} (hx : ¬ Chained num t rest x)
    (hyx : y ≠ x) {n : Node N V} (hy : Chained num (t.setNode x n) rest y) :
    Chained num t rest y := by
  obtain ⟨m, hm, hmem⟩ := hy
  by_cases hmx : m = x
  · rw [hmx, h.other x fun hm => hx hm.chained] at hmem
    exact absurd (List.mem_singleton.mp hmem) hyx
  · refine ⟨m, ?_, hmem⟩
    exact (mainOf_congr (u := t.setNode x n) (t := t) (x := m) (y := m) rfl
      (by rw [setNode_ne hmx])).symm.trans hm

theorem Settled.write {x y : Nat} (hy : Settled num t rest y) (hx : ¬ Chained num t rest x)
    (hyx : y ≠ x) (n : Node N V) : Settled num (t.setNode x n) rest y := by
  obtain hy | hy := hy
  · exact .inl (by rw [setNode_ne hyx]; exact hy)
  · exact .inr (hy.write hx n)

theorem Settled.of_linking (hsub : ∀ x, Chained num t rest x → Chained num u rest' x) {x : Nat}
    (hkey : (u.node x).key = (t.node x).key) (hx : Settled num t rest x) :
    Settled num u rest' x :=
  hx.imp (fun hnone => hkey.trans hnone) (hsub x)

/-! ### `move_node` -/

/-- What `move_node` does to the table. -/
structure Moved (num : Numbers N) (t : Table N V) (rest : Nat → List Nat) (i : Nat) (done : Bool)
    (u : Table N V) (rest' : Nat → List Nat) : Prop where
  linking : Linking num u rest'
  frame : u = { t with node := u.node }
  permuted : Permuted t u
  keep : ∀ x, x ≠ i → Settled num t rest x → Settled num u rest' x
  settled : done = true → Settled num u rest' i
  again : done = false → (u.node i).key ≠ none ∧ (∀ x, IsHead num t x → IsHead num u x) ∧
    ∃ m, ¬ IsHead num t m ∧ IsHead num u m

section Cases

variable {i mp n : Nat}

/-- A node that is in a chain stays. -/
theorem Linking.moveNode_chained (h : Linking num t rest) (hn : t.sizenode ≤ n)
    (hi : Chained num t rest i) : t.moveNode num n i = some (true, t) := by
  obtain ⟨m, hm, hmem⟩ := hi
  have hmain := h.mainOf_of_mem hm hmem
  unfold Table.moveNode
  rw [hmain, Option.getD_some]
  by_cases hmi : m = i
  · simp [hmi]
  · have hrest : i ∈ rest m := (List.mem_cons.mp hmem).resolve_left fun heq => hmi heq.symm
    obtain ⟨p, hp, -, -⟩ := h.find_head hm hn hrest
    simp [hmi, hp]

theorem ne_of_not_chained (hi : ¬ Chained num t rest i)
    (hmain : t.mainOf num i = some mp) : mp ≠ i := by
  rintro rfl
  exact hi (show IsHead num t mp from hmain).chained

/-- The main position is free. -/
theorem Linking.moveNode_free (h : Linking num t rest) (hn : t.sizenode ≤ n)
    (hlt : i < t.sizenode) (hi : ¬ Chained num t rest i) (hmain : t.mainOf num i = some mp)
    (hfree : (t.node mp).val = none) :
    ∃ u, t.moveNode num n i = some (true, u) ∧ Moved num t rest i true u rest := by
  have hne := ne_of_not_chained hi hmain
  have hkey : (t.node mp).key = none := (h.both mp).mpr hfree
  have hmp : ¬ Chained num t rest mp := fun hc => h.key_of_chained hc hkey
  refine ⟨(t.setNode mp (t.node i)).setNode i {}, ?_, ?_⟩
  · unfold Table.moveNode
    rw [hmain, Option.getD_some]
    simp [hne, h.find_loose hi hn, hfree, h.real]
  · have hcomm : (t.setNode i {}).setNode mp (t.node i) = (t.setNode mp (t.node i)).setNode i {} :=
      setNode_comm hne.symm _ _
    have hmp' : ¬ Chained num (t.setNode i {}) rest mp := fun hc => hmp (h.of_write hi hne hc)
    have hlink : Linking num ((t.setNode mp (t.node i)).setNode i {}) rest := by
      rw [← hcomm]
      exact (h.write hi ⟨fun _ => rfl, fun _ => rfl⟩ rfl).write hmp' (h.both i) (h.loose i hi)
    refine ⟨hlink, rfl, permuted_swap hlt (mainOf_lt hmain) ?_ ?_ fun x hxi hxm => ?_, ?_, ?_,
      fun hno => (by cases hno)⟩
    · rw [setNode_self]
      exact ⟨hkey.symm, hfree.symm⟩
    · rw [setNode_ne hne, setNode_self]
      exact ⟨rfl, rfl⟩
    · rw [setNode_ne hxi, setNode_ne hxm]
      exact ⟨rfl, rfl⟩
    · intro x hxi hx
      by_cases hxm : x = mp
      · -- the node is in its main position now
        subst hxm
        refine .inr (IsHead.chained ?_)
        exact isHead_of_key hmain rfl (by rw [setNode_ne hne, setNode_self])
      · rw [← hcomm]
        exact (hx.write hi hxi _).write hmp' hxm _
    · intro _
      exact .inl (by rw [setNode_self])

/-- A node goes behind the one in its main position. -/
theorem Linking.behind (h : Linking num t rest) (hlt : i < t.sizenode)
    (hi : ¬ Chained num t rest i) (hmain : t.mainOf num i = some mp) (hhead : IsHead num t mp) :
    Moved num t rest i true ((t.setNext i (nextOf t mp)).setNext mp (some i))
      (Function.update rest mp (i :: rest mp)) := by
  obtain ⟨hlink, hkeep, hidone⟩ := h.insert hhead hi hmain hlt
  refine ⟨hlink, rfl, permuted_of_eq ?_ ?_, ?_, ?_, fun hno => (by cases hno)⟩
  · intro x
    rw [setNext_key, setNext_key]
  · intro x
    rw [setNext_val, setNext_val]
  · intro x _ hx
    exact hx.of_linking hkeep (by rw [setNext_key, setNext_key])
  · exact fun _ => .inr hidone

/-- The colliding node is in its main position. -/
theorem Linking.moveNode_behind (h : Linking num t rest) (hn : t.sizenode ≤ n)
    (hlt : i < t.sizenode) (hi : ¬ Chained num t rest i) (hmain : t.mainOf num i = some mp)
    (hhead : IsHead num t mp) :
    ∃ u rest', t.moveNode num n i = some (true, u) ∧ Moved num t rest i true u rest' := by
  have hne := ne_of_not_chained hi hmain
  have hval : (t.node mp).val.isSome = true := by
    refine Option.isSome_iff_ne_none.mpr fun hnone => ?_
    exact h.key_of_chained hhead.chained ((h.both mp).mpr hnone)
  have hmain' : t.mainOf num mp = some mp := hhead
  refine ⟨_, _, ?_, h.behind hlt hi hmain hhead⟩
  unfold Table.moveNode
  simp [hmain, hmain', hne, h.find_loose hi hn, hval, nextOf]

/-- The colliding node is in no chain: it changes places with the node that is being moved. -/
theorem Linking.moveNode_swap (h : Linking num t rest) (hn : t.sizenode ≤ n)
    (hlt : i < t.sizenode) (hi : ¬ Chained num t rest i) (hmain : t.mainOf num i = some mp)
    (hmp : ¬ Chained num t rest mp) (hused : (t.node mp).key ≠ none) :
    ∃ u, t.moveNode num n i = some (false, u) ∧ Moved num t rest i false u rest := by
  have hne := ne_of_not_chained hi hmain
  have hval : (t.node mp).val.isSome = true :=
    Option.isSome_iff_ne_none.mpr fun hnone => hused ((h.both mp).mpr hnone)
  obtain ⟨o, ho⟩ : ∃ o, t.mainOf num mp = some o := by
    obtain ⟨k, hk⟩ := Option.ne_none_iff_exists'.mp hused
    exact ⟨_, by rw [Table.mainOf, hk, Option.map_some]⟩
  have hne' : o ≠ mp := ne_of_not_chained hmp ho
  -- both nodes are cleared, then both are written
  have hclear := h.write (n := {}) hi ⟨fun _ => rfl, fun _ => rfl⟩ rfl
  have hmp' : ¬ Chained num (t.setNode i {}) rest mp := fun hc => hmp (h.of_write hi hne hc)
  have hfirst := hclear.write hmp' (n := t.node i) (h.both i) (h.loose i hi)
  have hi' : ¬ Chained num ((t.setNode i {}).setNode mp (t.node i)) rest i := fun hc =>
    hfirst.key_of_chained hc (by rw [setNode_ne hne.symm, setNode_self])
  have hlink := hfirst.write hi' (n := t.node mp) (h.both mp) (h.loose mp hmp)
  have hsame : ((t.setNode i {}).setNode mp (t.node i)).setNode i (t.node mp) =
      (t.setNode i (t.node mp)).setNode mp (t.node i) := by
    rw [setNode_comm hne.symm, setNode_setNode, setNode_comm hne]
  have hkeep : ∀ x, Chained num t rest x → Chained num
      ((t.setNode i (t.node mp)).setNode mp (t.node i)) rest x := fun x hx => by
    rw [← hsame]
    exact ((hx.write hi _).write hmp' _).write hi' _
  have hnode : ∀ x, x ≠ i → x ≠ mp →
      ((t.setNode i (t.node mp)).setNode mp (t.node i)).node x = t.node x := fun x hxi hxm => by
    rw [setNode_ne hxm, setNode_ne hxi]
  have hnodei : ((t.setNode i (t.node mp)).setNode mp (t.node i)).node i = t.node mp := by
    rw [setNode_ne hne.symm, setNode_self]
  have hnodem : ((t.setNode i (t.node mp)).setNode mp (t.node i)).node mp = t.node i :=
    setNode_self _ _
  have hhead : IsHead num ((t.setNode i (t.node mp)).setNode mp (t.node i)) mp := by
    exact isHead_of_key hmain rfl (by rw [hnodem])
  refine ⟨(t.setNode i (t.node mp)).setNode mp (t.node i), ?_, hsame ▸ hlink, rfl,
    permuted_swap hlt (mainOf_lt hmain) ?_ ?_ fun x hxi hxm => ?_, ?_,
    fun hno => (by cases hno), fun _ => ⟨?_, ?_, ?_⟩⟩
  · unfold Table.moveNode
    simp [hmain, ho, hne, hne', h.find_loose hi hn, h.find_loose hmp hn, hval]
  · rw [hnodei]
    exact ⟨rfl, rfl⟩
  · rw [hnodem]
    exact ⟨rfl, rfl⟩
  · rw [hnode x hxi hxm]
    exact ⟨rfl, rfl⟩
  · intro x hxi hx
    by_cases hxm : x = mp
    · rw [hxm]
      exact .inr hhead.chained
    · exact hx.of_linking hkeep (by rw [hnode x hxi hxm])
  · rw [hnodei]
    exact hused
  · intro x hx
    have hxi : x ≠ i := fun heq => hi (heq ▸ hx.chained)
    have hxm : x ≠ mp := fun heq => hmp (heq ▸ hx.chained)
    exact isHead_of_key hx rfl (by rw [hnode x hxi hxm])
  · exact ⟨mp, fun hm => hmp hm.chained, hhead⟩

/-- A node takes the place of one that is in the chain of another, and the chain goes through
the place it had. -/
theorem Linking.relinked (h : Linking num t rest) (hlt : i < t.sizenode)
    (hi : ¬ Chained num t rest i) (hmain : t.mainOf num i = some mp) {o p : Nat}
    (ho : IsHead num t o) (hrest : mp ∈ rest o) (hp : p ∈ o :: rest o)
    (hpm : nextOf t p = some mp) :
    ∃ rest', Moved num t rest i true
      (((t.setNext p (some i)).setNode i (t.node mp)).setNode mp (t.node i)) rest' := by
  have hne := ne_of_not_chained hi hmain
  have hpi : p ≠ i := fun heq => hi (heq ▸ ⟨o, ho, hp⟩)
  have hpm' : p ≠ mp := by
    rintro rfl
    exact (h.chain o ho).next_ne hp hpm
  -- the node that is being moved is cleared, then the colliding node goes there
  have hclear := h.write (n := {}) hi ⟨fun _ => rfl, fun _ => rfl⟩ rfl
  have hoi : o ≠ i := fun heq => hi (heq ▸ ho.chained)
  have ho' : IsHead num (t.setNode i {}) o := isHead_of_key ho rfl (by rw [setNode_ne hoi])
  have hpm'' : nextOf (t.setNode i {}) p = some mp := by
    rw [nextOf, setNode_ne hpi]
    exact hpm
  obtain ⟨hrel, hkeep, hidone⟩ := hclear.relocate ho' hrest hp hpm''
    (i := i) (by rw [setNode_self]) hlt
  have hmfree : ∀ {w : Table N V} {r : Nat → List Nat}, Linking num w r →
      w.node mp = {} → ¬ Chained num w r mp := fun hw hnone hc =>
    hw.key_of_chained hc (by rw [hnone])
  have hmp' := hmfree hrel (setNode_self _ _)
  have hlink := hrel.write hmp' (n := t.node i) (h.both i) (h.loose i hi)
  have hsame : (((((t.setNode i {}).setNext p (some i)).setNode i
      ((t.setNode i {}).node mp)).setNode mp {}).setNode mp (t.node i)) =
      ((t.setNext p (some i)).setNode i (t.node mp)).setNode mp (t.node i) := by
    rw [setNode_setNode, setNode_ne hne]
    unfold Table.setNext
    rw [setNode_ne hpi, setNode_comm hpi.symm, setNode_setNode]
  rw [hsame] at hlink
  have hnode : ∀ x, x ≠ i → x ≠ mp →
      (((t.setNext p (some i)).setNode i (t.node mp)).setNode mp (t.node i)).node x =
        (t.setNext p (some i)).node x := fun x hxi hxm => by
    rw [setNode_ne hxm, setNode_ne hxi]
  have hnodei : (((t.setNext p (some i)).setNode i (t.node mp)).setNode mp (t.node i)).node i =
      t.node mp := by
    rw [setNode_ne hne.symm, setNode_self]
  have hnodem : (((t.setNext p (some i)).setNode i (t.node mp)).setNode mp (t.node i)).node mp =
      t.node i :=
    setNode_self _ _
  refine ⟨_, hlink, rfl, permuted_swap hlt (mainOf_lt hmain) ?_ ?_ fun x hxi hxm => ?_, ?_,
    fun _ => .inr ?_, fun hno => (by cases hno)⟩
  · rw [hnodei]
    exact ⟨rfl, rfl⟩
  · rw [hnodem]
    exact ⟨rfl, rfl⟩
  · rw [hnode x hxi hxm, setNext_key, setNext_val]
    exact ⟨rfl, rfl⟩
  · intro x hxi hx
    by_cases hxm : x = mp
    · subst hxm
      refine .inr (IsHead.chained ?_)
      exact isHead_of_key hmain rfl (by rw [hnodem])
    · obtain hx | hx := hx
      · refine .inl ?_
        rw [hnode x hxi hxm, setNext_key]
        exact hx
      · rw [← hsame]
        exact .inr ((hkeep x hxm (hx.write hi _)).write hmp' _)
  · rw [← hsame]
    exact hidone.write hmp' _

/-- The colliding node is in the chain of another. -/
theorem Linking.moveNode_relink (h : Linking num t rest) (hn : t.sizenode ≤ n)
    (hlt : i < t.sizenode) (hi : ¬ Chained num t rest i) (hmain : t.mainOf num i = some mp)
    (hmp : Chained num t rest mp) (hnot : ¬ IsHead num t mp) :
    ∃ u rest', t.moveNode num n i = some (true, u) ∧ Moved num t rest i true u rest' := by
  have hne := ne_of_not_chained hi hmain
  have hused := h.key_of_chained hmp
  have hval : (t.node mp).val.isSome = true :=
    Option.isSome_iff_ne_none.mpr fun hnone => hused ((h.both mp).mpr hnone)
  obtain ⟨o, ho, hmem⟩ := hmp
  have hmain' : t.mainOf num mp = some o := h.mainOf_of_mem ho hmem
  have hne' : o ≠ mp := fun heq => hnot (heq ▸ ho)
  have hrest : mp ∈ rest o := (List.mem_cons.mp hmem).resolve_left hne'.symm
  obtain ⟨p, hfind, hp, hpm⟩ := h.find_head ho hn hrest
  have hpm' : p ≠ mp := by
    rintro rfl
    exact (h.chain o ho).next_ne hp hpm
  obtain ⟨rest', hmoved⟩ := h.relinked hlt hi hmain ho hrest hp hpm
  refine ⟨_, rest', ?_, hmoved⟩
  have hmnode : (t.setNext p (some i)).node mp = t.node mp := setNode_ne hpm'.symm _
  unfold Table.moveNode
  simp [hmain, hmain', hne, hne', h.find_loose hi hn, hfind, hval, hmnode]

end Cases

/-- `move_node` returns, and keeps the chains and the entries. -/
theorem Linking.moveNode (h : Linking num t rest) {i n : Nat} (hn : t.sizenode ≤ n)
    (hlt : i < t.sizenode) (hkey : (t.node i).key ≠ none) :
    ∃ done u rest', t.moveNode num n i = some (done, u) ∧ Moved num t rest i done u rest' := by
  by_cases hi : Chained num t rest i
  · exact ⟨true, t, rest, h.moveNode_chained hn hi, h, rfl, Permuted.refl t,
      fun _ _ hx => hx, fun _ => .inr hi, fun hno => (by cases hno)⟩
  · obtain ⟨mp, hmain⟩ : ∃ mp, t.mainOf num i = some mp := by
      obtain ⟨k, hk⟩ := Option.ne_none_iff_exists'.mp hkey
      exact ⟨_, by rw [Table.mainOf, hk, Option.map_some]⟩
    by_cases hfree : (t.node mp).val = none
    · obtain ⟨u, heq, hmoved⟩ := h.moveNode_free hn hlt hi hmain hfree
      exact ⟨true, u, rest, heq, hmoved⟩
    · by_cases hhead : IsHead num t mp
      · obtain ⟨u, rest', heq, hmoved⟩ := h.moveNode_behind hn hlt hi hmain hhead
        exact ⟨true, u, rest', heq, hmoved⟩
      · by_cases hmp : Chained num t rest mp
        · obtain ⟨u, rest', heq, hmoved⟩ := h.moveNode_relink hn hlt hi hmain hmp hhead
          exact ⟨true, u, rest', heq, hmoved⟩
        · obtain ⟨u, heq, hmoved⟩ := h.moveNode_swap hn hlt hi hmain hmp
            fun hnone => hfree ((h.both mp).mp hnone)
          exact ⟨false, u, rest, heq, hmoved⟩

/-! ### The loops -/

instance (m : Nat) : Decidable (IsHead num t m) := inferInstanceAs (Decidable (_ = _))

/-- The number of nodes that are not in their main position. -/
def displaced (num : Numbers N) (t : Table N V) : Nat :=
  ((Finset.range t.sizenode).filter fun m => ¬ IsHead num t m).card

theorem displaced_le : displaced num t ≤ t.sizenode := by
  have hle := Finset.card_filter_le (Finset.range t.sizenode) fun m => ¬ IsHead num t m
  rw [Finset.card_range] at hle
  exact hle

theorem Moved.sizenode_eq {i : Nat} {done : Bool} (h : Moved num t rest i done u rest') :
    u.sizenode = t.sizenode := by
  rw [h.frame]
  rfl

/-- When `move_node` returns 0, one more node is in its main position. -/
theorem Moved.displaced_lt {i : Nat} (h : Moved num t rest i false u rest') :
    displaced num u < displaced num t := by
  obtain ⟨-, hsub, m, hm, hm'⟩ := h.again rfl
  refine Finset.card_lt_card ⟨fun x hx => ?_, fun hback => ?_⟩
  · obtain ⟨hlt, hx⟩ := Finset.mem_filter.mp hx
    rw [h.sizenode_eq] at hlt
    exact Finset.mem_filter.mpr ⟨hlt, fun hhead => hx (hsub x hhead)⟩
  · have hlt : m < t.sizenode := h.sizenode_eq ▸ mainOf_lt hm'
    have hmem := hback (Finset.mem_filter.mpr ⟨Finset.mem_range.mpr hlt, hm⟩)
    exact (Finset.mem_filter.mp hmem).2 hm'

theorem Moved.trans {i : Nat} {done : Bool} {w : Table N V} {rest'' : Nat → List Nat}
    (h : Moved num t rest i done u rest') (h' : Moved num u rest' i true w rest'') :
    Moved num t rest i true w rest'' := by
  refine ⟨h'.linking, ?_, h.permuted.trans h'.permuted h.sizenode_eq,
    fun x hx hs => h'.keep x hx (h.keep x hx hs), h'.settled, fun hno => (by cases hno)⟩
  rw [h'.frame, h.frame]

/-- The inner loop comes to an end, as no more nodes can be in their main position than there
are nodes. -/
theorem Linking.moveWhile {i n : Nat} :
    ∀ (k : Nat) (t : Table N V) (rest : Nat → List Nat), Linking num t rest → t.sizenode ≤ n →
      i < t.sizenode → (t.node i).key ≠ none → displaced num t < k →
      ∃ u rest', moveWhile num n i k t = some u ∧ Moved num t rest i true u rest' := by
  intro k
  induction k with
  | zero => exact fun _ _ _ _ _ _ hk => absurd hk (Nat.not_lt_zero _)
  | succ k ih =>
    intro t rest h hn hlt hkey hk
    obtain ⟨done, u, rest', heq, hmoved⟩ := h.moveNode hn hlt hkey
    cases done with
    | true => exact ⟨u, rest', by simp [Alcor.Lua.moveWhile, heq], hmoved⟩
    | false =>
      have hsize := hmoved.sizenode_eq
      have hless := hmoved.displaced_lt
      obtain ⟨w, rest'', hrun, hmoved'⟩ := ih u rest' hmoved.linking (hsize.symm ▸ hn)
        (hsize.symm ▸ hlt) (hmoved.again rfl).1 (by omega)
      exact ⟨w, rest'', by simp [Alcor.Lua.moveWhile, heq, hrun], hmoved.trans hmoved'⟩

/-- The second loop of `resize_hashpart` puts every node into a chain. -/
theorem Linking.moveNodes {n : Nat} (h : Linking num t rest) (hn : t.sizenode < n) :
    ∀ j, j ≤ t.sizenode → ∃ u rest', moveNodes num n j t = some u ∧ Linking num u rest' ∧
      u = { t with node := u.node } ∧ Permuted t u ∧ ∀ x < j, Settled num u rest' x := by
  intro j
  induction j with
  | zero =>
    exact fun _ => ⟨t, rest, rfl, h, rfl, Permuted.refl t,
      fun x hx => absurd hx (Nat.not_lt_zero x)⟩
  | succ j ih =>
    intro hj
    obtain ⟨u, rest', hrun, hu, hframe, hperm, hsettled⟩ := ih (Nat.le_of_succ_le hj)
    have hsize : u.sizenode = t.sizenode := by
      rw [hframe]
      rfl
    by_cases hval : (u.node j).val = none
    · refine ⟨u, rest', ?_, hu, hframe, hperm, fun x hx => ?_⟩
      · simp [Alcor.Lua.moveNodes, hrun, hval]
      · obtain hx | rfl := Nat.lt_succ_iff_lt_or_eq.mp hx
        · exact hsettled x hx
        · exact .inl ((hu.both x).mpr hval)
    · have hkey : (u.node j).key ≠ none := fun hnone => hval ((hu.both j).mp hnone)
      have hdis : displaced num u < n := Nat.lt_of_le_of_lt displaced_le (hsize.symm ▸ hn)
      obtain ⟨w, rest'', hmove, hmoved⟩ := Linking.moveWhile n u rest' hu
        (hsize.symm ▸ Nat.le_of_lt hn) (hsize.symm ▸ hj) hkey hdis
      refine ⟨w, rest'', ?_, hmoved.linking, ?_, hperm.trans hmoved.permuted hsize, fun x hx => ?_⟩
      · simp [Alcor.Lua.moveNodes, hrun, Option.isSome_iff_ne_none.mpr hval, hmove]
      · rw [hmoved.frame, hframe]
      · obtain hx | rfl := Nat.lt_succ_iff_lt_or_eq.mp hx
        · exact hmoved.keep x (Nat.ne_of_lt hx) (hsettled x hx)
        · exact hmoved.settled rfl

/-- Nodes without links. -/
theorem linking_start (hreal : t.dummy = false)
    (hboth : ∀ x, (t.node x).key = none ↔ (t.node x).val = none)
    (hnext : ∀ x, (t.node x).next = none) : Linking num t fun _ => [] :=
  ⟨hreal, hboth, fun m _ => ⟨hnext m, trivial⟩,
    fun _ _ _ hx => absurd hx List.not_mem_nil, fun _ _ => rfl, fun x _ => hnext x⟩

end Alcor.Proofs.Lua
