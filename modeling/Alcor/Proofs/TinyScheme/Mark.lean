import Mathlib.Data.List.Nodup
import Alcor.Lib.Marking
import Alcor.TinyScheme.Cells

/-!
# `Alcor.Proofs.TinyScheme.Mark`: link inversion marks what can be reached

`mark` turns the links around on its way down, and the bit `T_ATOM` of a
pair tells which of the two links leads back. All of this is undone in
the end: the cells are as before, and the marks are those of a plain
marker over the links.

The induction is over the visits of the plain marker. `VisitSpec` is what
one visit does, whatever the pointer `t` and whatever stands in cells
that are marked already: a cell on the way back is marked, so what its
links are meanwhile does not matter.

* `visit_car`, `visit_cdr`: the two links of a pair.
* `foldlM_elements`: the elements of a vector, which are marked by calls
  of their own.
* `visits_of_marks`: `mark` visits what the plain marker visits.
* `mark_exact`: `mark` ends, changes nothing but marks, and marks what
  can be reached.
-/

set_option autoImplicit false

namespace Alcor.Proofs.TinyScheme

open Lib.Marking Alcor.TinyScheme Alcor.TinyScheme.Heap

/-! ### Cells and their links -/

/-- Where the cell `c` at `p` leads to: the elements of a vector, the links of a pair. -/
def links (p : Nat) (c : Cell) : List Nat :=
  if c.type = .tVector then
    (List.range (c.ivalue.tdiv 2 + c.ivalue.tmod 2).toNat).map (p + 1 + ·)
  else if c.atom then []
  else [c.car, c.cdr].filter (· ≠ 0)

/-- The cells that `mark` goes on to from a cell. -/
def children (h : Heap) (p : Nat) : List Nat := links p (h p)

/-- The vectors of a heap. -/
def Vector (h : Heap) (p : Nat) : Prop := (h p).type = .tVector

/-- A vector is an atom, and what is not an atom has two links. -/
structure Shaped (c : Cell) : Prop where
  vector : c.type = .tVector → c.atom = true
  pair : c.atom = false → ∃ a d, c.object = .cons a d

/-- The marked cells. -/
def marks (h : Heap) : Set Nat := {p | isMark h p = true}

open Classical in
/-- The heap with the marks of `M`. -/
noncomputable def remark (h : Heap) (M : Set Nat) : Heap :=
  fun p => (h p).setMark (decide (p ∈ M))

/-- `succ` has the links of the cells without a mark, these have a shape, and `vec` holds of the
vectors among them. -/
def Graph (succ : Nat → List Nat) (vec : Nat → Prop) (h : Heap) : Prop :=
  ∀ p, p ∉ marks h → succ p = children h p ∧ Shaped (h p) ∧ ((h p).type = .tVector → vec p)

/-- The graph of a heap: no link is null, and the elements `succ v` of a vector `v` are different
cells that no other cell has a link to. -/
structure Owned (succ : Nat → List Nat) (vec : Nat → Prop) : Prop where
  ne_zero : ∀ x, ∀ y ∈ succ x, y ≠ 0
  nodup : ∀ v, vec v → (succ v).Nodup
  only : ∀ v, vec v → ∀ s ∈ succ v, ∀ y, s ∈ succ y → y = v

/-- The elements of a vector get no mark before the vector. -/
def Fresh (succ : Nat → List Nat) (vec : Nat → Prop) (M : Set Nat) : Prop :=
  ∀ v, vec v → v ∉ M → ∀ s ∈ succ v, s ∉ M

section
variable {h : Heap} {M M' : Set Nat} {p : Nat} {succ : Nat → List Nat}
  {vec : Nat → Prop}

@[simp] theorem marks_remark (h : Heap) (M : Set Nat) : marks (remark h M) = M := by
  ext p
  simp [marks, isMark, remark]

open Classical in
/-- A cell that has the mark already is as it was. -/
theorem remark_cell (hp : p ∈ M ↔ (h p).marked = true) : remark h M p = h p := by
  have hmark : decide (p ∈ M) = (h p).marked := by
    cases hm : (h p).marked <;> simp [hp, hm]
  show (h p).setMark (decide (p ∈ M)) = h p
  rw [hmark]
  rfl

theorem remark_of_mem (hp : p ∈ M) : remark h M p = (h p).setMark true := by
  simp [remark, hp]

theorem remark_self (hM : marks h = M) : remark h M = h := by
  funext p
  subst hM
  exact remark_cell Iff.rfl

@[simp] theorem remark_remark (h : Heap) (M M' : Set Nat) :
    remark (remark h M) M' = remark h M' := rfl

theorem setmark_eq (hM : marks h = M) (p : Nat) : setmark h p = remark h (insert p M) := by
  funext q
  subst hM
  by_cases hq : q = p
  · subst hq
    rw [remark_of_mem (Set.mem_insert _ _), setmark, Function.update_self]
  · rw [remark_cell, setmark, Function.update_of_ne hq]
    exact ⟨fun h => h.resolve_left hq, .inr⟩

theorem remark_update (h : Heap) (M : Set Nat) (p : Nat) (c : Cell) (hp : p ∈ M) :
    remark (Function.update h p c) M = Function.update (remark h M) p (c.setMark true) := by
  funext q
  by_cases hq : q = p
  · subst hq
    simp [remark, hp]
  · simp [remark, Function.update_of_ne hq]

theorem marks_update (hp : p ∈ marks h) {c : Cell} (hc : c.marked = true) :
    marks (Function.update h p c) = marks h := by
  ext q
  by_cases hq : q = p
  · subst hq
    exact ⟨fun _ => hp, fun _ => by simp [marks, isMark, hc]⟩
  · simp [marks, isMark, Function.update_of_ne hq]

theorem children_vector (hvec : Vector h p) :
    children h p = (List.range (slots h p)).map (p + 1 + ·) :=
  if_pos hvec

theorem children_atom (hvec : ¬ Vector h p) (hatom : isAtom h p = true) : children h p = [] := by
  rw [children, links]
  exact (if_neg hvec).trans (if_pos hatom)

theorem children_pair (hvec : ¬ Vector h p) (hatom : ¬ isAtom h p = true) :
    children h p = [car h p, cdr h p].filter (· ≠ 0) := by
  rw [children, links]
  exact (if_neg hvec).trans (if_neg hatom)

theorem isVector_eq (h : Heap) (p : Nat) : isVector h p = true ↔ Vector h p :=
  decide_eq_true_iff

theorem children_eq_of_cell {h h' : Heap} (heq : h' p = h p) : children h' p = children h p := by
  rw [children, children, heq]

theorem Shaped.remark {h : Heap} (hs : Shaped (h p)) (M : Set Nat) :
    Shaped (TinyScheme.remark h M p) :=
  ⟨hs.vector, hs.pair⟩

theorem Graph.remark (hg : Graph succ vec h) (hsub : marks h ⊆ M) :
    Graph succ vec (TinyScheme.remark h M) := by
  intro p hp
  rw [marks_remark] at hp
  obtain ⟨hsucc, hshape, hvec⟩ := hg p fun h => hp (hsub h)
  exact ⟨hsucc, hshape.remark M, hvec⟩

/-- What stands in a marked cell does not matter. -/
theorem Graph.update (hg : Graph succ vec h) (hp : p ∈ marks h) {c : Cell} (hc : c.marked = true) :
    Graph succ vec (Function.update h p c) := by
  intro q hq
  rw [marks_update hp hc] at hq
  have hne : q ≠ p := fun h => hq (h ▸ hp)
  have hcell : Function.update h p c q = h q := Function.update_of_ne hne _ _
  obtain ⟨hsucc, hshape, hvec⟩ := hg q hq
  rw [hcell]
  exact ⟨hsucc.trans (children_eq_of_cell hcell).symm, hshape, hvec⟩

theorem isMark_eq_false (hM : marks h = M) (hp : p ∉ M) : isMark h p = false := by
  subst hM
  exact Bool.eq_false_of_not_eq_true hp

end

/-! ### Visits -/

/-- A visit of the cell `a` without a mark. It comes back to `a` with the pointer `t` it was given,
and takes at most four passes for each new mark. -/
structure VisitSpec (succ : Nat → List Nat) (vec : Nat → Prop) (M : Set Nat)
    (a : Nat) (n : Nat) (M' : Set Nat) : Prop where
  visit : Marks succ M [a] n M'
  run : ∀ h, marks h = M → Graph succ vec h → ∀ t passes, 4 * n ≤ passes →
    ∃ left, passes ≤ left + 4 * n ∧
      markFrom passes h t a .e2 = markFrom left (remark h M') t a .e6

/-- Visits to `as`, one after the other. -/
def Visits (succ : Nat → List Nat) (vec : Nat → Prop) :
    Set Nat → List Nat → Nat → Set Nat → Prop
  | M, [],      n, M' => n = 0 ∧ M' = M
  | M, a :: as, n, M' =>
    (a ∈ M ∧ Visits succ vec M as n M') ∨
    (a ∉ M ∧ ∃ k l M₁, n = k + l ∧ VisitSpec succ vec M a k M₁ ∧ Visits succ vec M₁ as l M')

section
variable {succ : Nat → List Nat} {vec : Nat → Prop} {h : Heap} {M M' : Set Nat}
  {a c d t : Nat} {n passes : Nat}

/-- A link that is not followed: it is null, or its cell has a mark, or the visit is one of
`Visits`. -/
theorem visits_link (hv : Visits succ vec M ([d].filter (· ≠ 0)) n M') (hM : marks h = M) :
    (¬(d ≠ 0 ∧ isMark h d = false) ∧ n = 0 ∧ M' = M) ∨
    (d ≠ 0 ∧ isMark h d = false ∧ VisitSpec succ vec M d n M') := by
  by_cases hd : d = 0
  · subst hd
    obtain ⟨hn, hM'⟩ := hv
    exact .inl ⟨fun h => h.1 rfl, hn, hM'⟩
  · rw [List.filter_cons_of_pos (by simpa using hd), List.filter_nil] at hv
    rcases hv with ⟨hdM, hn, hM'⟩ | ⟨hdM, k, l, M₁, hn, hspec, hl, hM₁⟩
    · subst hM
      refine .inl ⟨fun h => ?_, hn, hM'⟩
      rw [show isMark _ d = true from hdM] at h
      cases h.2
    · subst hl hM₁
      rw [Nat.add_zero] at hn
      subst hn
      exact .inr ⟨hd, isMark_eq_false hM hdM, hspec⟩

/-- The link `cdr` of a pair: from E5 to E6. -/
theorem visit_cdr (hM : marks h = M) (ha : a ∈ M) (ha0 : a ≠ 0) (hg : Graph succ vec h)
    (hatom : (h a).atom = false) (hobj : (h a).object = .cons c d)
    (hv : Visits succ vec M ([d].filter (· ≠ 0)) n M') (hp : 4 * n + 2 ≤ passes) :
    ∃ left, passes ≤ left + (4 * n + 2) ∧
      markFrom passes h t a .e5 = markFrom left (remark h M') t a .e6 := by
  obtain ⟨k, rfl⟩ : ∃ k, passes = k + 1 := ⟨passes - 1, by omega⟩
  have hcdr : cdr h a = d := by simp [Heap.cdr, Cell.cdr, hobj]
  have hcar : (h a).car = c := by simp [Cell.car, hobj]
  rcases visits_link hv hM with ⟨hstay, rfl, rfl⟩ | ⟨hd0, hdm, hspec⟩
  · refine ⟨k, by omega, ?_⟩
    rw [markFrom, hcdr, if_neg hstay, remark_self hM]
  · have ha' : a ∈ M' := hspec.visit.subset ha
    have hmark : (h a).marked = true := by
      subst hM
      exact ha
    -- Down: the link of `a` leads back to `t` meanwhile.
    have hdown : marks (setCdr h a t) = M :=
      (marks_update (c := (h a).setCdr t) (hM ▸ ha) hmark).trans hM
    obtain ⟨left, hleft, hgo⟩ := hspec.run _ hdown (hg.update (hM ▸ ha) hmark) a k (by omega)
    obtain ⟨q, rfl⟩ : ∃ q, left = q + 1 := ⟨left - 1, by omega⟩
    refine ⟨q, by omega, ?_⟩
    rw [markFrom, hcdr, if_pos ⟨hd0, hdm⟩, hgo, markFrom, if_neg ha0]
    -- Up: `a` is not noted as an atom, so it is the link `cdr` that comes back.
    have hcell : remark (setCdr h a t) M' a = (h a).setCdr t := by
      rw [remark_of_mem ha', setCdr, Function.update_self]
      ext <;> simp [hmark]
    have hup : isAtom (remark (setCdr h a t) M') a = false := by
      rw [isAtom, hcell]
      exact hatom
    have hback : cdr (remark (setCdr h a t) M') a = t := by
      rw [Heap.cdr, hcell]
      rfl
    have hheap : setCdr (remark (setCdr h a t) M') a d = remark h M' := by
      rw [setCdr, hcell, setCdr, remark_update _ _ _ _ ha', Function.update_idem]
      refine Function.update_eq_self_iff.mpr ?_
      rw [remark_of_mem ha']
      ext <;> simp [hmark, hobj, hcar]
    rw [hup, if_neg Bool.false_ne_true, hback, hheap]

/-- The visits to both links are those to the one, then those to the other. -/
theorem visits_pair (hv : Visits succ vec M ([c, d].filter (· ≠ 0)) n M') :
    ∃ k l M₁, n = k + l ∧ Visits succ vec M ([c].filter (· ≠ 0)) k M₁ ∧
      Visits succ vec M₁ ([d].filter (· ≠ 0)) l M' := by
  by_cases hc : c = 0
  · subst hc
    exact ⟨0, n, M, (Nat.zero_add n).symm, ⟨rfl, rfl⟩, hv⟩
  · rw [List.filter_cons_of_pos (by simpa using hc)] at hv ⊢
    rcases hv with ⟨hcM, hrest⟩ | ⟨hcM, k, l, M₁, hn, hspec, hrest⟩
    · exact ⟨0, n, M, (Nat.zero_add n).symm, .inl ⟨hcM, rfl, rfl⟩, hrest⟩
    · exact ⟨k, l, M₁, hn, .inr ⟨hcM, k, 0, M₁, rfl, hspec, rfl, rfl⟩, hrest⟩

/-- The two links of a pair: from E4 to E6. -/
theorem visit_car (hM : marks h = M) (ha : a ∈ M) (ha0 : a ≠ 0) (hg : Graph succ vec h)
    (hatom : (h a).atom = false) (hobj : (h a).object = .cons c d)
    (hv : Visits succ vec M ([c, d].filter (· ≠ 0)) n M') (hp : 4 * n + 3 ≤ passes) :
    ∃ left, passes ≤ left + (4 * n + 3) ∧
      (if car h a ≠ 0 ∧ isMark h (car h a) = false then
        markFrom passes (setCar (setatom h a) a t) a (car h a) .e2
      else markFrom passes h t a .e5) = markFrom left (remark h M') t a .e6 := by
  have hcar : car h a = c := by simp [Heap.car, Cell.car, hobj]
  have hcdr : (h a).cdr = d := by simp [Cell.cdr, hobj]
  obtain ⟨k, l, M₁, rfl, hvc, hvd⟩ := visits_pair hv
  rw [hcar]
  rcases visits_link hvc hM with ⟨hstay, rfl, rfl⟩ | ⟨hc0, hcm, hspec⟩
  · rw [if_neg hstay]
    obtain ⟨left, hleft, hgo⟩ := visit_cdr (t := t) hM ha ha0 hg hatom hobj hvd
      (show _ ≤ passes by omega)
    exact ⟨left, by omega, hgo⟩
  · rw [if_pos ⟨hc0, hcm⟩]
    have ha' : a ∈ M₁ := hspec.visit.subset ha
    have hmark : (h a).marked = true := by
      subst hM
      exact ha
    -- Down: `a` is noted as an atom, and its link `car` leads back to `t`.
    have hdown : setCar (setatom h a) a t = Function.update h a (((h a).setAtom true).setCar t) := by
      rw [setCar, setatom, Function.update_self, Function.update_idem]
    have hmarks : marks (Function.update h a (((h a).setAtom true).setCar t)) = M :=
      (marks_update (c := ((h a).setAtom true).setCar t) (hM ▸ ha) hmark).trans hM
    obtain ⟨left, hleft, hgo⟩ := hspec.run _ hmarks (hg.update (hM ▸ ha) hmark) a passes (by omega)
    obtain ⟨q, rfl⟩ : ∃ q, left = q + 1 := ⟨left - 1, by omega⟩
    rw [hdown, hgo, markFrom, if_neg ha0]
    -- Up: the note says that it is the link `car` that comes back.
    have hcell : remark (Function.update h a (((h a).setAtom true).setCar t)) M₁ a =
        ((h a).setAtom true).setCar t := by
      rw [remark_of_mem ha', Function.update_self]
      ext <;> simp [hmark]
    have hup : isAtom (remark (Function.update h a (((h a).setAtom true).setCar t)) M₁) a = true := by
      rw [isAtom, hcell]
      rfl
    have hback : car (remark (Function.update h a (((h a).setAtom true).setCar t)) M₁) a = t := by
      rw [Heap.car, hcell]
      rfl
    have hheap : setCar (clratom (remark (Function.update h a (((h a).setAtom true).setCar t)) M₁) a)
        a c = remark h M₁ := by
      rw [setCar, clratom, Function.update_self, Function.update_idem, hcell,
        remark_update _ _ _ _ ha', Function.update_idem]
      refine Function.update_eq_self_iff.mpr ?_
      rw [remark_of_mem ha']
      ext <;> simp [hmark, hobj, hcdr, hatom]
    rw [if_pos hup, hback, hheap]
    obtain ⟨left, hleft', hgo'⟩ := visit_cdr (t := t) (marks_remark h M₁) ha' ha0
      (hg.remark (hM ▸ hspec.visit.subset)) hatom hobj hvd (show _ ≤ q by omega)
    exact ⟨left, by omega, hgo'⟩

/-- The elements of a vector, each marked by a call of its own. -/
theorem foldlM_elements {ss : List Nat} (hv : Visits succ vec M ss n M') (hnodup : ss.Nodup)
    (hfresh : ∀ s ∈ ss, s ∉ M) (howner : ∀ s ∈ ss, ∀ y, s ∈ succ y → y ∈ M) (hM : marks h = M)
    (hg : Graph succ vec h) (hp : 4 * n + 1 ≤ passes) :
    ss.foldlM (fun h s => markFrom passes h 0 s .e2) h = some (remark h M') := by
  induction ss generalizing M n h with
  | nil =>
    obtain ⟨-, rfl⟩ := hv
    rw [List.foldlM_nil, remark_self hM]
    rfl
  | cons s ss ih =>
    obtain ⟨hs, hnodup⟩ := List.nodup_cons.mp hnodup
    rcases hv with ⟨hsM, -⟩ | ⟨hsM, k, l, M₁, rfl, hspec, hrest⟩
    · exact absurd hsM (hfresh s List.mem_cons_self)
    · obtain ⟨left, hleft, hgo⟩ := hspec.run h hM hg 0 passes (by omega)
      obtain ⟨q, rfl⟩ : ∃ q, left = q + 1 := ⟨left - 1, by omega⟩
      have hsub := hspec.visit.subset
      have hone : markFrom passes h 0 s .e2 = some (remark h M₁) := by
        rw [hgo, markFrom, if_pos rfl]
      rw [List.foldlM_cons, hone]
      show ss.foldlM _ (remark h M₁) = _
      rw [ih hrest hnodup ?_ ?_ (marks_remark h M₁) (hg.remark (hM ▸ hsub)) (by omega),
        remark_remark]
      · -- A later element could only be marked through the vector, which has its mark.
        intro s' hs' hin
        rcases hspec.visit.entered s' hin (hfresh s' (List.mem_cons_of_mem _ hs')) with
          h | ⟨y, -, hy, hy'⟩
        · rw [List.mem_singleton] at h
          exact hs (h ▸ hs')
        · exact hy (howner s' (List.mem_cons_of_mem _ hs') y hy')
      · exact fun s' hs' y hy => hsub (howner s' (List.mem_cons_of_mem _ hs') y hy)

end

/-! ### From the visits of the links to the visit of a cell -/

section
variable {succ : Nat → List Nat} {vec : Nat → Prop} {M M' : Set Nat}
  {as : List Nat} {n : Nat}

theorem Fresh.insert {a : Nat} (hf : Fresh succ vec M) (ha : ∀ v, vec v → a ∈ succ v → v ∈ M) :
    Fresh succ vec (insert a M) := by
  intro v hv hout s hs
  have hvM : v ∉ M := fun h => hout (Set.mem_insert_of_mem _ h)
  rintro (rfl | hin)
  · exact hvM (ha v hv hs)
  · exact hf v hv hvM s hs hin

theorem Fresh.of_marks (hf : Fresh succ vec M) (howned : Owned succ vec)
    (has : ∀ s ∈ as, ∀ v, vec v → s ∈ succ v → v ∈ M) (hm : Marks succ M as n M') :
    Fresh succ vec M' := by
  intro v hv hout s hs hin
  have hvM : v ∉ M := fun h => hout (hm.subset h)
  rcases hm.entered s hin (hf v hv hvM s hs) with h | ⟨y, hy, -, hys⟩
  · exact hvM (has s h v hv hs)
  · exact hout (howned.only v hv s hs y hys ▸ hy)

/-- A visit of a cell, when the visits of its links are known: from E2 to E6. -/
theorem VisitSpec.of_visits {a : Nat} (ha : a ∉ M) (ha0 : a ≠ 0) (howned : Owned succ vec)
    (hf : Fresh succ vec M) (hm : Marks succ (insert a M) (succ a) n M')
    (hv : Visits succ vec (insert a M) (succ a) n M') : VisitSpec succ vec M a (n + 1) M' := by
  refine ⟨.single ha hm, ?_⟩
  intro h hM hg t passes hp
  obtain ⟨k, rfl⟩ : ∃ k, passes = k + 1 := ⟨passes - 1, by omega⟩
  obtain ⟨hsucc, hshape, hvec⟩ := hg a (hM ▸ ha)
  have hset : setmark h a = remark h (insert a M) := setmark_eq hM a
  have hg' : Graph succ vec (remark h (insert a M)) := hg.remark (hM ▸ Set.subset_insert _ _)
  have hcell : remark h (insert a M) a = (h a).setMark true := remark_of_mem (Set.mem_insert _ _)
  rw [markFrom, hset]
  by_cases htype : (h a).type = .tVector
  · -- A vector: its elements first, and then it is an atom.
    have hisvec : isVector (remark h (insert a M)) a = true := by
      rw [isVector, hcell]
      exact decide_eq_true htype
    have hlist : succ a = (List.range (slots (remark h (insert a M)) a)).map (a + 1 + ·) := by
      rw [hsucc, children_vector htype, slots, slots, hcell]
      rfl
    have helems := foldlM_elements hv (howned.nodup a (hvec htype))
      (fun s hs => by
        rintro (rfl | hin)
        · -- A vector is not an element of itself.
          rw [hlist, List.mem_map] at hs
          obtain ⟨i, -, hi⟩ := hs
          have : s + 1 + i = s := hi
          omega
        · exact hf a (hvec htype) ha s hs hin)
      (fun s hs y hy => by
        rw [howned.only a (hvec htype) s hs y hy]
        exact Set.mem_insert _ _)
      (marks_remark h _) hg' (show _ ≤ k by omega)
    rw [hlist, List.foldlM_map] at helems
    have hatom' : isAtom (remark h M') a = true := hshape.vector htype
    refine ⟨k, by omega, ?_⟩
    rw [if_pos hisvec, helems, Option.bind_some, remark_remark]
    exact if_pos hatom'
  · have hisvec : ¬ isVector (remark h (insert a M)) a = true := by
      rw [isVector, hcell]
      exact fun h => htype (of_decide_eq_true h)
    rw [if_neg hisvec, Option.bind_some]
    by_cases hatom : (h a).atom = true
    · -- An atom has no links.
      have hnil : succ a = [] := by rw [hsucc, children_atom htype hatom]
      rw [hnil] at hv
      obtain ⟨rfl, rfl⟩ := hv
      have hatom' : isAtom (remark h (insert a M)) a = true := hatom
      exact ⟨k, by omega, by rw [if_pos hatom']⟩
    · have hatom₀ : (h a).atom = false := Bool.eq_false_of_not_eq_true hatom
      obtain ⟨c, d, hobj⟩ := hshape.pair hatom₀
      have hpair : succ a = [c, d].filter (· ≠ 0) := by
        rw [hsucc, children_pair htype hatom]
        simp only [Heap.car, Heap.cdr, Cell.car, Cell.cdr, hobj]
      rw [hpair] at hv
      have hatom' : ¬ isAtom (remark h (insert a M)) a = true := hatom
      obtain ⟨left, hleft, hgo⟩ := visit_car (t := t) (marks_remark h (insert a M))
        (Set.mem_insert a M) ha0 hg' hatom₀ hobj hv (show _ ≤ k by omega)
      refine ⟨left, by omega, ?_⟩
      rw [if_neg hatom']
      exact hgo

/-- What the plain marker visits, `mark` visits too. -/
theorem visits_of_marks (howned : Owned succ vec) (hm : Marks succ M as n M') :
    Fresh succ vec M → (∀ s ∈ as, ∀ v, vec v → s ∈ succ v → v ∈ M) → (∀ a ∈ as, a ≠ 0) →
      Visits succ vec M as n M' := by
  induction hm with
  | nil => exact fun _ _ _ => ⟨rfl, rfl⟩
  | skip ha _ ih =>
    intro hf has h0
    exact .inl ⟨ha, ih hf (fun s hs => has s (List.mem_cons_of_mem _ hs))
      fun s hs => h0 s (List.mem_cons_of_mem _ hs)⟩
  | @visit M M₁ M' a as m n ha hsucc hrest ih₁ ih₂ =>
    intro hf has h0
    have hf₁ : Fresh succ vec (insert a M) :=
      hf.insert fun v hv hs => has a List.mem_cons_self v hv hs
    have hlinks : ∀ s ∈ succ a, ∀ v, vec v → s ∈ succ v → v ∈ insert a M := by
      intro s hs v hv hsv
      rw [← howned.only v hv s hsv a hs]
      exact Set.mem_insert _ _
    have hspec := VisitSpec.of_visits ha (h0 a List.mem_cons_self) howned hf hsucc
      (ih₁ hf₁ hlinks (howned.ne_zero a))
    have hsub : M ⊆ M₁ := (Set.subset_insert a M).trans hsucc.subset
    refine .inr ⟨ha, m + 1, n, M₁, by omega, hspec, ih₂ (hf₁.of_marks howned hlinks hsucc) ?_
      fun s hs => h0 s (List.mem_cons_of_mem _ hs)⟩
    exact fun s hs v hv hsv => hsub (has s (List.mem_cons_of_mem _ hs) v hv hsv)

end

/-! ### Calls of `mark` -/

/-- The cells that can be reached through a cell. The cell `sink` has its mark from the start, so it
is never followed. -/
def follow (sink : Nat) (h : Heap) (p : Nat) : List Nat := if p = sink then [] else children h p

/-- The cells `U` of a heap are in order: their links stay among them, the elements of a vector are
its own and none of them is a vector. There is nothing to follow outside of `U`. -/
structure Storage (sink : Nat) (h : Heap) (U : Finset Nat) : Prop where
  zero : 0 ∉ U
  shaped : ∀ p, Shaped (h p)
  outside : ∀ p, p ∉ U → follow sink h p = []
  inside : ∀ p, ∀ q ∈ follow sink h p, q ∈ U
  only : ∀ v, Vector h v → ∀ s ∈ follow sink h v, ∀ p, s ∈ follow sink h p → p = v
  element : ∀ v, Vector h v → ∀ s ∈ follow sink h v, ¬ Vector h s ∧ s ≠ sink

/-- The marks between two calls of `mark`: `sink` is among them, no link leads out of them, and the
elements of a vector are not marked before it. -/
structure Settled (sink : Nat) (h : Heap) (M : Set Nat) : Prop where
  held : sink ∈ M
  closed : Closed (follow sink h) M
  fresh : Fresh (follow sink h) (Vector h) M

/-- A pointer that `mark` may be given: to a cell, and not into a vector. -/
structure IsRoot (sink : Nat) (h : Heap) (U : Finset Nat) (a : Nat) : Prop where
  mem : a ∈ U
  ne_sink : a ≠ sink
  outer : ∀ v, Vector h v → a ∉ follow sink h v

section
variable {sink : Nat} {h : Heap} {U : Finset Nat} {M : Set Nat} {a passes : Nat}

theorem follow_of_ne (ha : a ≠ sink) : follow sink h a = children h a := if_neg ha

theorem Storage.owned (hs : Storage sink h U) : Owned (follow sink h) (Vector h) := by
  refine ⟨fun x y hy h0 => hs.zero (h0 ▸ hs.inside x y hy), fun v hv => ?_, hs.only⟩
  by_cases hsink : v = sink
  · rw [follow, if_pos hsink]
    exact List.nodup_nil
  · rw [follow_of_ne hsink, children_vector hv]
    exact List.nodup_range.map fun i j hij => Nat.add_left_cancel hij

theorem Storage.graph (hs : Storage sink h U) (hsink : sink ∈ marks h) :
    Graph (follow sink h) (Vector h) h :=
  fun _ hp => ⟨follow_of_ne fun heq => hp (heq ▸ hsink), hs.shaped _, id⟩

/-- Where the links of a marked cell lead to marked cells only, E2 leads to E6 at once. -/
theorem markFrom_marked {t : Nat} (hvec : ¬ Vector h a) (ha : a ∈ marks h)
    (hlinks : ∀ b ∈ children h a, b ∈ marks h) (hp : 3 ≤ passes) :
    ∃ left, passes ≤ left + 3 ∧ markFrom passes h t a .e2 = markFrom left h t a .e6 := by
  obtain ⟨k, rfl⟩ : ∃ k, passes = k + 2 := ⟨passes - 2, by omega⟩
  have hset : setmark h a = h := by
    rw [setmark_eq rfl, Set.insert_eq_of_mem ha, remark_self rfl]
  have hisvec : ¬ isVector h a = true := fun hv => hvec ((isVector_eq h a).mp hv)
  rw [markFrom, hset, if_neg hisvec, Option.bind_some]
  by_cases hatom : isAtom h a = true
  · exact ⟨k + 1, by omega, if_pos hatom⟩
  · have hstay : ∀ b, b ≠ 0 → b ∈ [car h a, cdr h a] → isMark h b ≠ false := by
      intro b hb hin hmark
      have hb' : b ∈ children h a := by
        rw [children_pair hvec hatom]
        exact List.mem_filter.mpr ⟨hin, by simpa using hb⟩
      have : isMark h b = true := hlinks b hb'
      rw [hmark] at this
      cases this
    refine ⟨k, by omega, ?_⟩
    rw [if_neg hatom]
    show (if car h a ≠ 0 ∧ isMark h (car h a) = false then _ else _) = _
    rw [if_neg fun hq : car h a ≠ 0 ∧ isMark h (car h a) = false =>
      hstay _ hq.1 List.mem_cons_self hq.2, markFrom]
    exact if_neg fun hq : cdr h a ≠ 0 ∧ isMark h (cdr h a) = false =>
      hstay _ hq.1 (List.mem_cons_of_mem _ List.mem_cons_self) hq.2

/-- A cell that has its mark is not visited again. -/
theorem mark_marked (hs : Storage sink h U) (hM : Closed (follow sink h) (marks h))
    (ha : a ∈ marks h) (ha' : a ≠ sink) (hp : 5 ≤ passes) : mark passes h a = some h := by
  have hlinks : ∀ b ∈ children h a, b ∈ marks h := fun b hb =>
    hM a ha b (by rw [follow_of_ne ha']; exact hb)
  by_cases hvec : Vector h a
  · obtain ⟨k, rfl⟩ : ∃ k, passes = k + 2 := ⟨passes - 2, by omega⟩
    have hset : setmark h a = h := by
      rw [setmark_eq rfl, Set.insert_eq_of_mem ha, remark_self rfl]
    have hone : ∀ s ∈ children h a, markFrom (k + 1) h 0 s .e2 = some h := by
      intro s hin
      obtain ⟨hns, hne⟩ := hs.element a hvec s (by rw [follow_of_ne ha']; exact hin)
      have hmark := hlinks s hin
      obtain ⟨left, hleft, hgo⟩ := markFrom_marked (t := 0) hns hmark
        (fun b hb => hM s hmark b (by rw [follow_of_ne hne]; exact hb)) (show 3 ≤ k + 1 by omega)
      obtain ⟨q, rfl⟩ : ∃ q, left = q + 1 := ⟨left - 1, by omega⟩
      rw [hgo, markFrom, if_pos rfl]
    have hall : ∀ ss : List Nat, (∀ s ∈ ss, markFrom (k + 1) h 0 s .e2 = some h) →
        ss.foldlM (fun h s => markFrom (k + 1) h 0 s .e2) h = some h := by
      intro ss
      induction ss with
      | nil => exact fun _ => rfl
      | cons s ss ih =>
        intro hss
        rw [List.foldlM_cons, hss s List.mem_cons_self]
        exact ih fun s' hs' => hss s' (List.mem_cons_of_mem _ hs')
    have helems := hall _ hone
    rw [children_vector hvec, List.foldlM_map] at helems
    have hatom : isAtom h a = true := (hs.shaped a).vector hvec
    have hisvec : isVector h a = true := (isVector_eq h a).mpr hvec
    rw [mark, markFrom, hset, if_pos hisvec, helems, Option.bind_some, if_pos hatom, markFrom,
      if_pos rfl]
  · obtain ⟨left, hleft, hgo⟩ := markFrom_marked (t := 0) hvec ha hlinks (show 3 ≤ passes by omega)
    obtain ⟨q, rfl⟩ : ∃ q, left = q + 1 := ⟨left - 1, by omega⟩
    rw [mark, hgo, markFrom, if_pos rfl]

/-- A call of `mark` leaves all cells as they were, and marks exactly what can be reached. -/
theorem mark_eq (hs : Storage sink h U) (hM : Settled sink h (marks h)) (ha : IsRoot sink h U a)
    (hp : 4 * U.card + 2 ≤ passes) :
    mark passes h a = some (remark h (marks h ∪ {x | Reaches (follow sink h) [a] x})) := by
  have hU : ∀ x ∈ U, ∀ y ∈ follow sink h x, y ∈ U := fun x _ => hs.inside x
  have hcard : 1 ≤ U.card := Finset.card_pos.mpr ⟨a, ha.mem⟩
  by_cases hmark : a ∈ marks h
  · rw [mark_marked hs hM.closed hmark ha.ne_sink (by omega)]
    have hset : marks h ∪ {x | Reaches (follow sink h) [a] x} = marks h := by
      refine Set.union_eq_self_of_subset_right fun x hx => ?_
      refine hM.closed.of_reaches (fun b hb => ?_) hx
      rw [List.mem_singleton] at hb
      exact hb ▸ hmark
    rw [hset, remark_self rfl]
  · obtain ⟨n, M', hm, hn⟩ :=
      Marks.exists U hU (marks h) [a] fun b hb => by
        rw [List.mem_singleton] at hb
        exact hb ▸ ha.mem
    have hle : n ≤ U.card := by
      have := Marks.unmarked_le U (marks h)
      omega
    have hvisits := visits_of_marks hs.owned hm hM.fresh
      (fun s hin v hv hsv => by
        rw [List.mem_singleton] at hin
        exact absurd (hin ▸ hsv) (ha.outer v hv))
      (fun b hb h0 => by
        rw [List.mem_singleton] at hb
        exact hs.zero (h0 ▸ hb ▸ ha.mem))
    rcases hvisits with ⟨hin, -⟩ | ⟨-, k, l, M₁, rfl, hspec, rfl, rfl⟩
    · exact absurd hin hmark
    · obtain ⟨left, hleft, hgo⟩ := hspec.run h rfl (hs.graph hM.held) 0 passes (by omega)
      obtain ⟨q, rfl⟩ : ∃ q, left = q + 1 := ⟨left - 1, by omega⟩
      rw [mark, hgo, markFrom, if_pos rfl, hm.eq hM.closed]

/-- **The marker**: `mark` comes to an end. It changes nothing but
marks, and those of the cells that can be reached are set. Every link
that was turned around on the way is turned back. -/
theorem mark_exact (hs : Storage sink h U) (hM : Settled sink h (marks h)) (ha : IsRoot sink h U a)
    (hp : 4 * U.card + 2 ≤ passes) :
    ∃ h', mark passes h a = some h' ∧ (∀ p, h' p = (h p).setMark (h' p).marked) ∧
      ∀ p, isMark h' p = true ↔ isMark h p = true ∨ Reaches (follow sink h) [a] p := by
  refine ⟨_, mark_eq hs hM ha hp, fun p => rfl, fun p => ?_⟩
  show p ∈ marks (remark h _) ↔ _
  rw [marks_remark]
  exact Iff.rfl

end

/-- A pair that leads to itself and to a vector, whose elements are that pair again. -/
def ring : Heap := fun p =>
  if p = 1 then ⟨.tPair, false, false, false, true, .cons 5 5⟩
  else if p = 5 then ⟨.tPair, false, false, false, false, .cons 5 6⟩
  else if p = 6 then ⟨.tVector, false, false, true, false, .number 2⟩
  else if p = 7 then ⟨.tPair, false, true, false, false, .cons 5 5⟩
  else ⟨.tNone, false, false, true, false, .number 0⟩

theorem follow_ring (p : Nat) : follow 1 ring p =
    if p = 5 then [5, 6] else if p = 6 then [7] else if p = 7 then [5, 5] else [] := by
  by_cases h1 : p = 1
  · subst h1
    rfl
  · rw [follow_of_ne h1, children, ring, if_neg h1]
    split
    · rfl
    · split
      · next h6 => rw [h6]; rfl
      · split
        · rfl
        · rfl

theorem vector_ring {p : Nat} (hp : Vector ring p) : p = 6 := by
  unfold Vector ring at hp
  by_contra h6
  rw [if_neg h6] at hp
  split at hp
  · cases hp
  · split at hp
    · cases hp
    · split at hp <;> cases hp

/-- The ring is a storage. -/
theorem ring_storage : Storage 1 ring {5, 6, 7} := by
  refine ⟨by decide, fun p => ?_, fun p hp => ?_, fun p q hq => ?_, fun v hv x hx p hxp => ?_,
    fun v hv x hx => ?_⟩
  · unfold ring
    split
    · exact ⟨fun h => (by cases h), fun _ => ⟨_, _, rfl⟩⟩
    · split
      · exact ⟨fun h => (by cases h), fun _ => ⟨_, _, rfl⟩⟩
      · split
        · exact ⟨fun _ => rfl, fun h => (by cases h)⟩
        · split
          · exact ⟨fun h => (by cases h), fun _ => ⟨_, _, rfl⟩⟩
          · exact ⟨fun h => (by cases h), fun h => (by cases h)⟩
  · simp only [Finset.mem_insert, Finset.mem_singleton, not_or] at hp
    rw [follow_ring, if_neg hp.1, if_neg hp.2.1, if_neg hp.2.2]
  · rw [follow_ring] at hq
    split at hq
    · simp only [List.mem_cons, List.not_mem_nil, or_false] at hq
      rcases hq with rfl | rfl <;> decide
    · split at hq
      · simp only [List.mem_cons, List.not_mem_nil, or_false] at hq
        subst hq
        decide
      · split at hq
        · simp only [List.mem_cons, List.not_mem_nil, or_false, or_self] at hq
          subst hq
          decide
        · exact absurd hq List.not_mem_nil
  · obtain rfl := vector_ring hv
    rw [follow_ring] at hx hxp
    obtain rfl : x = 7 := by simpa using hx
    split at hxp
    · simp at hxp
    · split at hxp
      · assumption
      · split at hxp
        · simp at hxp
        · exact absurd hxp List.not_mem_nil
  · obtain rfl := vector_ring hv
    rw [follow_ring] at hx
    obtain rfl : x = 7 := by simpa using hx
    exact ⟨fun h => absurd (vector_ring h) (by decide), by decide⟩

theorem marks_ring {p : Nat} : p ∈ marks ring ↔ p = 1 := by
  constructor
  · intro hp
    by_contra h1
    have hp' : (ring p).marked = true := hp
    unfold ring at hp'
    rw [if_neg h1] at hp'
    split at hp'
    · cases hp'
    · split at hp'
      · cases hp'
      · split at hp' <;> cases hp'
  · rintro rfl
    rfl

/-- The hypotheses of `mark_exact` hold of a pair and a vector that
lead to each other. -/
theorem mark_exact_ring :
    ∃ h', mark 14 ring 5 = some h' ∧ (∀ p, h' p = (ring p).setMark (h' p).marked) ∧
      ∀ p, isMark h' p = true ↔ isMark ring p = true ∨ Reaches (follow 1 ring) [5] p := by
  refine mark_exact ring_storage ⟨marks_ring.mpr rfl, fun x hx y hy => ?_, fun v hv _ x hx hin => ?_⟩
    ⟨by decide, by decide, fun v hv hin => ?_⟩ (by decide)
  · obtain rfl := marks_ring.mp hx
    exact absurd hy List.not_mem_nil
  · obtain rfl := vector_ring hv
    obtain rfl : x = 7 := by simpa [follow_ring] using hx
    exact absurd (marks_ring.mp hin) (by decide)
  · obtain rfl := vector_ring hv
    rw [follow_ring] at hin
    exact absurd hin (by decide)

end Alcor.Proofs.TinyScheme
