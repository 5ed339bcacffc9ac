import Mathlib.Data.List.ReduceOption
import Mathlib.Data.List.Sort
import Alcor.Proofs.TinyScheme.Mark

/-!
# `Alcor.Proofs.TinyScheme.Storage`: the cells between two operations

`Sound` is the storage between two operations of the interpreter: where
the cells are, which of them are free, and that nothing in use leads to a
free cell. The free list has the free cells in the order of their
addresses, so that a vector finds cells that are next to each other.

The collector, a new segment and an allocation link free cells anew and
leave all others as they are (`Relinked`).

* `Sound.reached`: what can be reached is in use.
* `Relinked.sound`: the one argument for all of the three.
* `Relinked.keeps`: what can be reached is as before.
* `noCells_sound`: the storage before the first segment.
-/

set_option autoImplicit false

namespace Alcor.Proofs.TinyScheme

open Lib.Marking Alcor.TinyScheme Alcor.TinyScheme.Heap Alcor.TinyScheme.Scheme

variable {nil : Nat} {h : Heap} {l : List Nat}

/-! ### The free list -/

/-- The links `cdr` lead from `p` through the cells `l` to `q`. -/
def Leads (nil : Nat) (h : Heap) : Nat → List Nat → Nat → Prop
  | p, [],      q => p = q
  | p, x :: xs, q => p = x ∧ x ≠ nil ∧ Leads nil h (cdr h x) xs q

/-- The free cells from `p` on are `l`. -/
def FreeFrom (nil : Nat) (h : Heap) (p : Nat) (l : List Nat) : Prop := Leads nil h p l nil

theorem Leads.congr {h' : Heap} {p q : Nat} (hl : Leads nil h p l q)
    (heq : ∀ x ∈ l, cdr h' x = cdr h x) : Leads nil h' p l q := by
  induction l generalizing p with
  | nil => exact hl
  | cons x xs ih =>
    obtain ⟨hp, hx, hrest⟩ := hl
    refine ⟨hp, hx, ?_⟩
    rw [heq x List.mem_cons_self]
    exact ih hrest fun y hy => heq y (List.mem_cons_of_mem _ hy)

theorem leads_append {p r : Nat} {l' : List Nat} :
    Leads nil h p (l ++ l') r ↔ ∃ q, Leads nil h p l q ∧ Leads nil h q l' r := by
  induction l generalizing p with
  | nil =>
    constructor
    · exact fun h => ⟨p, rfl, h⟩
    · rintro ⟨q, rfl, h⟩
      exact h
  | cons x xs ih =>
    constructor
    · rintro ⟨hp, hx, hrest⟩
      obtain ⟨q, hq, hr⟩ := ih.mp hrest
      exact ⟨q, ⟨hp, hx, hq⟩, hr⟩
    · rintro ⟨q, ⟨hp, hx, hq⟩, hr⟩
      exact ⟨hp, hx, ih.mpr ⟨q, hq, hr⟩⟩

theorem FreeFrom.congr {h' : Heap} {p : Nat} (hl : FreeFrom nil h p l)
    (heq : ∀ x ∈ l, cdr h' x = cdr h x) : FreeFrom nil h' p l :=
  Leads.congr hl heq

theorem FreeFrom.next {p x : Nat} (hl : FreeFrom nil h p l) (hx : x ∈ l) :
    cdr h x = nil ∨ cdr h x ∈ l := by
  induction l generalizing p with
  | nil => exact absurd hx List.not_mem_nil
  | cons y ys ih =>
    obtain ⟨-, -, hrest⟩ := hl
    rcases List.mem_cons.mp hx with rfl | hx
    · cases ys with
      | nil => exact .inl hrest
      | cons z zs => exact .inr (hrest.1 ▸ List.mem_cons_of_mem _ List.mem_cons_self)
    · exact (ih hrest hx).imp_right (List.mem_cons_of_mem _)

/-- A free cell. -/
def blankCell (nil next : Nat) : Cell := ⟨.tNone, false, false, false, false, .cons nil next⟩

/-! ### The storage between two operations -/

/-- The cells of all segments, from the last one down to the first. -/
def segmentCells (conf : Conf) (s : Scheme) : List Nat := s.cellSeg.flatMap (segmentDown conf)

/-- The cells that are in no segment. -/
def specials (conf : Conf) : List Nat := [conf.sink, conf.nil, conf.t, conf.f]

/-- All cells. -/
def cells (conf : Conf) (s : Scheme) : Finset Nat := (specials conf ++ segmentCells conf s).toFinset

/-- Two segments are not next to each other: `alloc_cellseg` asks for more than it uses. -/
def Apart (conf : Conf) (p q : Nat) : Prop := p + conf.segSize < q ∨ q + conf.segSize < p

instance (conf : Conf) : DecidableRel (Apart conf) :=
  fun _ _ => inferInstanceAs (Decidable (_ ∨ _))

/-- The segments there are, and those to come. -/
def blocks (s : Scheme) : List Nat := s.cellSeg ++ s.mallocs.reduceOption

/-- Where the cells are. -/
structure Layout (conf : Conf) (s : Scheme) : Prop where
  size : 0 < conf.segSize
  distinct : (specials conf).Nodup
  zero : 0 ∉ specials conf
  positive : ∀ b ∈ blocks s, 0 < b
  outside : ∀ b ∈ blocks s, ∀ p ∈ specials conf, p < b ∨ b + conf.segSize < p
  apart : (blocks s).Pairwise (Apart conf)
  descending : s.cellSeg.Pairwise (· > ·)

/-- A pointer that the interpreter may hold: to a cell that is in use, and not into a vector. -/
structure Root (conf : Conf) (s : Scheme) (a : Nat) : Prop
    extends IsRoot conf.sink s.heap (cells conf s) a where
  used : (s.heap a).flagZero = false

/-- The storage is in order. `free` are the free cells, and `out` are cells that were taken from
them and not filled yet. -/
structure Sound (conf : Conf) (s : Scheme) (free : List Nat) (out : Set Nat) : Prop where
  layout : Layout conf s
  storage : Storage conf.sink s.heap (cells conf s)
  marked : ∀ p, isMark s.heap p = true → p ∈ specials conf
  held : ∀ p ∈ specials conf, p ≠ conf.nil → isMark s.heap p = true
  constants : ∀ p ∈ specials conf, p ≠ conf.sink → isAtom s.heap p = true ∧ ¬ Vector s.heap p
  element : ∀ v, Vector s.heap v → ∀ x ∈ follow conf.sink s.heap v, x ∈ segmentCells conf s
  sinkless : ∀ p, conf.sink ∉ follow conf.sink s.heap p
  linked : ∀ p ∈ cells conf s, p ≠ conf.sink → isAtom s.heap p = false →
    car s.heap p ≠ 0 ∧ cdr s.heap p ≠ 0
  chain : FreeFrom conf.nil s.heap s.freeCell free
  ascending : free.Pairwise (· < ·)
  fcells : s.fcells = free.length
  inside : ∀ x ∈ free, x ∈ segmentCells conf s
  disjoint : ∀ x ∈ free, x ∉ out
  zero : ∀ x ∈ segmentCells conf s, (s.heap x).flagZero = true ↔ x ∈ free ∨ x ∈ out
  blank : ∀ x ∈ segmentCells conf s, (s.heap x).flagZero = true →
    ∃ next, s.heap x = blankCell conf.nil next
  live : ∀ p, p ≠ conf.sink → (s.heap p).flagZero = false →
    ∀ q ∈ children s.heap p, (s.heap q).flagZero = false
  registers : ∀ r, Root conf s (s.registers r)
  recent : Root conf s (car s.heap conf.sink)

section
variable {conf : Conf} {s : Scheme} {free : List Nat} {out : Set Nat} {x : Nat}

theorem mem_segmentCells :
    x ∈ segmentCells conf s ↔ ∃ seg ∈ s.cellSeg, seg ≤ x ∧ x < seg + conf.segSize := by
  simp only [segmentCells, segmentDown, List.mem_flatMap, List.mem_map, List.mem_reverse,
    List.mem_range]
  constructor
  · rintro ⟨seg, hseg, i, hi, rfl⟩
    exact ⟨seg, hseg, by omega, by omega⟩
  · rintro ⟨seg, hseg, h₁, h₂⟩
    exact ⟨seg, hseg, x - seg, by omega, by omega⟩

theorem mem_cells : x ∈ cells conf s ↔ x ∈ specials conf ∨ x ∈ segmentCells conf s := by
  rw [cells, List.mem_toFinset, List.mem_append]

theorem Layout.not_special (hl : Layout conf s) (hx : x ∈ segmentCells conf s) :
    x ∉ specials conf := by
  intro hp
  obtain ⟨seg, hseg, h₁, h₂⟩ := mem_segmentCells.mp hx
  rcases hl.outside seg (List.mem_append_left _ hseg) x hp with h | h
  · omega
  · omega

theorem Layout.ne_nil (hl : Layout conf s) (hx : x ∈ segmentCells conf s) : x ≠ conf.nil :=
  fun heq => hl.not_special hx (heq ▸ List.mem_cons_of_mem _ List.mem_cons_self)

theorem Layout.ne_sink (hl : Layout conf s) (hx : x ∈ segmentCells conf s) : x ≠ conf.sink :=
  fun heq => hl.not_special hx (heq ▸ List.mem_cons_self)

/-- The cells come in the order of their addresses. -/
theorem Layout.cells_descending (hl : Layout conf s) :
    (segmentCells conf s).Pairwise (· > ·) := by
  have hapart : s.cellSeg.Pairwise (Apart conf) := (List.pairwise_append.mp hl.apart).1
  rw [segmentCells, List.pairwise_flatMap]
  constructor
  · intro seg _
    rw [segmentDown, List.pairwise_map, List.pairwise_reverse]
    exact List.pairwise_lt_range.imp fun h => Nat.add_lt_add_left h _
  · refine (hl.descending.and hapart).imp ?_
    rintro p q ⟨hgt, hpq⟩ x hx y hy
    simp only [segmentDown, List.mem_map, List.mem_reverse, List.mem_range] at hx hy
    obtain ⟨i, hi, rfl⟩ := hx
    obtain ⟨j, hj, rfl⟩ := hy
    rcases hpq with h | h
    · omega
    · omega

theorem length_segmentCells (conf : Conf) (s : Scheme) :
    (segmentCells conf s).length = conf.segSize * s.cellSeg.length := by
  rw [segmentCells]
  induction s.cellSeg with
  | nil => rfl
  | cons seg segs ih =>
    rw [List.flatMap_cons, List.length_append, ih, segmentDown, List.length_map,
      List.length_reverse, List.length_range, List.length_cons, Nat.mul_succ]
    omega

theorem card_cells_le (conf : Conf) (s : Scheme) :
    (cells conf s).card ≤ conf.segSize * s.cellSeg.length + 4 := by
  have hle := List.toFinset_card_le (specials conf ++ segmentCells conf s)
  rw [List.length_append, length_segmentCells] at hle
  have : (specials conf).length = 4 := rfl
  unfold cells
  omega

theorem mem_specials_nil (conf : Conf) : conf.nil ∈ specials conf :=
  List.mem_cons_of_mem _ List.mem_cons_self

theorem mem_specials_sink (conf : Conf) : conf.sink ∈ specials conf := List.mem_cons_self

theorem Sound.ne_nil_sink (hs : Sound conf s free out) : conf.nil ≠ conf.sink := by
  intro heq
  have := hs.layout.distinct
  rw [specials, heq] at this
  exact (List.nodup_cons.mp this).1 List.mem_cons_self

theorem Sound.constant (hs : Sound conf s free out) {p : Nat} (hp : p ∈ specials conf)
    (hsink : p ≠ conf.sink) : Root conf s p := by
  obtain ⟨hatom, hvec⟩ := hs.constants p hp hsink
  refine ⟨⟨mem_cells.mpr (.inl hp), hsink, fun v hv hin => ?_⟩, ?_⟩
  · exact hs.layout.not_special (hs.element v hv p hin) hp
  · have : (s.heap p).atom = true := hatom
    simp [Cell.flagZero, this]

theorem Sound.children_special (hs : Sound conf s free out) {p : Nat} (hp : p ∈ specials conf) :
    follow conf.sink s.heap p = [] := by
  by_cases hsink : p = conf.sink
  · rw [follow, if_pos hsink]
  · obtain ⟨hatom, hvec⟩ := hs.constants p hp hsink
    rw [follow_of_ne hsink, children_atom hvec hatom]

theorem Sound.free_length_le (hs : Sound conf s free out) :
    free.length ≤ conf.segSize * s.cellSeg.length := by
  have hnodup : free.Nodup := hs.ascending.imp fun h => Nat.ne_of_lt h
  rw [← length_segmentCells]
  exact (List.subperm_of_subset hnodup hs.inside).length_le

/-- Between two operations, no mark is in the way of the next call of `mark`. -/
theorem Sound.settled (hs : Sound conf s free out) :
    Settled conf.sink s.heap (marks s.heap) := by
  refine ⟨hs.held _ (mem_specials_sink conf) hs.ne_nil_sink.symm, ?_, ?_⟩
  · intro x hx y hy
    rw [hs.children_special (hs.marked x hx)] at hy
    exact absurd hy List.not_mem_nil
  · intro v hv _ x hx hmark
    exact hs.layout.not_special (hs.element v hv x hx) (hs.marked x hmark)

/-- What can be reached from pointers the interpreter holds is a cell in use. -/
theorem Sound.reached (hs : Sound conf s free out) {as : List Nat} (has : ∀ a ∈ as, Root conf s a)
    (hx : Reaches (follow conf.sink s.heap) as x) :
    x ∈ cells conf s ∧ (s.heap x).flagZero = false := by
  have hclosed : Closed (follow conf.sink s.heap)
      {x | x ∈ cells conf s ∧ (s.heap x).flagZero = false} := by
    rintro y ⟨hy, hused⟩ z hz
    refine ⟨hs.storage.inside y z hz, ?_⟩
    by_cases hsink : y = conf.sink
    · rw [follow, if_pos hsink] at hz
      exact absurd hz List.not_mem_nil
    · rw [follow_of_ne hsink] at hz
      exact hs.live y hsink hused z hz
  exact hclosed.of_reaches (fun a ha => ⟨(has a ha).mem, (has a ha).used⟩) hx

end

/-! ### Another free list -/

/-- The free cells were linked anew, and some were added to them: `D` are the free ones now. All
other cells are as before, but that `nil` may have lost its mark. -/
structure Relinked (conf : Conf) (s s' : Scheme) (D : Set Nat) : Prop where
  layout : Layout conf s'
  registers : s'.registers = s.registers
  grows : ∀ x ∈ segmentCells conf s, x ∈ segmentCells conf s'
  new : ∀ x ∈ segmentCells conf s', x ∉ segmentCells conf s → x ∈ D
  inside : ∀ x ∈ D, x ∈ segmentCells conf s'
  kept : ∀ x, x ∉ D → x ≠ conf.nil → s'.heap x = s.heap x
  nil : ∃ m, (m = true → (s.heap conf.nil).marked = true) ∧
    s'.heap conf.nil = (s.heap conf.nil).setMark m
  blank : ∀ x ∈ D, ∃ next, s'.heap x = blankCell conf.nil next ∧ (next = conf.nil ∨ next ∈ D)
  free : ∀ x ∈ segmentCells conf s, (s.heap x).flagZero = true → x ∈ D
  unlinked : ∀ p, p ∉ D → ∀ q ∈ follow conf.sink s.heap p, q ∉ D
  held : ∀ r, s.registers r ∉ D
  recent : car s.heap conf.sink ∉ D

section
variable {conf : Conf} {s s' : Scheme} {free free' : List Nat} {out out' : Set Nat} {D : Set Nat}
  {p q x : Nat}

theorem Relinked.not_special (hr : Relinked conf s s' D) (hx : x ∈ D) : x ∉ specials conf :=
  hr.layout.not_special (hr.inside x hx)

theorem Relinked.cell (hr : Relinked conf s s' D) (hx : x ∉ D) :
    ∃ m, (m = true → (s.heap x).marked = true) ∧ s'.heap x = (s.heap x).setMark m := by
  by_cases hnil : x = conf.nil
  · subst hnil
    exact hr.nil
  · exact ⟨(s.heap x).marked, id, hr.kept x hx hnil⟩

theorem Relinked.follow (hr : Relinked conf s s' D) (hx : x ∉ D) :
    follow conf.sink s'.heap x = TinyScheme.follow conf.sink s.heap x := by
  obtain ⟨m, -, hm⟩ := hr.cell hx
  rw [TinyScheme.follow, TinyScheme.follow, children, children, hm]
  rfl

/-- A free cell leads to `nil` or to a free cell. -/
theorem Relinked.follow_free (hr : Relinked conf s s' D) (hx : x ∈ D)
    (hq : q ∈ TinyScheme.follow conf.sink s'.heap x) : q = conf.nil ∨ q ∈ D := by
  obtain ⟨next, hcell, hnext⟩ := hr.blank x hx
  rw [follow_of_ne (hr.layout.ne_sink (hr.inside x hx)), children, hcell] at hq
  have hq' : q ∈ [conf.nil, next] := (List.mem_filter.mp hq).1
  rcases List.mem_cons.mp hq' with h | h
  · exact .inl h
  · rw [List.mem_singleton.mp h]
    exact hnext

theorem Relinked.vector (hr : Relinked conf s s' D) (hx : Vector s'.heap x) :
    x ∉ D ∧ Vector s.heap x := by
  by_cases hD : x ∈ D
  · obtain ⟨next, hcell, -⟩ := hr.blank x hD
    rw [Vector, hcell] at hx
    cases hx
  · obtain ⟨m, -, hm⟩ := hr.cell hD
    rw [Vector, hm] at hx
    exact ⟨hD, hx⟩

theorem Relinked.mem_cells (hr : Relinked conf s s' D) (hx : x ∈ cells conf s) :
    x ∈ cells conf s' :=
  TinyScheme.mem_cells.mpr ((TinyScheme.mem_cells.mp hx).imp_right (hr.grows x))

theorem Relinked.used (hs : Sound conf s free out) (hr : Relinked conf s s' D) (hx : x ∉ D)
    (hused : (s.heap x).flagZero = false) : (s'.heap x).flagZero = false := by
  by_cases hnil : x = conf.nil
  · subst hnil
    obtain ⟨m, -, hm⟩ := hr.nil
    have hatom : (s.heap conf.nil).atom = true :=
      (hs.constants _ (mem_specials_nil conf) hs.ne_nil_sink).1
    rw [hm]
    simp [Cell.flagZero, hatom]
  · rw [hr.kept x hx hnil]
    exact hused

theorem Relinked.flagZero (hr : Relinked conf s s' D) (hx : x ∈ segmentCells conf s') :
    (s'.heap x).flagZero = true ↔ x ∈ D := by
  constructor
  · intro hzero
    by_contra hD
    rw [hr.kept x hD (hr.layout.ne_nil hx)] at hzero
    by_cases hold : x ∈ segmentCells conf s
    · exact hD (hr.free x hold hzero)
    · exact hD (hr.new x hx hold)
  · intro hD
    obtain ⟨next, hcell, -⟩ := hr.blank x hD
    rw [hcell]
    rfl

/-- The cells are a storage for the collector. -/
theorem Relinked.storage (hs : Sound conf s free out) (hr : Relinked conf s s' D) :
    Storage conf.sink s'.heap (cells conf s') := by
  refine ⟨?_, ?_, ?_, ?_, ?_, ?_⟩
  · intro h0
    rcases TinyScheme.mem_cells.mp h0 with h | h
    · exact hr.layout.zero h
    · obtain ⟨seg, hseg, h₁, -⟩ := mem_segmentCells.mp h
      have := hr.layout.positive seg (List.mem_append_left _ hseg)
      omega
  · intro p
    by_cases hp : p ∈ D
    · obtain ⟨next, hcell, -⟩ := hr.blank p hp
      rw [hcell]
      refine ⟨fun h => ?_, fun _ => ⟨_, _, rfl⟩⟩
      cases h
    · obtain ⟨m, -, hm⟩ := hr.cell hp
      rw [hm]
      exact ⟨(hs.storage.shaped p).vector, (hs.storage.shaped p).pair⟩
  · intro p hp
    rw [hr.follow fun h => hp (TinyScheme.mem_cells.mpr (.inr (hr.inside p h)))]
    exact hs.storage.outside p fun h => hp (hr.mem_cells h)
  · intro p q hq
    by_cases hp : p ∈ D
    · rcases hr.follow_free hp hq with rfl | h
      · exact TinyScheme.mem_cells.mpr (.inl (mem_specials_nil conf))
      · exact TinyScheme.mem_cells.mpr (.inr (hr.inside q h))
    · rw [hr.follow hp] at hq
      exact hr.mem_cells (hs.storage.inside p q hq)
  · intro v hv x hx p hxp
    obtain ⟨hvD, hv⟩ := hr.vector hv
    rw [hr.follow hvD] at hx
    by_cases hp : p ∈ D
    · -- The elements of a vector are not free.
      rcases hr.follow_free hp hxp with rfl | h
      · exact absurd rfl (hs.layout.ne_nil (hs.element v hv _ hx))
      · exact absurd h (hr.unlinked v hvD x hx)
    · rw [hr.follow hp] at hxp
      exact hs.storage.only v hv x hx p hxp
  · intro v hv x hx
    obtain ⟨hvD, hv⟩ := hr.vector hv
    rw [hr.follow hvD] at hx
    refine ⟨fun hvec => ?_, (hs.storage.element v hv x hx).2⟩
    exact (hs.storage.element v hv x hx).1 (hr.vector hvec).2

theorem Relinked.root (hs : Sound conf s free out) (hr : Relinked conf s s' D) {a : Nat}
    (ha : Root conf s a) (haD : a ∉ D) : Root conf s' a := by
  refine ⟨⟨hr.mem_cells ha.mem, ha.ne_sink, ?_⟩, hr.used hs haD ha.used⟩
  intro v hv hin
  obtain ⟨hvD, hv⟩ := hr.vector hv
  rw [hr.follow hvD] at hin
  exact ha.outer v hv hin

/-- The storage is in order after this, when `free'` is the new free list. -/
theorem Relinked.sound (hs : Sound conf s free out) (hr : Relinked conf s s' D)
    (hD : ∀ x, x ∈ D ↔ x ∈ free' ∨ x ∈ out') (hdis : ∀ x ∈ free', x ∉ out')
    (hchain : FreeFrom conf.nil s'.heap s'.freeCell free')
    (hasc : free'.Pairwise (· < ·)) (hcount : s'.fcells = free'.length) :
    Sound conf s' free' out' := by
  have hspecial : ∀ p ∈ specials conf, p ∉ D := fun p hp h => hr.not_special h hp
  have hnz : ∀ q ∈ cells conf s', q ≠ 0 := fun q hq h => (hr.storage hs).zero (h ▸ hq)
  have hnil : conf.nil ∈ cells conf s' := TinyScheme.mem_cells.mpr (.inl (mem_specials_nil conf))
  have hsinkcar : car s'.heap conf.sink = car s.heap conf.sink := by
    rw [Heap.car, hr.kept _ (hspecial _ (mem_specials_sink conf)) hs.ne_nil_sink.symm]
    rfl
  refine ⟨hr.layout, hr.storage hs, ?_, ?_, ?_, ?_, ?_, ?_, hchain, hasc, hcount, ?_, hdis,
    ?_, ?_, ?_, ?_, ?_⟩
  · intro p hp
    by_cases hpD : p ∈ D
    · obtain ⟨next, hcell, -⟩ := hr.blank p hpD
      rw [isMark, hcell] at hp
      cases hp
    · obtain ⟨m, hmark, hm⟩ := hr.cell hpD
      rw [isMark, hm] at hp
      exact hs.marked p (hmark hp)
  · intro p hp hne
    rw [isMark, hr.kept p (hspecial p hp) hne]
    exact hs.held p hp hne
  · intro p hp hsink
    obtain ⟨m, -, hm⟩ := hr.cell (hspecial p hp)
    rw [isAtom, Vector, hm]
    exact hs.constants p hp hsink
  · intro v hv x hx
    obtain ⟨hvD, hv⟩ := hr.vector hv
    rw [hr.follow hvD] at hx
    exact hr.grows x (hs.element v hv x hx)
  · intro p hin
    by_cases hpD : p ∈ D
    · rcases hr.follow_free hpD hin with h | h
      · exact hs.ne_nil_sink h.symm
      · exact hr.not_special h (mem_specials_sink conf)
    · rw [hr.follow hpD] at hin
      exact hs.sinkless p hin
  · intro p hp hsink hatom
    by_cases hpD : p ∈ D
    · obtain ⟨next, hcell, hnext⟩ := hr.blank p hpD
      rw [Heap.car, Heap.cdr, hcell]
      refine ⟨hnz _ hnil, ?_⟩
      rcases hnext with rfl | h
      · exact hnz _ hnil
      · exact hnz _ (TinyScheme.mem_cells.mpr (.inr (hr.inside _ h)))
    · obtain ⟨m, -, hm⟩ := hr.cell hpD
      rw [isAtom, hm] at hatom
      rw [Heap.car, Heap.cdr, hm]
      refine hs.linked p ?_ hsink hatom
      rcases TinyScheme.mem_cells.mp hp with h | h
      · exact TinyScheme.mem_cells.mpr (.inl h)
      · exact TinyScheme.mem_cells.mpr (.inr (by_contra fun hold => hpD (hr.new p h hold)))
  · exact fun x hx => hr.inside x ((hD x).mpr (.inl hx))
  · exact fun x hx => (hr.flagZero hx).trans (hD x)
  · intro x hx hzero
    obtain ⟨next, hcell, -⟩ := hr.blank x ((hr.flagZero hx).mp hzero)
    exact ⟨next, hcell⟩
  · intro p hsink hused q hq
    have hpD : p ∉ D := by
      intro h
      rw [(hr.flagZero (hr.inside p h)).mpr h] at hused
      cases hused
    have hq' : q ∈ TinyScheme.follow conf.sink s.heap p := by
      rw [← hr.follow hpD, follow_of_ne hsink]
      exact hq
    refine hr.used hs (hr.unlinked p hpD q hq') (hs.live p hsink ?_ q ?_)
    · by_contra hzero
      rw [Bool.not_eq_false] at hzero
      -- A cell with something to follow is in a segment, and all free ones there are in `D`.
      rcases TinyScheme.mem_cells.mp (by_contra fun hout => by
        rw [hs.storage.outside p hout] at hq'
        exact absurd hq' List.not_mem_nil) with h | h
      · rw [hs.children_special h] at hq'
        exact absurd hq' List.not_mem_nil
      · exact hpD (hr.free p h hzero)
    · rwa [follow_of_ne hsink] at hq'
  · intro r
    rw [hr.registers]
    exact hr.root hs (hs.registers r) (hr.held r)
  · rw [hsinkcar]
    exact hr.root hs hs.recent hr.recent

end

/-! ### What an operation leaves alone -/

/-- What can be reached from `as` is as before. -/
structure Kept (conf : Conf) (s : Scheme) (as : List Nat) (s' : Scheme) : Prop where
  registers : s'.registers = s.registers
  grows : ∀ x ∈ segmentCells conf s, x ∈ segmentCells conf s'
  constants : ∀ x ∈ specials conf, x ≠ conf.sink → x ≠ conf.nil → s'.heap x = s.heap x
  nil : ∃ m, s'.heap conf.nil = (s.heap conf.nil).setMark m
  reached : ∀ x ∈ segmentCells conf s, Reaches (follow conf.sink s.heap) as x →
    s'.heap x = s.heap x

section
variable {conf : Conf} {s s₁ s' : Scheme} {free : List Nat} {out : Set Nat} {as bs : List Nat}
  {D : Set Nat} {x : Nat}

theorem Kept.follow (hs : Sound conf s free out) (has : ∀ a ∈ as, Root conf s a)
    (hk : Kept conf s as s') (hx : Reaches (follow conf.sink s.heap) as x) :
    follow conf.sink s'.heap x = TinyScheme.follow conf.sink s.heap x := by
  by_cases hsink : x = conf.sink
  · rw [TinyScheme.follow, TinyScheme.follow, if_pos hsink, if_pos hsink]
  · have hcell : ∃ m, s'.heap x = (s.heap x).setMark m := by
      rcases mem_cells.mp (hs.reached has hx).1 with hp | hp
      · by_cases hnil : x = conf.nil
        · exact hnil ▸ hk.nil
        · exact ⟨(s.heap x).marked, hk.constants x hp hsink hnil⟩
      · exact ⟨(s.heap x).marked, hk.reached x hp hx⟩
    obtain ⟨m, hm⟩ := hcell
    rw [TinyScheme.follow, TinyScheme.follow, children, children, hm]
    rfl

theorem Kept.reaches (hs : Sound conf s free out) (has : ∀ a ∈ as, Root conf s a)
    (hk : Kept conf s as s') (hx : Reaches (TinyScheme.follow conf.sink s.heap) as x) :
    Reaches (TinyScheme.follow conf.sink s'.heap) as x :=
  hx.congr fun _ hy => hk.follow hs has hy

theorem Kept.trans (hs : Sound conf s free out) (has : ∀ a ∈ as, Root conf s a)
    (hk : Kept conf s as s₁) (hk' : Kept conf s₁ bs s')
    (hsub : ∀ a ∈ as, Reaches (TinyScheme.follow conf.sink s₁.heap) bs a) : Kept conf s as s' := by
  refine ⟨hk'.registers.trans hk.registers, fun x hx => hk'.grows x (hk.grows x hx), ?_, ?_, ?_⟩
  · intro x hx hsink hnil
    rw [hk'.constants x hx hsink hnil, hk.constants x hx hsink hnil]
  · obtain ⟨m, hm⟩ := hk.nil
    obtain ⟨m', hm'⟩ := hk'.nil
    refine ⟨m', ?_⟩
    rw [hm', hm]
    rfl
  · intro x hx hr
    rw [hk'.reached x (hk.grows x hx) ((hk.reaches hs has hr).trans hsub), hk.reached x hx hr]

theorem Relinked.not_reached (hr : Relinked conf s s' D) (has : ∀ a ∈ as, a ∉ D)
    (hx : Reaches (TinyScheme.follow conf.sink s.heap) as x) : x ∉ D := by
  have hclosed : Closed (TinyScheme.follow conf.sink s.heap) {x | x ∉ D} :=
    fun p hp q hq => hr.unlinked p hp q hq
  exact hclosed.of_reaches has hx

/-- Nothing in use leads to cells that are linked anew. -/
theorem Relinked.keeps (hr : Relinked conf s s' D) (has : ∀ a ∈ as, a ∉ D) : Kept conf s as s' := by
  refine ⟨hr.registers, hr.grows, ?_, ?_, ?_⟩
  · exact fun x hx _ hnil => hr.kept x (fun h => hr.not_special h hx) hnil
  · obtain ⟨m, -, hm⟩ := hr.nil
    exact ⟨m, hm⟩
  · intro x hx hreach
    exact hr.kept x (hr.not_reached has hreach) (hr.layout.ne_nil (hr.grows x hx))

/-- What is free is not in use. -/
theorem Root.not_free (hs : Sound conf s free out) (hx : Root conf s x) : x ∉ free := by
  intro hin
  have hzero := (hs.zero x (hs.inside x hin)).mpr (.inl hin)
  rw [hx.used] at hzero
  cases hzero

/-- Nothing in use leads to a free cell. -/
theorem Sound.unlinked (hs : Sound conf s free ∅) {p q : Nat} (hp : p ∉ free)
    (hq : q ∈ TinyScheme.follow conf.sink s.heap p) : q ∉ free := by
  intro hin
  have hqzero := (hs.zero q (hs.inside q hin)).mpr (.inl hin)
  by_cases hsink : p = conf.sink
  · rw [TinyScheme.follow, if_pos hsink] at hq
    exact absurd hq List.not_mem_nil
  · have hpused : (s.heap p).flagZero = false := by
      by_contra hzero
      rw [Bool.not_eq_false] at hzero
      rcases mem_cells.mp (by_contra fun hout => by
        rw [hs.storage.outside p hout] at hq
        exact absurd hq List.not_mem_nil) with h | h
      · rw [hs.children_special h] at hq
        exact absurd hq List.not_mem_nil
      · exact hp (((hs.zero p h).mp hzero).resolve_right id)
    rw [follow_of_ne hsink] at hq
    rw [hs.live p hsink hpused q hq] at hqzero
    cases hqzero

end

/-! ### The storage at the start -/

section
variable {conf : Conf} {s : Scheme} {free : List Nat} {out : Set Nat} {mallocs : List (Option Nat)}
  {p x : Nat}

theorem mem_specials_of_constant (hx : x ∈ [conf.nil, conf.t, conf.f]) : x ∈ specials conf :=
  List.mem_cons_of_mem _ hx

theorem ne_sink_of_constant (hs : Sound conf s free out)
    (hx : x ∈ [conf.nil, conf.t, conf.f]) : x ≠ conf.sink := by
  rintro rfl
  exact (List.nodup_cons.mp hs.layout.distinct).1 hx

theorem noCells_heap (p : Nat) : (noCells conf mallocs).heap p =
    if p = conf.sink then ⟨.tPair, false, false, false, true, .cons conf.nil conf.nil⟩
    else if p = conf.nil ∨ p = conf.t ∨ p = conf.f then
      ⟨.tNone, false, false, true, true, .cons p p⟩
    else ⟨.tNone, false, false, true, false, .number 0⟩ := rfl

theorem follow_noCells (p : Nat) : follow conf.sink (noCells conf mallocs).heap p = [] := by
  by_cases hsink : p = conf.sink
  · rw [follow, if_pos hsink]
  · rw [follow_of_ne hsink, children, noCells_heap, if_neg hsink]
    split <;> rfl

theorem noCells_constant (hl : Layout conf (noCells conf mallocs))
    (hp : p ∈ [conf.nil, conf.t, conf.f]) :
    (noCells conf mallocs).heap p = ⟨.tNone, false, false, true, true, .cons p p⟩ := by
  have hsink : p ≠ conf.sink := by
    rintro rfl
    exact (List.nodup_cons.mp hl.distinct).1 hp
  rw [noCells_heap, if_neg hsink, if_pos (by simpa using hp)]

theorem noCells_sink :
    (noCells conf mallocs).heap conf.sink =
      ⟨.tPair, false, false, false, true, .cons conf.nil conf.nil⟩ :=
  if_pos rfl

theorem noCells_beyond (hp : p ∉ specials conf) :
    (noCells conf mallocs).heap p = ⟨.tNone, false, false, true, false, .number 0⟩ := by
  rw [specials, List.mem_cons, not_or] at hp
  rw [noCells_heap, if_neg hp.1, if_neg (by simpa using hp.2)]

/-- Without a segment the storage is in order, and has no free cells. -/
theorem noCells_sound (hl : Layout conf (noCells conf mallocs)) :
    Sound conf (noCells conf mallocs) [] ∅ := by
  have hcell : ∀ p, (noCells conf mallocs).heap p =
        ⟨.tPair, false, false, false, true, .cons conf.nil conf.nil⟩ ∧ p = conf.sink ∨
      (noCells conf mallocs).heap p = ⟨.tNone, false, false, true, true, .cons p p⟩ ∧
        p ∈ [conf.nil, conf.t, conf.f] ∨
      (noCells conf mallocs).heap p = ⟨.tNone, false, false, true, false, .number 0⟩ ∧
        p ∉ specials conf := by
    intro p
    by_cases hp : p ∈ specials conf
    · rcases List.mem_cons.mp hp with rfl | h
      · exact .inl ⟨noCells_sink, rfl⟩
      · exact .inr (.inl ⟨noCells_constant hl h, h⟩)
    · exact .inr (.inr ⟨noCells_beyond hp, hp⟩)
  have hvec : ∀ p, ¬ Vector (noCells conf mallocs).heap p := by
    intro p hv
    rcases hcell p with ⟨h, -⟩ | ⟨h, -⟩ | ⟨h, -⟩
    all_goals
      rw [Vector, h] at hv
      cases hv
  have hused : ∀ p, ((noCells conf mallocs).heap p).flagZero = false := by
    intro p
    rcases hcell p with ⟨h, -⟩ | ⟨h, -⟩ | ⟨h, -⟩
    all_goals
      rw [h]
      rfl
  have hempty : ∀ x, x ∉ segmentCells conf (noCells conf mallocs) := fun x => List.not_mem_nil
  have hnil : Root conf (noCells conf mallocs) conf.nil := by
    refine ⟨⟨mem_cells.mpr (.inl (mem_specials_nil conf)), fun heq => ?_,
      fun v hv => absurd hv (hvec v)⟩, hused _⟩
    exact (List.nodup_cons.mp hl.distinct).1 (heq ▸ List.mem_cons_self)
  refine ⟨hl, ⟨?_, ?_, fun p _ => follow_noCells p, ?_, fun v hv => absurd hv (hvec v),
    fun v hv => absurd hv (hvec v)⟩, ?_, ?_, ?_, fun v hv => absurd hv (hvec v), ?_, ?_, rfl,
    List.Pairwise.nil, rfl, fun x hx => absurd hx List.not_mem_nil,
    fun x hx => absurd hx List.not_mem_nil, fun x hx => absurd hx (hempty x),
    fun x hx => absurd hx (hempty x), fun p _ _ q _ => hused q, fun _ => hnil, ?_⟩
  · intro h0
    rcases mem_cells.mp h0 with h | h
    · exact hl.zero h
    · exact hempty 0 h
  · intro p
    rcases hcell p with ⟨h, -⟩ | ⟨h, -⟩ | ⟨h, -⟩
    all_goals
      rw [h]
      exact ⟨fun h => (by cases h), fun h => (by first | exact ⟨_, _, rfl⟩ | cases h)⟩
  · intro p q hq
    rw [follow_noCells] at hq
    exact absurd hq List.not_mem_nil
  · intro p hp
    rcases hcell p with ⟨-, rfl⟩ | ⟨-, h⟩ | ⟨h, -⟩
    · exact mem_specials_sink conf
    · exact mem_specials_of_constant h
    · rw [isMark, h] at hp
      cases hp
  · intro p hp _
    rcases hcell p with ⟨h, -⟩ | ⟨h, -⟩ | ⟨-, h⟩
    · rw [isMark, h]
    · rw [isMark, h]
    · exact absurd hp h
  · intro p hp hsink
    refine ⟨?_, hvec p⟩
    rcases hcell p with ⟨-, h⟩ | ⟨h, -⟩ | ⟨-, h⟩
    · exact absurd h hsink
    · rw [isAtom, h]
    · exact absurd hp h
  · intro p hp
    rw [follow_noCells] at hp
    exact absurd hp List.not_mem_nil
  · intro p hp hsink hatom
    rcases hcell p with ⟨-, h⟩ | ⟨h, -⟩ | ⟨h, -⟩
    · exact absurd h hsink
    · rw [isAtom, h] at hatom
      cases hatom
    · rw [isAtom, h] at hatom
      cases hatom
  · rw [Heap.car, noCells_sink]
    exact hnil

end

end Alcor.Proofs.TinyScheme
