import Alcor.Proofs.TinyScheme.Storage

/-!
# `Alcor.Proofs.TinyScheme.Collector`: the collector frees what cannot be reached

`gc` marks from its roots and then builds the free list anew, from the
last cell down to the first. There is one lemma for all calls of `mark`,
one for a cell of the sweep and one for the whole of it.

* `marks_roots`: the marks after the calls of `mark`.
* `sweepCell_spec`, `sweep_spec`: the sweep.
* `gc_sound`: a cell is free exactly when it could not be reached, all
  others are as before, and the free list has the free cells in the
  order of their addresses.
-/

set_option autoImplicit false

namespace Alcor.Proofs.TinyScheme

open Lib.Marking Alcor.TinyScheme Alcor.TinyScheme.Heap Alcor.TinyScheme.Scheme

variable {a b p : Nat}

/-! ### All roots -/

section
variable {sink : Nat} {h : Heap} {U : Finset Nat} {M : Set Nat} {as : List Nat} {passes : Nat}

theorem Storage.remark (hs : Storage sink h U) (M : Set Nat) :
    Storage sink (TinyScheme.remark h M) U :=
  ⟨hs.zero, fun p => (hs.shaped p).remark M, hs.outside, hs.inside, hs.only, hs.element⟩

/-- More marks, all of what can be reached from roots, are settled, too. -/
theorem Settled.union (hs : Storage sink h U) (hM : Settled sink h M)
    (has : ∀ a ∈ as, IsRoot sink h U a) :
    Settled sink h (M ∪ {x | Reaches (follow sink h) as x}) := by
  refine ⟨.inl hM.held, ?_, ?_⟩
  · rintro x (hx | hx) y hy
    · exact .inl (hM.closed x hx y hy)
    · exact .inr (Reaches.tail hx hy)
  · rintro v hv hout s hin (hs' | ⟨a, ha, hpath⟩)
    · exact hM.fresh v hv (fun h => hout (.inl h)) s hin hs'
    · rcases Relation.ReflTransGen.cases_tail hpath with rfl | ⟨y, hpath, hy⟩
      · exact (has s ha).outer v hv hin
      · -- The last link of the path is that of the vector.
        obtain rfl : y = v := hs.only v hv s hin y hy
        exact hout (.inr ⟨a, ha, hpath⟩)

/-- The calls of `mark` for all roots. -/
theorem marks_roots (hs : Storage sink h U) (hM : Settled sink h (marks h))
    (has : ∀ a ∈ as, IsRoot sink h U a) (hp : 4 * U.card + 2 ≤ passes) :
    as.foldlM (fun h p => mark passes h p) h =
      some (remark h (marks h ∪ {x | Reaches (follow sink h) as x})) := by
  induction as generalizing h with
  | nil =>
    have hempty : marks h ∪ {x | Reaches (follow sink h) [] x} = marks h := by
      refine Set.union_eq_self_of_subset_right fun x hx => ?_
      obtain ⟨a, ha, -⟩ := hx
      exact absurd ha List.not_mem_nil
    rw [List.foldlM_nil, hempty, remark_self rfl]
    rfl
  | cons a as ih =>
    have ha := has a List.mem_cons_self
    have hone : ∀ b ∈ [a], IsRoot sink h U b := fun b hb => by
      rw [List.mem_singleton] at hb
      exact hb ▸ ha
    have hrest : ∀ b ∈ as, IsRoot sink h U b := fun b hb => has b (List.mem_cons_of_mem _ hb)
    rw [List.foldlM_cons, mark_eq hs hM ha hp]
    show as.foldlM _ (remark h (marks h ∪ {x | Reaches (follow sink h) [a] x})) = _
    have hM' : Settled sink (remark h (marks h ∪ {x | Reaches (follow sink h) [a] x}))
        (marks (remark h (marks h ∪ {x | Reaches (follow sink h) [a] x}))) := by
      rw [marks_remark]
      have h := hM.union hs hone
      exact ⟨h.held, h.closed, h.fresh⟩
    rw [ih (hs.remark _) hM' fun b hb =>
      ⟨(hrest b hb).mem, (hrest b hb).ne_sink, (hrest b hb).outer⟩, marks_remark, remark_remark]
    refine congrArg (fun M => some (remark h M)) (Set.ext fun x => ?_)
    show (_ ∨ _) ∨ Reaches (follow sink h) as x ↔ _ ∨ Reaches (follow sink h) (a :: as) x
    constructor
    · rintro ((hx | hx) | hx)
      · exact .inl hx
      · exact .inr (hx.mono (List.cons_subset_cons _ (List.nil_subset _)))
      · exact .inr (hx.mono (List.subset_cons_self _ _))
    · rintro (hx | ⟨b, hb, hpath⟩)
      · exact .inl (.inl hx)
      · rcases List.mem_cons.mp hb with rfl | hb
        · exact .inl (.inr ⟨b, List.mem_singleton_self b, hpath⟩)
        · exact .inr ⟨b, hb, hpath⟩

end

/-! ### The sweep -/

/-- What the sweep makes of a cell without a mark. -/
def reclaimed (nil : Nat) (c : Cell) (next : Nat) : Cell :=
  if c.flagZero then c.setCdr next else blankCell nil next

/-- What is given back to `malloc` along with a cell. -/
def payload (c : Cell) : List Object :=
  match c.type with
  | .tString | .tPort => [c.object]
  | _                 => []

/-- The cells `l` were swept. `free` is the free list then. -/
structure Swept (conf : Conf) (l : List Nat) (s s' : Scheme) (free : List Nat) : Prop where
  registers : s'.registers = s.registers
  cellSeg : s'.cellSeg = s.cellSeg
  noMemory : s'.noMemory = s.noMemory
  mallocs : s'.mallocs = s.mallocs
  chain : FreeFrom conf.nil s'.heap s'.freeCell free
  fcells : s'.fcells = free.length
  outside : ∀ p, p ∉ l → s'.heap p = s.heap p
  kept : ∀ p ∈ l, isMark s.heap p = true → s'.heap p = (s.heap p).setMark false
  reclaimed : ∀ p ∈ l, isMark s.heap p = false →
    s'.heap p = reclaimed conf.nil (s.heap p) (cdr s'.heap p)
  released : s'.released =
    s.released ++ (l.filter fun p => !isMark s.heap p).flatMap fun p => payload (s.heap p)

theorem sweepCell_marked (conf : Conf) {s : Scheme} (hp : isMark s.heap p = true) :
    sweepCell conf s p = { s with heap := clrmark s.heap p } := by
  rw [sweepCell, if_pos hp]

theorem cdr_reclaimed (nil next : Nat) (c : Cell) : (reclaimed nil c next).cdr = next := by
  unfold reclaimed
  split <;> rfl

theorem finalizeCell_eq (s : Scheme) (p : Nat) :
    finalizeCell s p = { s with released := s.released ++ payload (s.heap p) } := by
  cases htype : (s.heap p).type <;> simp [finalizeCell, payload, htype]

theorem payload_flagZero {c : Cell} (hc : c.flagZero = true) : payload c = [] := by
  have htype : c.type = .tNone := by
    simp only [Cell.flagZero, Bool.and_eq_true, decide_eq_true_eq] at hc
    exact hc.1.1.1.1
  rw [payload, htype]

theorem sweepCell_unmarked (conf : Conf) {s : Scheme} (hp : isMark s.heap p = false) :
    sweepCell conf s p = { s with
      heap := Function.update s.heap p (reclaimed conf.nil (s.heap p) s.freeCell)
      fcells := s.fcells + 1
      freeCell := p
      released := s.released ++ payload (s.heap p) } := by
  have hne : ¬ isMark s.heap p = true := by simp [hp]
  rw [sweepCell, if_neg hne]
  by_cases hzero : (s.heap p).flagZero = true
  · rw [reclaimed, if_pos hzero, if_pos hzero, payload_flagZero hzero, List.append_nil]
    rfl
  · rw [reclaimed, if_neg hzero, if_neg hzero]
    simp only [finalizeCell_eq, setCdr, Function.update_self, Function.update_idem]
    rfl

/-- One cell of the sweep. -/
theorem sweepCell_spec (conf : Conf) {s : Scheme} {free : List Nat}
    (hchain : FreeFrom conf.nil s.heap s.freeCell free) (hcount : s.fcells = free.length)
    (hp : p ∉ free) (hnil : p ≠ conf.nil) :
    Swept conf [p] s (sweepCell conf s p)
      (if isMark s.heap p = true then free else p :: free) := by
  have hsame : ∀ q, q ∉ [p] → ∀ c, Function.update s.heap p c q = s.heap q := by
    intro q hq c
    exact Function.update_of_ne (fun heq => hq (List.mem_singleton.mpr heq)) _ _
  by_cases hmark : isMark s.heap p = true
  · rw [sweepCell_marked conf hmark, if_pos hmark]
    refine ⟨rfl, rfl, rfl, rfl, ?_, hcount, fun q hq => hsame q hq _, ?_, ?_, ?_⟩
    · refine hchain.congr fun x hx => ?_
      show (Function.update s.heap p _ x).cdr = _
      rw [Function.update_of_ne fun heq : x = p => hp (heq ▸ hx)]
      rfl
    · intro q hq _
      obtain rfl := List.mem_singleton.mp hq
      exact Function.update_self _ _ _
    · intro q hq hq'
      obtain rfl := List.mem_singleton.mp hq
      rw [hmark] at hq'
      cases hq'
    · rw [List.filter_cons_of_neg (by simp [hmark])]
      exact (List.append_nil _).symm
  · have hmark' : isMark s.heap p = false := Bool.eq_false_of_not_eq_true hmark
    rw [sweepCell_unmarked conf hmark', if_neg hmark]
    have hself : Function.update s.heap p (reclaimed conf.nil (s.heap p) s.freeCell) p =
        reclaimed conf.nil (s.heap p) s.freeCell := Function.update_self _ _ _
    refine ⟨rfl, rfl, rfl, rfl, ⟨rfl, hnil, ?_⟩, ?_, fun q hq => hsame q hq _, ?_, ?_, ?_⟩
    · show FreeFrom _ _ (Cell.cdr (Function.update s.heap p _ p)) free
      rw [hself, cdr_reclaimed]
      refine hchain.congr fun x hx => ?_
      show (Function.update s.heap p _ x).cdr = _
      rw [Function.update_of_ne fun heq : x = p => hp (heq ▸ hx)]
      rfl
    · rw [hcount, List.length_cons]
      rfl
    · intro q hq hq'
      obtain rfl := List.mem_singleton.mp hq
      exact absurd hq' hmark
    · intro q hq _
      obtain rfl := List.mem_singleton.mp hq
      show Function.update s.heap q _ q = reclaimed _ _ (Cell.cdr (Function.update s.heap q _ q))
      rw [hself, cdr_reclaimed]
    · rw [List.filter_cons_of_pos (by simpa using hmark)]
      exact congrArg (s.released ++ ·) (List.append_nil _).symm

/-- The sweep of cells that are not free yet. -/
theorem sweep_spec (conf : Conf) {l : List Nat} {s : Scheme} {free : List Nat}
    (hnodup : l.Nodup) (hchain : FreeFrom conf.nil s.heap s.freeCell free)
    (hcount : s.fcells = free.length) (hfree : ∀ p ∈ l, p ∉ free) (hnil : conf.nil ∉ l) :
    Swept conf l s (l.foldl (sweepCell conf) s)
      ((l.filter fun p => !isMark s.heap p).reverse ++ free) := by
  induction l generalizing s free with
  | nil =>
    exact ⟨rfl, rfl, rfl, rfl, hchain, hcount, fun _ _ => rfl,
      fun p hp => absurd hp List.not_mem_nil, fun p hp => absurd hp List.not_mem_nil,
      (List.append_nil _).symm⟩
  | cons p l ih =>
    obtain ⟨hpl, hnodup⟩ := List.nodup_cons.mp hnodup
    have hone := sweepCell_spec conf hchain hcount (hfree p List.mem_cons_self)
      fun h => hnil (h ▸ List.mem_cons_self)
    have hout : ∀ q ∈ l, (sweepCell conf s p).heap q = s.heap q := fun q hq =>
      hone.outside q fun h => hpl (List.mem_singleton.mp h ▸ hq)
    have hfilter : (l.filter fun q => !isMark (sweepCell conf s p).heap q) =
        l.filter fun q => !isMark s.heap q :=
      List.filter_congr fun q hq => by rw [isMark, isMark, hout q hq]
    have hrest := ih hnodup hone.chain hone.fcells
      (fun q hq => by
        have hq' := hfree q (List.mem_cons_of_mem _ hq)
        split
        · exact hq'
        · rw [List.mem_cons, not_or]
          exact ⟨fun h => hpl (h ▸ hq), hq'⟩)
      (fun h => hnil (List.mem_cons_of_mem _ h))
    rw [hfilter] at hrest
    have hlist : ((p :: l).filter fun q => !isMark s.heap q).reverse ++ free =
        (l.filter fun q => !isMark s.heap q).reverse ++
          (if isMark s.heap p = true then free else p :: free) := by
      by_cases hmark : isMark s.heap p = true
      · rw [List.filter_cons_of_neg (by simp [hmark]), if_pos hmark]
      · rw [List.filter_cons_of_pos (by simpa using hmark), if_neg hmark, List.reverse_cons,
          List.append_assoc]
        rfl
    rw [hlist, List.foldl_cons]
    refine ⟨hrest.registers.trans hone.registers, hrest.cellSeg.trans hone.cellSeg,
      hrest.noMemory.trans hone.noMemory, hrest.mallocs.trans hone.mallocs, hrest.chain,
      hrest.fcells, ?_, ?_, ?_, ?_⟩
    · intro q hq
      rw [List.mem_cons, not_or] at hq
      rw [hrest.outside q hq.2, hone.outside q fun h => hq.1 (List.mem_singleton.mp h)]
    · intro q hq hmark
      rcases List.mem_cons.mp hq with rfl | hq
      · rw [hrest.outside q hpl, hone.kept q (List.mem_singleton_self q) hmark]
      · rw [hrest.kept q hq (by rw [isMark, hout q hq]; exact hmark), hout q hq]
    · intro q hq hmark
      rcases List.mem_cons.mp hq with rfl | hq
      · rw [Heap.cdr, hrest.outside q hpl]
        exact hone.reclaimed q (List.mem_singleton_self q) hmark
      · have h := hrest.reclaimed q hq (by rw [isMark, hout q hq]; exact hmark)
        rwa [hout q hq] at h
    · have hpay : (l.filter fun q => !isMark s.heap q).flatMap
          (fun q => payload ((sweepCell conf s p).heap q)) =
          (l.filter fun q => !isMark s.heap q).flatMap fun q => payload (s.heap q) := by
        refine List.flatMap_congr fun q hq => ?_
        rw [hout q (List.mem_of_mem_filter hq)]
      rw [hrest.released, hone.released, hfilter, hpay, List.append_assoc, ← List.flatMap_append,
        ← List.filter_append]
      rfl

/-! ### The collector -/

section
variable {conf : Conf} {s s' : Scheme} {free : List Nat} {as : List Nat} {x : Nat}

/-- A cell of a segment that cannot be reached from `as`. -/
def Lost (conf : Conf) (s : Scheme) (as : List Nat) (x : Nat) : Prop :=
  x ∈ segmentCells conf s ∧ ¬ Reaches (follow conf.sink s.heap) as x

open Classical in
/-- The cells that cannot be reached from `as`, from the last one down to the first. -/
noncomputable def lostCells (conf : Conf) (s : Scheme) (as : List Nat) : List Nat :=
  (segmentCells conf s).filter fun x => decide (¬ Reaches (follow conf.sink s.heap) as x)

/-- The cells that cannot be reached from `as` were freed, and nothing else was done. -/
structure Collected (conf : Conf) (s : Scheme) (as : List Nat) (s' : Scheme) : Prop where
  registers : s'.registers = s.registers
  cellSeg : s'.cellSeg = s.cellSeg
  noMemory : s'.noMemory = s.noMemory
  mallocs : s'.mallocs = s.mallocs
  kept : ∀ x, ¬ Lost conf s as x → x ≠ conf.nil → s'.heap x = s.heap x
  nil : s'.heap conf.nil = (s.heap conf.nil).setMark false
  reclaimed : ∀ x, Lost conf s as x → ∃ next, s'.heap x = blankCell conf.nil next
  chain : FreeFrom conf.nil s'.heap s'.freeCell (lostCells conf s as).reverse
  fcells : s'.fcells = (lostCells conf s as).length
  released : s'.released =
    s.released ++ (lostCells conf s as).flatMap fun p => payload (s.heap p)

theorem mem_lostCells : x ∈ lostCells conf s as ↔ Lost conf s as x := by
  simp only [lostCells, List.mem_filter, decide_eq_true_eq]
  exact Iff.rfl

/-- The storage after the marking: `gc` has cleared the mark of `nil`, and its free list is empty. -/
noncomputable def cleared (conf : Conf) (s : Scheme) (as : List Nat) : Scheme :=
  { s with
    heap := clrmark
      (remark s.heap (marks s.heap ∪ {x | Reaches (follow conf.sink s.heap) as x})) conf.nil
    fcells := 0
    freeCell := conf.nil }

theorem cleared_of_ne (hx : x ≠ conf.nil) : (cleared conf s as).heap x =
    remark s.heap (marks s.heap ∪ {x | Reaches (follow conf.sink s.heap) as x}) x :=
  Function.update_of_ne hx _ _

theorem cleared_nil : (cleared conf s as).heap conf.nil = (s.heap conf.nil).setMark false := by
  show Function.update _ conf.nil _ conf.nil = _
  rw [Function.update_self]
  rfl

/-- Of the cells in a segment, those have a mark that were reached. -/
theorem isMark_cleared (hs : Sound conf s free ∅) (hx : x ∈ segmentCells conf s) :
    isMark (cleared conf s as).heap x = true ↔ Reaches (follow conf.sink s.heap) as x := by
  rw [isMark, cleared_of_ne (hs.layout.ne_nil hx)]
  show x ∈ marks (remark s.heap _) ↔ _
  rw [marks_remark]
  constructor
  · rintro (h | h)
    · exact absurd (hs.marked x h) (hs.layout.not_special hx)
    · exact h
  · exact .inr

/-- A cell that was not reached is as before. -/
theorem cleared_unreached (hx : ¬ Reaches (follow conf.sink s.heap) as x) (hnil : x ≠ conf.nil) :
    (cleared conf s as).heap x = s.heap x := by
  rw [cleared_of_ne hnil]
  exact remark_cell ⟨fun h => h.resolve_right hx, .inl⟩

/-- What the sweep leaves, in terms of the storage before the collection. -/
theorem Swept.collected (hs : Sound conf s free ∅) (has : ∀ a ∈ as, Root conf s a)
    (hw : Swept conf (segmentCells conf s) (cleared conf s as) s' (lostCells conf s as).reverse)
    (hfilter : (segmentCells conf s).filter (fun p => !isMark (cleared conf s as).heap p) =
      lostCells conf s as) : Collected conf s as s' := by
  have hmark : ∀ x ∈ segmentCells conf s, ¬ Reaches (follow conf.sink s.heap) as x →
      isMark (cleared conf s as).heap x = false := fun x hx hr =>
    Bool.eq_false_of_not_eq_true fun h => hr ((isMark_cleared hs hx).mp h)
  refine ⟨hw.registers, hw.cellSeg, hw.noMemory, hw.mallocs, ?_, ?_, ?_, hw.chain,
    by rw [hw.fcells, List.length_reverse], ?_⟩
  · intro x hlost hnil
    by_cases hx : x ∈ segmentCells conf s
    · -- It has its mark, and loses it.
      have hr : Reaches (follow conf.sink s.heap) as x := by
        by_contra hr
        exact hlost ⟨hx, hr⟩
      have hone : (s.heap x).marked = false :=
        Bool.eq_false_of_not_eq_true fun h => hs.layout.not_special hx (hs.marked x h)
      rw [hw.kept x hx ((isMark_cleared hs hx).mpr hr), cleared_of_ne hnil]
      ext <;> simp [remark, hone]
    · rw [hw.outside x hx, cleared_of_ne hnil]
      refine remark_cell ?_
      constructor
      · rintro (h | h)
        · exact h
        · rcases mem_cells.mp (hs.reached has h).1 with hp | hp
          · exact hs.held x hp hnil
          · exact absurd hp hx
      · exact .inl
  · rw [hw.outside _ fun h => hs.layout.ne_nil h rfl, cleared_nil]
  · rintro x ⟨hx, hr⟩
    refine ⟨cdr s'.heap x, ?_⟩
    have hcell := hw.reclaimed x hx (hmark x hx hr)
    rw [cleared_unreached hr (hs.layout.ne_nil hx)] at hcell
    refine hcell.trans ?_
    unfold Proofs.TinyScheme.reclaimed
    by_cases hzero : (s.heap x).flagZero = true
    · obtain ⟨next, hnext⟩ := hs.blank x hx hzero
      rw [if_pos hzero, hnext]
      rfl
    · rw [if_neg hzero]
  · rw [hw.released, hfilter]
    refine congrArg (s.released ++ ·) (List.flatMap_congr fun x hx => ?_)
    obtain ⟨hx, hr⟩ := mem_lostCells.mp hx
    rw [cleared_unreached hr (hs.layout.ne_nil hx)]

theorem roots_root (hs : Sound conf s free ∅) (ha : Root conf s a) (hb : Root conf s b) :
    ∀ p ∈ roots conf s a b, Root conf s p := by
  intro p hp
  simp only [roots, List.mem_cons, List.not_mem_nil, or_false] at hp
  rcases hp with rfl | rfl | rfl | rfl | rfl | rfl | rfl | rfl | rfl | rfl | rfl | rfl | rfl | rfl | rfl
  all_goals first | exact hs.registers _ | exact hs.recent | exact ha | exact hb

/-- `gc` comes to an end, and frees what cannot be reached. -/
theorem gc_collected (hs : Sound conf s free ∅) (ha : Root conf s a) (hb : Root conf s b) :
    ∃ s', gc conf s a b = some s' ∧ Collected conf s (roots conf s a b) s' := by
  have hroots := roots_root hs ha hb
  have hmarks := marks_roots hs.storage hs.settled
    (fun p hp => (hroots p hp).toIsRoot) (show _ ≤ passes conf s by
      have := card_cells_le conf s
      unfold passes
      omega)
  have hfilter : (segmentCells conf s).filter
      (fun p => !isMark (cleared conf s (roots conf s a b)).heap p) =
        lostCells conf s (roots conf s a b) := by
    refine List.filter_congr fun x hx => ?_
    rw [Bool.eq_iff_iff, Bool.not_eq_true', ← Bool.not_eq_true, isMark_cleared hs hx]
    simp only [decide_eq_true_eq]
  have hnodup : (segmentCells conf s).Nodup :=
    hs.layout.cells_descending.imp fun h => Nat.ne_of_gt h
  have hsweep := sweep_spec conf hnodup
    (show FreeFrom conf.nil (cleared conf s (roots conf s a b)).heap _ [] from rfl) rfl
    (fun _ _ => List.not_mem_nil) fun h => hs.layout.ne_nil h rfl
  rw [List.append_nil, hfilter] at hsweep
  refine ⟨_, ?_, hsweep.collected hs hroots hfilter⟩
  rw [gc, hmarks, Option.map_some, segmentCells, List.foldl_flatMap]
  rfl

theorem Collected.segmentCells (hc : Collected conf s as s') :
    segmentCells conf s' = TinyScheme.segmentCells conf s := by
  unfold TinyScheme.segmentCells
  rw [hc.cellSeg]

theorem Collected.layout (hl : Layout conf s) (hc : Collected conf s as s') : Layout conf s' := by
  have hblocks : blocks s' = blocks s := by rw [blocks, blocks, hc.cellSeg, hc.mallocs]
  refine ⟨hl.size, hl.distinct, hl.zero, ?_, ?_, ?_, ?_⟩
  · rw [hblocks]
    exact hl.positive
  · rw [hblocks]
    exact hl.outside
  · rw [hblocks]
    exact hl.apart
  · rw [hc.cellSeg]
    exact hl.descending

/-- A collection links the lost cells anew. -/
theorem Collected.relinked (hs : Sound conf s free ∅) (ha : Root conf s a) (hb : Root conf s b)
    (hc : Collected conf s (roots conf s a b) s') :
    Relinked conf s s' {x | Lost conf s (roots conf s a b) x} := by
  have hroots := roots_root hs ha hb
  refine ⟨hc.layout hs.layout, hc.registers, ?_, ?_, ?_, hc.kept, ?_, ?_, ?_, ?_, ?_, ?_⟩
  · rw [hc.segmentCells]
    exact fun _ => id
  · rw [hc.segmentCells]
    exact fun _ hx hx' => absurd hx hx'
  · rw [hc.segmentCells]
    exact fun _ hx => hx.1
  · exact ⟨false, fun h => absurd h Bool.false_ne_true, hc.nil⟩
  · intro x hx
    obtain ⟨next, hcell⟩ := hc.reclaimed x hx
    have hnext := hc.chain.next (List.mem_reverse.mpr (mem_lostCells.mpr hx))
    rw [Heap.cdr, hcell, List.mem_reverse, mem_lostCells] at hnext
    exact ⟨next, hcell, hnext⟩
  · intro x hx hzero
    refine ⟨hx, fun hr => ?_⟩
    rw [(hs.reached hroots hr).2] at hzero
    cases hzero
  · rintro p hp q hq ⟨-, hlost⟩
    -- A cell that leads somewhere is in a segment, so it was reached.
    rcases mem_cells.mp (by_contra fun hout => by
      rw [hs.storage.outside p hout] at hq
      exact absurd hq List.not_mem_nil) with h | h
    · rw [hs.children_special h] at hq
      exact absurd hq List.not_mem_nil
    · have hr : Reaches (follow conf.sink s.heap) (roots conf s a b) p := by
        by_contra hr
        exact hp ⟨h, hr⟩
      exact hlost (hr.tail hq)
  · intro r h
    exact h.2 (.of_mem (by cases r <;> simp [roots]))
  · intro h
    exact h.2 (.of_mem (by simp [roots]))

/-- `gc` comes to an end and leaves the storage in order. The free cells are those that could not be
reached, in the order of their addresses; all others are as before. -/
theorem gc_sound (hs : Sound conf s free ∅) (ha : Root conf s a) (hb : Root conf s b) :
    ∃ s', gc conf s a b = some s' ∧ Collected conf s (roots conf s a b) s' ∧
      Sound conf s' (lostCells conf s (roots conf s a b)).reverse ∅ := by
  obtain ⟨s', hgc, hc⟩ := gc_collected hs ha hb
  refine ⟨s', hgc, hc, (hc.relinked hs ha hb).sound hs ?_ (fun _ _ => id) hc.chain ?_ ?_⟩
  · intro x
    rw [List.mem_reverse, mem_lostCells]
    exact ⟨.inl, fun h => h.resolve_right id⟩
  · rw [List.pairwise_reverse]
    exact hs.layout.cells_descending.filter _
  · rw [hc.fcells, List.length_reverse]

end

end Alcor.Proofs.TinyScheme
