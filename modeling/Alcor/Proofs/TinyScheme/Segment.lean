import Alcor.Proofs.TinyScheme.Storage

/-!
# `Alcor.Proofs.TinyScheme.Segment`: the cells of a new segment

`alloc_cellseg` puts the cells of a new segment into the free list, in
front of all free cells or behind the last one before it. The free list
stays in the order of the addresses either way.

* `findPlace_spec`: the place of the segment in the free list.
* `addSegment_front`, `addSegment_behind`: the two cases.
* `addSegment_sound`: the storage stays in order, with a free cell.
-/

set_option autoImplicit false

namespace Alcor.Proofs.TinyScheme

open Lib.Marking Alcor.TinyScheme Alcor.TinyScheme.Heap Alcor.TinyScheme.Scheme

variable {x q : Nat}

section
variable {conf : Conf} {s : Scheme} {free : List Nat} {p : Nat}

theorem insertSegment_perm (p : Nat) (l : List Nat) : (insertSegment p l).Perm (p :: l) := by
  induction l with
  | nil => exact .refl _
  | cons q qs ih =>
    unfold insertSegment
    split
    · exact (ih.cons q).trans (.swap p q qs)
    · exact .refl _

/-- The segments stay in the order of their addresses. -/
theorem insertSegment_descending {l : List Nat} (hl : l.Pairwise (· > ·)) (hp : p ∉ l) :
    (insertSegment p l).Pairwise (· > ·) := by
  induction l with
  | nil => exact List.pairwise_singleton _ _
  | cons q qs ih =>
    obtain ⟨hq, hqs⟩ := List.pairwise_cons.mp hl
    rw [List.mem_cons, not_or] at hp
    unfold insertSegment
    split
    · refine List.pairwise_cons.mpr ⟨fun r hr => ?_, ih hqs hp.2⟩
      rcases List.mem_cons.mp ((insertSegment_perm p qs).subset hr) with rfl | hr
      · assumption
      · exact hq r hr
    · have hlt : p > q := by omega
      refine List.pairwise_cons.mpr ⟨fun r hr => ?_, hl⟩
      rcases List.mem_cons.mp hr with rfl | hr
      · exact hlt
      · exact Nat.lt_trans (hq r hr) hlt

/-- Cells that are linked one to the next. -/
theorem leads_range {nil : Nat} {h : Heap} {n : Nat} (hn : 0 < n)
    (hcdr : ∀ i, i + 1 < n → cdr h (p + i) = p + i + 1) (hlast : cdr h (p + n - 1) = q)
    (hne : ∀ i < n, p + i ≠ nil) : Leads nil h p (List.range' p n) q := by
  induction n generalizing p with
  | zero => exact absurd hn (Nat.lt_irrefl 0)
  | succ n ih =>
    rw [List.range'_succ]
    refine ⟨rfl, hne 0 (by omega), ?_⟩
    by_cases h0 : n = 0
    · subst h0
      exact hlast
    · rw [show cdr h p = p + 1 from hcdr 0 (by omega)]
      refine ih (by omega) (fun i hi => ?_) ?_ fun i hi => ?_
      · have := hcdr (i + 1) (by omega)
        rwa [show p + (i + 1) = p + 1 + i by omega] at this
      · rwa [show p + (n + 1) - 1 = p + 1 + n - 1 by omega] at hlast
      · have := hne (i + 1) (by omega)
        rwa [show p + (i + 1) = p + 1 + i by omega] at this

/-- The place of a new segment in the free list. -/
theorem findPlace_spec {h : Heap} {newp passes : Nat} {l : List Nat}
    (hl : FreeFrom conf.nil h q (q :: l)) (hasc : (q :: l).Pairwise (· < ·)) (hq : q < newp)
    (hp : l.length ≤ passes) :
    ∃ l₁ l₂, q :: l = l₁ ++ findPlace conf h newp passes q :: l₂ ∧
      (∀ y ∈ l₁ ++ [findPlace conf h newp passes q], y < newp) ∧ ∀ y ∈ l₂, newp ≤ y := by
  induction passes generalizing q l with
  | zero =>
    obtain rfl : l = [] := List.eq_nil_of_length_eq_zero (by omega)
    refine ⟨[], [], rfl, fun y hy => ?_, fun y hy => absurd hy List.not_mem_nil⟩
    rw [List.mem_singleton.mp hy]
    exact hq
  | succ passes ih =>
    cases l with
    | nil =>
      have hstay : findPlace conf h newp (passes + 1) q = q := by
        rw [findPlace, if_neg fun hgo => hgo.1 hl.2.2]
      rw [hstay]
      refine ⟨[], [], rfl, fun y hy => ?_, fun y hy => absurd hy List.not_mem_nil⟩
      rw [List.mem_singleton.mp hy]
      exact hq
    | cons y ys =>
      obtain ⟨-, -, hcdr, hy, hrest⟩ := hl
      obtain ⟨hqy, hys⟩ := List.pairwise_cons.mp hasc
      by_cases hlt : newp > y
      · have hgo : findPlace conf h newp (passes + 1) q = findPlace conf h newp passes y := by
          rw [findPlace, hcdr, if_pos ⟨hy, hlt⟩]
        obtain ⟨l₁, l₂, hl, hl₁, hl₂⟩ := ih (q := y) (l := ys) ⟨rfl, hy, hrest⟩ hys hlt
          (Nat.le_of_succ_le_succ hp)
        rw [hgo]
        refine ⟨q :: l₁, l₂, by rw [hl, List.cons_append], fun z hz => ?_, hl₂⟩
        rcases List.mem_cons.mp hz with rfl | hz
        · exact hq
        · exact hl₁ z hz
      · have hstay : findPlace conf h newp (passes + 1) q = q := by
          rw [findPlace, hcdr, if_neg fun hgo => hlt hgo.2]
        rw [hstay]
        refine ⟨[], y :: ys, rfl, fun z hz => ?_, fun z hz => ?_⟩
        · rw [List.mem_singleton.mp hz]
          exact hq
        · rcases List.mem_cons.mp hz with rfl | hz
          · omega
          · have := (List.pairwise_cons.mp hys).1 z hz
            omega

theorem freshCells_new {h : Heap} (hx : p ≤ x ∧ x < p + conf.segSize) :
    freshCells conf h p x = blankCell conf.nil (x + 1) := if_pos hx

theorem freshCells_old {h : Heap} (hx : ¬(p ≤ x ∧ x < p + conf.segSize)) :
    freshCells conf h p x = h x := if_neg hx

/-- The storage with one more segment `p`, whose cells and the free ones are linked in `h`. -/
def withSegment (s : Scheme) (rest : List (Option Nat)) (p : Nat) (fcells : Int) (h : Heap)
    (freeCell : Nat) : Scheme :=
  { s with mallocs := rest, cellSeg := insertSegment p s.cellSeg, fcells, heap := h, freeCell }

/-- The free cells with those of the segment `p`. -/
def grown (conf : Conf) (free : List Nat) (p : Nat) : Set Nat :=
  {x | x ∈ free ∨ p ≤ x ∧ x < p + conf.segSize}

section
variable {rest : List (Option Nat)} {fcells : Int} {h : Heap} {freeCell : Nat}

theorem mem_withSegment :
    x ∈ segmentCells conf (withSegment s rest p fcells h freeCell) ↔
      x ∈ segmentCells conf s ∨ p ≤ x ∧ x < p + conf.segSize := by
  rw [mem_segmentCells, mem_segmentCells]
  constructor
  · rintro ⟨seg, hseg, hx⟩
    rcases List.mem_cons.mp ((insertSegment_perm p s.cellSeg).subset hseg) with rfl | hseg
    · exact .inr hx
    · exact .inl ⟨seg, hseg, hx⟩
  · rintro (⟨seg, hseg, hx⟩ | hx)
    · exact ⟨seg, (insertSegment_perm p s.cellSeg).symm.subset (List.mem_cons_of_mem _ hseg), hx⟩
    · exact ⟨p, (insertSegment_perm p s.cellSeg).symm.subset List.mem_cons_self, hx⟩

/-- With the new segment the cells are where they should be. -/
theorem Layout.withSegment (hl : Layout conf s) (hm : s.mallocs = some p :: rest) :
    Layout conf (withSegment s rest p fcells h freeCell) := by
  have hperm : (blocks (TinyScheme.withSegment s rest p fcells h freeCell)).Perm (blocks s) := by
    show (insertSegment p s.cellSeg ++ rest.reduceOption).Perm (s.cellSeg ++ s.mallocs.reduceOption)
    rw [hm, List.reduceOption_cons_of_some]
    exact ((insertSegment_perm p s.cellSeg).append_right _).trans List.perm_middle.symm
  have happ : p ∉ s.cellSeg := by
    intro hp
    have happart := hl.apart
    rw [blocks, hm, List.reduceOption_cons_of_some] at happart
    rcases (List.pairwise_append.mp happart).2.2 p hp p List.mem_cons_self with h | h
    · omega
    · omega
  refine ⟨hl.size, hl.distinct, hl.zero, fun b hb => hl.positive b (hperm.subset hb),
    fun b hb => hl.outside b (hperm.subset hb), ?_, insertSegment_descending hl.descending happ⟩
  exact (hperm.pairwise_iff fun h => h.symm).mpr hl.apart

/-- The new cells are apart from all that there are. -/
theorem Layout.apart_new (hl : Layout conf s) (hm : s.mallocs = some p :: rest)
    (hx : x ∈ cells conf s) : x < p ∨ p + conf.segSize < x := by
  have hp : p ∈ blocks s := by
    rw [blocks, hm, List.reduceOption_cons_of_some]
    exact List.mem_append_right _ List.mem_cons_self
  rcases mem_cells.mp hx with h | h
  · exact hl.outside p hp x h
  · obtain ⟨seg, hseg, h₁, h₂⟩ := mem_segmentCells.mp h
    have happart := hl.apart
    rw [blocks, hm, List.reduceOption_cons_of_some] at happart
    rcases (List.pairwise_append.mp happart).2.2 seg hseg p List.mem_cons_self with h | h
    · omega
    · omega

/-- A cell there is, and that is not free, is not among the free ones of the new segment. -/
theorem not_grown (hl : Layout conf s) (hm : s.mallocs = some p :: rest) (hx : x ∈ cells conf s)
    (hfree : x ∉ free) : x ∉ grown conf free p := by
  rintro (h | ⟨h₁, h₂⟩)
  · exact hfree h
  · rcases hl.apart_new hm hx with h | h
    · omega
    · omega

/-- A new segment links free cells anew. -/
theorem withSegment_relinked (hs : Sound conf s free ∅) (hm : s.mallocs = some p :: rest)
    (hout : ∀ x, x ∉ grown conf free p → h x = s.heap x)
    (hin : ∀ x ∈ grown conf free p, ∃ next, h x = blankCell conf.nil next ∧
      (next = conf.nil ∨ next ∈ grown conf free p)) :
    Relinked conf s (withSegment s rest p fcells h freeCell) (grown conf free p) := by
  have hroot : ∀ a, Root conf s a → a ∉ grown conf free p :=
    fun a ha => not_grown hs.layout hm ha.mem (ha.not_free hs)
  refine ⟨hs.layout.withSegment hm, rfl, fun x hx => mem_withSegment.mpr (.inl hx), ?_, ?_,
    fun x hx _ => hout x hx, ?_, hin, ?_, ?_, fun r => hroot _ (hs.registers r), hroot _ hs.recent⟩
  · intro x hx hold
    exact .inr ((mem_withSegment.mp hx).resolve_left hold)
  · rintro x (hx | hx)
    · exact mem_withSegment.mpr (.inl (hs.inside x hx))
    · exact mem_withSegment.mpr (.inr hx)
  · refine ⟨(s.heap conf.nil).marked, id, hout _ (not_grown hs.layout hm ?_ fun h => ?_)⟩
    · exact mem_cells.mpr (.inl (mem_specials_nil conf))
    · exact hs.layout.ne_nil (hs.inside _ h) rfl
  · intro x hx hzero
    exact .inl (((hs.zero x hx).mp hzero).resolve_right id)
  · intro x hx q hq
    exact not_grown hs.layout hm (hs.storage.inside x q hq) (hs.unlinked (fun h => hx (.inl h)) hq)

/-- The new cells in their place between the free ones. -/
theorem withSegment_sound (hs : Sound conf s free ∅)
    (hrel : Relinked conf s (withSegment s rest p (s.fcells + conf.segSize) h freeCell)
      (grown conf free p)) {l₁ l₂ : List Nat} (hfree : free = l₁ ++ l₂)
    (hl₁ : ∀ y ∈ l₁, y < p) (hl₂ : ∀ y ∈ l₂, p + conf.segSize ≤ y)
    (hchain : FreeFrom conf.nil h freeCell (l₁ ++ (List.range' p conf.segSize ++ l₂))) :
    Sound conf (withSegment s rest p (s.fcells + conf.segSize) h freeCell)
      (l₁ ++ (List.range' p conf.segSize ++ l₂)) ∅ := by
  subst hfree
  have hasc := List.pairwise_append.mp hs.ascending
  refine hrel.sound hs ?_ (fun _ _ => id) hchain ?_ ?_
  · intro x
    show _ ∨ _ ↔ _
    simp only [List.mem_append, List.mem_range'_1, Set.mem_empty_iff_false, or_false]
    tauto
  · refine List.pairwise_append.mpr ⟨hasc.1, List.pairwise_append.mpr
      ⟨List.pairwise_lt_range', hasc.2.1, fun x hx y hy => ?_⟩, fun x hx y hy => ?_⟩
    · have := List.mem_range'_1.mp hx
      have := hl₂ y hy
      omega
    · rcases List.mem_append.mp hy with hy | hy
      · have := List.mem_range'_1.mp hy
        have := hl₁ x hx
        omega
      · exact hasc.2.2 x hx y hy
  · show s.fcells + conf.segSize = _
    rw [hs.fcells, List.length_append, List.length_append, List.length_append, List.length_range']
    push_cast
    omega

/-- The heap when the last one of the new cells was linked to `q`. -/
theorem setCdr_freshCells (hsize : 0 < conf.segSize) (h : Heap) (q x : Nat) :
    setCdr (freshCells conf h p) (p + conf.segSize - 1) q x =
      if x = p + conf.segSize - 1 then blankCell conf.nil q
      else if p ≤ x ∧ x < p + conf.segSize then blankCell conf.nil (x + 1) else h x := by
  by_cases hx : x = p + conf.segSize - 1
  · subst hx
    rw [if_pos rfl, setCdr, Function.update_self, freshCells_new ⟨by omega, by omega⟩]
    rfl
  · rw [if_neg hx, setCdr, Function.update_of_ne hx]
    rfl

/-- The new cells are linked one to the next, up to `q`. -/
theorem leads_new (hsize : 0 < conf.segSize) {h h' : Heap}
    (hnil : ∀ i < conf.segSize, p + i ≠ conf.nil) (heq : ∀ i < conf.segSize,
      h' (p + i) = setCdr (freshCells conf h p) (p + conf.segSize - 1) q (p + i)) :
    Leads conf.nil h' p (List.range' p conf.segSize) q := by
  refine leads_range hsize (fun i hi => ?_) ?_ hnil
  · rw [Heap.cdr, heq i (by omega), setCdr_freshCells hsize, if_neg (by omega),
      if_pos ⟨by omega, by omega⟩]
    rfl
  · have := heq (conf.segSize - 1) (by omega)
    rw [show p + (conf.segSize - 1) = p + conf.segSize - 1 by omega] at this
    rw [Heap.cdr, this, setCdr_freshCells hsize, if_pos rfl]
    rfl

end

/-- A free cell, and where it leads. -/
theorem Sound.free_cell {out : Set Nat} (hs : Sound conf s free out) (hx : x ∈ free) :
    s.heap x = blankCell conf.nil (cdr s.heap x) ∧
      (cdr s.heap x = conf.nil ∨ cdr s.heap x ∈ free) := by
  obtain ⟨next, hnext⟩ := hs.blank x (hs.inside x hx) ((hs.zero x (hs.inside x hx)).mpr (.inl hx))
  refine ⟨?_, hs.chain.next hx⟩
  rw [Heap.cdr, hnext]
  rfl

/-- The new cells come before all free ones. -/
theorem addSegment_front (hs : Sound conf s free ∅) {rest : List (Option Nat)}
    (hm : s.mallocs = some p :: rest)
    (hcase : s.freeCell = conf.nil ∨ p + conf.segSize - 1 + 1 < s.freeCell) :
    Relinked conf s (addSegment conf { s with mallocs := rest } p) (grown conf free p) ∧
      Sound conf (addSegment conf { s with mallocs := rest } p)
        (List.range' p conf.segSize ++ free) ∅ := by
  have hsize := hs.layout.size
  have heq : addSegment conf { s with mallocs := rest } p =
      withSegment s rest p (s.fcells + conf.segSize)
        (setCdr (freshCells conf s.heap p) (p + conf.segSize - 1) s.freeCell) p := by
    unfold addSegment
    exact if_pos hcase
  have hnew : ∀ x ∈ free, ¬(p ≤ x ∧ x < p + conf.segSize) := by
    intro x hx hin
    rcases hs.layout.apart_new hm (mem_cells.mpr (.inr (hs.inside x hx))) with h | h
    · omega
    · omega
  have hold : ∀ x ∈ free, setCdr (freshCells conf s.heap p) (p + conf.segSize - 1) s.freeCell x =
      s.heap x := by
    intro x hx
    have hx' := hnew x hx
    rw [setCdr_freshCells hsize, if_neg (by omega), if_neg hx']
  have hhead : s.freeCell = conf.nil ∨ s.freeCell ∈ grown conf free p := by
    cases free with
    | nil => exact .inl hs.chain
    | cons y ys => exact .inr (.inl (hs.chain.1 ▸ List.mem_cons_self))
  rw [heq]
  have hrel : Relinked conf s (withSegment s rest p (s.fcells + conf.segSize)
      (setCdr (freshCells conf s.heap p) (p + conf.segSize - 1) s.freeCell) p)
      (grown conf free p) := by
    refine withSegment_relinked hs hm (fun x hx => ?_) ?_
    · have hx' : ¬(p ≤ x ∧ x < p + conf.segSize) := fun h => hx (.inr h)
      rw [setCdr_freshCells hsize, if_neg (by omega), if_neg hx']
    · rintro x (hx | hx)
      · rw [hold x hx]
        exact ⟨_, (hs.free_cell hx).1, (hs.free_cell hx).2.imp_right .inl⟩
      · rw [setCdr_freshCells hsize]
        by_cases hlast : x = p + conf.segSize - 1
        · rw [if_pos hlast]
          exact ⟨_, rfl, hhead⟩
        · rw [if_neg hlast, if_pos hx]
          exact ⟨_, rfl, .inr (.inr ⟨by omega, by omega⟩)⟩
  refine ⟨hrel, withSegment_sound hs hrel (List.nil_append free).symm
    (fun y hy => absurd hy List.not_mem_nil) (fun y hy => ?_) ?_⟩
  · cases free with
    | nil => exact absurd hy List.not_mem_nil
    | cons z zs =>
      have hz : s.freeCell = z := hs.chain.1
      have hzy : z ≤ y := by
        rcases List.mem_cons.mp hy with rfl | hy
        · exact Nat.le_refl _
        · exact Nat.le_of_lt ((List.pairwise_cons.mp hs.ascending).1 y hy)
      rcases hcase with h | h
      · exact absurd (hz.symm.trans h) hs.chain.2.1
      · omega
  · have hnil : ∀ i < conf.segSize, p + i ≠ conf.nil := by
      intro i hi hn
      rcases hs.layout.apart_new hm (mem_cells.mpr (.inl (mem_specials_nil conf))) with h | h
      · omega
      · omega
    show Leads _ _ _ (List.range' p conf.segSize ++ free) _
    refine leads_append.mpr ⟨s.freeCell, leads_new hsize hnil fun _ _ => rfl, ?_⟩
    exact Leads.congr hs.chain fun x hx => by rw [Heap.cdr, hold x hx]; rfl

/-- The new cells come behind the free cell `r`. -/
theorem addSegment_behind (hs : Sound conf s free ∅) {rest : List (Option Nat)}
    (hm : s.mallocs = some p :: rest)
    (hcase : ¬(s.freeCell = conf.nil ∨ p + conf.segSize - 1 + 1 < s.freeCell)) :
    ∃ l₁ r l₂, free = l₁ ++ r :: l₂ ∧
      Relinked conf s (addSegment conf { s with mallocs := rest } p) (grown conf free p) ∧
      Sound conf (addSegment conf { s with mallocs := rest } p)
        (l₁ ++ [r] ++ (List.range' p conf.segSize ++ l₂)) ∅ := by
  have hsize := hs.layout.size
  obtain ⟨hne, hlt⟩ := not_or.mp hcase
  have hnew : ∀ x ∈ free, x < p ∨ p + conf.segSize < x := fun x hx =>
    hs.layout.apart_new hm (mem_cells.mpr (.inr (hs.inside x hx)))
  obtain ⟨z, zs, rfl⟩ : ∃ z zs, free = z :: zs := by
    cases free with
    | nil => exact absurd hs.chain hne
    | cons z zs => exact ⟨z, zs, rfl⟩
  have hz : z = s.freeCell := hs.chain.1.symm
  have hfresh : ∀ x ∈ z :: zs, freshCells conf s.heap p x = s.heap x := by
    intro x hx
    rcases hnew x hx with h | h
    · exact freshCells_old (by omega)
    · exact freshCells_old (by omega)
  have hlen : zs.length ≤ conf.segSize * (insertSegment p s.cellSeg).length := by
    have hle := hs.free_length_le
    rw [(insertSegment_perm p s.cellSeg).length_eq, List.length_cons, Nat.mul_succ]
    rw [List.length_cons] at hle
    omega
  have hchain : FreeFrom conf.nil (freshCells conf s.heap p) z (z :: zs) := by
    have hchain := hs.chain
    rw [← hz] at hchain
    exact Leads.congr hchain fun x hx => by rw [Heap.cdr, hfresh x hx]; rfl
  have hzp : z < p := by
    rcases hnew z List.mem_cons_self with h | h
    · exact h
    · omega
  obtain ⟨l₁, l₂, hsplit, hl₁, hl₂⟩ := findPlace_spec hchain hs.ascending hzp hlen
  generalize hr : findPlace conf (freshCells conf s.heap p) p
    (conf.segSize * (insertSegment p s.cellSeg).length) z = r at hsplit hl₁
  have hrfree : r ∈ z :: zs := hsplit ▸ List.mem_append_right _ List.mem_cons_self
  have hrp : r < p := hl₁ r (List.mem_append_right _ (List.mem_singleton_self r))
  have heq : addSegment conf { s with mallocs := rest } p =
      withSegment s rest p (s.fcells + conf.segSize)
        (setCdr (setCdr (freshCells conf s.heap p) (p + conf.segSize - 1) (cdr s.heap r)) r p)
        s.freeCell := by
    have hcdr : cdr (freshCells conf s.heap p) r = cdr s.heap r := by
      rw [Heap.cdr, hfresh r hrfree]
      rfl
    rw [hz] at hr
    rw [← hcdr, ← hr]
    unfold addSegment
    exact if_neg hcase
  -- The cells of the new heap: `r` leads to the segment, and its end to where `r` led.
  have hat : ∀ x, setCdr (setCdr (freshCells conf s.heap p) (p + conf.segSize - 1) (cdr s.heap r))
      r p x = if x = r then blankCell conf.nil p
        else setCdr (freshCells conf s.heap p) (p + conf.segSize - 1) (cdr s.heap r) x := by
    intro x
    by_cases hx : x = r
    · subst hx
      rw [if_pos rfl, setCdr, Function.update_self, setCdr_freshCells hsize, if_neg (by omega),
        if_neg (by omega), (hs.free_cell hrfree).1]
      rfl
    · rw [if_neg hx]
      exact Function.update_of_ne hx _ _
  have hold : ∀ x ∈ z :: zs, x ≠ r →
      setCdr (setCdr (freshCells conf s.heap p) (p + conf.segSize - 1) (cdr s.heap r)) r p x =
        s.heap x := by
    intro x hx hne
    rw [hat, if_neg hne, setCdr_freshCells hsize]
    rcases hnew x hx with h | h
    · rw [if_neg (by omega), if_neg (by omega)]
    · rw [if_neg (by omega), if_neg (by omega)]
  have hrel : Relinked conf s (withSegment s rest p (s.fcells + conf.segSize)
      (setCdr (setCdr (freshCells conf s.heap p) (p + conf.segSize - 1) (cdr s.heap r)) r p)
      s.freeCell) (grown conf (z :: zs) p) := by
    refine withSegment_relinked hs hm (fun x hx => ?_) ?_
    · have hx' : ¬(p ≤ x ∧ x < p + conf.segSize) := fun h => hx (.inr h)
      have hne : x ≠ r := fun h => hx (.inl (h ▸ hrfree))
      rw [hat, if_neg hne, setCdr_freshCells hsize, if_neg (by omega), if_neg hx']
    · rintro x (hx | hx)
      · by_cases hxr : x = r
        · rw [hat, if_pos hxr]
          exact ⟨p, rfl, .inr (.inr ⟨Nat.le_refl p, by omega⟩)⟩
        · rw [hold x hx hxr]
          exact ⟨_, (hs.free_cell hx).1, (hs.free_cell hx).2.imp_right .inl⟩
      · rw [hat, if_neg (by omega), setCdr_freshCells hsize]
        by_cases hlast : x = p + conf.segSize - 1
        · rw [if_pos hlast]
          exact ⟨_, rfl, (hs.free_cell hrfree).2.imp_right .inl⟩
        · rw [if_neg hlast, if_pos hx]
          exact ⟨_, rfl, .inr (.inr ⟨by omega, by omega⟩)⟩
  have hnodup : (l₁ ++ r :: l₂).Pairwise (· < ·) := hsplit ▸ hs.ascending
  have hasc := List.pairwise_append.mp hnodup
  rw [heq]
  refine ⟨l₁, r, l₂, hsplit, hrel, withSegment_sound hs hrel ?_ hl₁ (fun y hy => ?_) ?_⟩
  · rw [hsplit, List.append_assoc]
    rfl
  · have hyfree : y ∈ z :: zs :=
      hsplit ▸ List.mem_append_right _ (List.mem_cons_of_mem _ hy)
    have := hl₂ y hy
    rcases hnew y hyfree with h | h
    · omega
    · omega
  · have hnil : ∀ i < conf.segSize, p + i ≠ conf.nil := by
      intro i hi hn
      rcases hs.layout.apart_new hm (mem_cells.mpr (.inl (mem_specials_nil conf))) with h | h
      · omega
      · omega
    have hold' := hs.chain
    rw [hsplit] at hold'
    obtain ⟨q, hfront, rfl, hrnil, hback⟩ := leads_append.mp hold'
    refine leads_append.mpr ⟨p, leads_append.mpr ⟨q, ?_, rfl, hrnil, ?_⟩,
      leads_append.mpr ⟨cdr s.heap q, ?_, ?_⟩⟩
    · refine Leads.congr hfront fun x hx => ?_
      have hlt : x < q := hasc.2.2 x hx q List.mem_cons_self
      rw [Heap.cdr, hold x (hsplit ▸ List.mem_append_left _ hx) (by omega)]
      rfl
    · show Cell.cdr (setCdr _ _ _ q) = p
      rw [hat, if_pos rfl]
      rfl
    · refine leads_new (h := s.heap) hsize hnil fun i hi => ?_
      rw [hat, if_neg (by omega)]
    · refine Leads.congr hback fun x hx => ?_
      have hlt : q < x := (List.pairwise_cons.mp hasc.2.1).1 x hx
      rw [Heap.cdr, hold x (hsplit ▸ List.mem_append_right _ (List.mem_cons_of_mem _ hx))
        (by omega)]
      rfl

/-- A new segment leaves the storage in order, with some free cell. -/
theorem addSegment_sound (hs : Sound conf s free ∅) {rest : List (Option Nat)}
    (hm : s.mallocs = some p :: rest) :
    ∃ free', Relinked conf s (addSegment conf { s with mallocs := rest } p) (grown conf free p) ∧
      Sound conf (addSegment conf { s with mallocs := rest } p) free' ∅ ∧ free' ≠ [] := by
  by_cases hcase : s.freeCell = conf.nil ∨ p + conf.segSize - 1 + 1 < s.freeCell
  · obtain ⟨hrel, hsound⟩ := addSegment_front hs hm hcase
    refine ⟨_, hrel, hsound, fun hnil => ?_⟩
    have hlen := congrArg List.length hnil
    rw [List.length_append, List.length_range', List.length_nil] at hlen
    have := hs.layout.size
    omega
  · obtain ⟨l₁, r, l₂, -, hrel, hsound⟩ := addSegment_behind hs hm hcase
    exact ⟨_, hrel, hsound, by simp⟩

end

/-- A storage of one segment with four cells. -/
def small : Conf := ⟨1, 2, 3, 4, 4, 2⟩

def smallStorage : Scheme := addSegment small { noCells small [some 10] with mallocs := [] } 10

theorem small_layout (mallocs : List (Option Nat)) (h : mallocs = [some 10]) :
    Layout small (noCells small mallocs) := by
  subst h
  exact ⟨by decide, by decide, by decide, by decide, by decide, by decide, by decide⟩

theorem smallStorage_sound : Sound small smallStorage [10, 11, 12, 13] ∅ :=
  (addSegment_front (noCells_sound (small_layout [some 10] rfl)) (show _ = some 10 :: [] from rfl)
    (.inl rfl)).2

end Alcor.Proofs.TinyScheme
