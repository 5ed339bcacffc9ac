import Alcor.Proofs.TinyScheme.Collector
import Alcor.Proofs.TinyScheme.Segment

/-!
# `Alcor.Proofs.TinyScheme.Allocate`: an allocation hands out what nothing leads to

A cell is taken from the free list, after a collection or with a new
segment where the list is empty. All that can be reached is as before
(`Carries`), and what is put into the new cells, and into those that are
in use, leaves the storage in order (`Rewritten`).

* `gc_exact`: a collection frees exactly what cannot be reached.
* `getCellX_spec`: the cell comes from those nothing in use leads to.
* `Sound.rewrite`: the storage after cells were filled.
-/

set_option autoImplicit false

namespace Alcor.Proofs.TinyScheme

open Lib.Marking Alcor.TinyScheme Alcor.TinyScheme.Heap Alcor.TinyScheme.Scheme

section
variable {conf : Conf} {s s₁ s' : Scheme} {free free₁ free' : List Nat} {out out' : Set Nat}
  {as : List Nat} {D : Set Nat} {x : Nat}

/-! ### From one storage to the next -/

/-- The pointers `as` are carried from `s` to `s'`, where the storage is in order. -/
structure Carries (conf : Conf) (as : List Nat) (s s' : Scheme) (free' : List Nat)
    (out' : Set Nat) : Prop where
  sound : Sound conf s' free' out'
  kept : Kept conf s as s'
  roots : ∀ q, Reaches (follow conf.sink s.heap) as q → Root conf s q → Root conf s' q
  sink : s'.heap conf.sink = s.heap conf.sink
  noMemory : s'.noMemory = s.noMemory

theorem Relinked.carries (hs : Sound conf s free out) (hr : Relinked conf s s' D)
    (hs' : Sound conf s' free' out') (hD : ∀ a ∈ as, a ∉ D) (hm : s'.noMemory = s.noMemory) :
    Carries conf as s s' free' out' :=
  ⟨hs', hr.keeps hD, fun _ hq hroot => hr.root hs hroot (hr.not_reached hD hq),
    hr.kept _ (fun h => hr.not_special h (mem_specials_sink conf)) hs.ne_nil_sink.symm, hm⟩

theorem Carries.roots_of (has : ∀ a ∈ as, Root conf s a) (hc : Carries conf as s s' free' out') :
    ∀ a ∈ as, Root conf s' a :=
  fun a ha => hc.roots a (.of_mem ha) (has a ha)

theorem Carries.trans (hs : Sound conf s free out) (has : ∀ a ∈ as, Root conf s a)
    (hc : Carries conf as s s₁ free₁ ∅) (hc' : Carries conf as s₁ s' free' out') :
    Carries conf as s s' free' out' :=
  ⟨hc'.sound, hc.kept.trans hs has hc'.kept fun _ ha => .of_mem ha,
    fun q hq hroot => hc'.roots q (hc.kept.reaches hs has hq) (hc.roots q hq hroot),
    hc'.sink.trans hc.sink, hc'.noMemory.trans hc.noMemory⟩

/-- No cell was changed. -/
theorem relinked_same (hs : Sound conf s free ∅) (hheap : s'.heap = s.heap)
    (hreg : s'.registers = s.registers) (hseg : s'.cellSeg = s.cellSeg)
    (hmal : s'.mallocs.reduceOption = s.mallocs.reduceOption) :
    Relinked conf s s' {y | y ∈ free} := by
  have hblocks : blocks s' = blocks s := by rw [blocks, blocks, hseg, hmal]
  have hcells : segmentCells conf s' = segmentCells conf s := by
    rw [segmentCells, segmentCells, hseg]
  have hl := hs.layout
  refine ⟨⟨hl.size, hl.distinct, hl.zero, ?_, ?_, ?_, ?_⟩, hreg, ?_, ?_, ?_, ?_, ?_, ?_, ?_, ?_,
    fun r => (hs.registers r).not_free hs, hs.recent.not_free hs⟩
  · rw [hblocks]
    exact hl.positive
  · rw [hblocks]
    exact hl.outside
  · rw [hblocks]
    exact hl.apart
  · rw [hseg]
    exact hl.descending
  · rw [hcells]
    exact fun _ => id
  · rw [hcells]
    exact fun _ hx hx' => absurd hx hx'
  · rw [hcells]
    exact hs.inside
  · rw [hheap]
    exact fun _ _ _ => rfl
  · rw [hheap]
    exact ⟨_, id, rfl⟩
  · rw [hheap]
    intro x hx
    exact ⟨_, hs.free_cell hx⟩
  · intro x hx hzero
    exact ((hs.zero x hx).mp hzero).resolve_right id
  · intro p hp q hq
    exact hs.unlinked hp hq

/-! ### A cell from the free list -/

/-- The first free cell is taken. -/
theorem takeCell_spec (hs : Sound conf s free ∅) (has : ∀ a ∈ as, Root conf s a)
    (hne : s.freeCell ≠ conf.nil) :
    (takeCell s).1 ∈ segmentCells conf (takeCell s).2 ∧
      ∃ free', Carries conf as s (takeCell s).2 free' {(takeCell s).1} := by
  cases free with
  | nil => exact absurd hs.chain hne
  | cons x rest =>
    have hx : s.freeCell = x := hs.chain.1
    have hrel : Relinked conf s (takeCell s).2 {y | y ∈ x :: rest} :=
      relinked_same hs rfl rfl rfl rfl
    have hsound : Sound conf (takeCell s).2 rest {(takeCell s).1} := by
      refine hrel.sound hs ?_ ?_ ?_ (List.pairwise_cons.mp hs.ascending).2 ?_
      · intro y
        show y ∈ x :: rest ↔ y ∈ rest ∨ y = s.freeCell
        rw [hx, List.mem_cons, or_comm]
      · intro y hy heq
        have hlt := (List.pairwise_cons.mp hs.ascending).1 y hy
        have heq' : y = s.freeCell := heq
        omega
      · show FreeFrom conf.nil s.heap (cdr s.heap s.freeCell) rest
        rw [hx]
        exact hs.chain.2.2
      · show s.fcells - 1 = _
        rw [hs.fcells, List.length_cons]
        push_cast
        omega
    refine ⟨hs.inside _ (hx ▸ List.mem_cons_self), rest, ?_⟩
    exact hrel.carries hs hsound (fun a ha => (has a ha).not_free hs) rfl

/-- `alloc_cellseg` asks for memory, and adds a segment where there is some. -/
theorem allocCellseg_cases (conf : Conf) (s : Scheme) :
    (∃ rest, rest.reduceOption = s.mallocs.reduceOption ∧
      allocCellseg conf s = (false, { s with mallocs := rest })) ∨
    ∃ p rest, s.mallocs = some p :: rest ∧
      allocCellseg conf s = (true, addSegment conf { s with mallocs := rest } p) := by
  unfold allocCellseg
  split
  · exact .inl ⟨s.mallocs, rfl, rfl⟩
  · split
    · exact .inl ⟨s.mallocs, rfl, rfl⟩
    · next rest heq => exact .inl ⟨rest, by rw [heq, List.reduceOption_cons_of_none], rfl⟩
    · next p rest heq => exact .inr ⟨p, rest, heq, rfl⟩

/-- A segment was added. -/
theorem addSegment_carries (hs : Sound conf s free ∅) (has : ∀ a ∈ as, Root conf s a) {p : Nat}
    {rest : List (Option Nat)} (hm : s.mallocs = some p :: rest) :
    (addSegment conf { s with mallocs := rest } p).freeCell ≠ conf.nil ∧
      ∃ free', Carries conf as s (addSegment conf { s with mallocs := rest } p) free' ∅ := by
  obtain ⟨free', hrel, hsound, hne⟩ := addSegment_sound hs hm
  refine ⟨fun hnil => hne ?_, free', ?_⟩
  · cases free' with
    | nil => rfl
    | cons x xs => exact absurd (hsound.chain.1.symm.trans hnil) hsound.chain.2.1
  · refine hrel.carries hs hsound (fun a ha => ?_) ?_
    · exact not_grown hs.layout hm (has a ha).mem ((has a ha).not_free hs)
    · unfold addSegment
      dsimp only
      split <;> rfl

/-- `gc` carries its roots over. -/
theorem gc_carries (hs : Sound conf s free ∅) {a b : Nat} (ha : Root conf s a) (hb : Root conf s b) :
    ∃ s' free', gc conf s a b = some s' ∧ Carries conf (roots conf s a b) s s' free' ∅ := by
  obtain ⟨s', hgc, hc, hsound⟩ := gc_sound hs ha hb
  refine ⟨s', _, hgc, (hc.relinked hs ha hb).carries hs hsound ?_ hc.noMemory⟩
  exact fun p hp hlost => hlost.2 (.of_mem hp)

/-- **The collector**: `gc` comes to an end. The free cells are those
that could not be reached, in the order of their addresses; what they
held is released, and all other cells are as before. -/
theorem gc_exact (hs : Sound conf s free ∅) {a b : Nat} (ha : Root conf s a) (hb : Root conf s b) :
    ∃ s' free', gc conf s a b = some s' ∧ Sound conf s' free' ∅ ∧ s'.registers = s.registers ∧
      (∀ x, x ∈ free' ↔ x ∈ segmentCells conf s ∧
        ¬ Reaches (follow conf.sink s.heap) (roots conf s a b) x) ∧
      (∀ x, x ∉ free' → x ≠ conf.nil → s'.heap x = s.heap x) ∧
      s'.released = s.released ++ free'.reverse.flatMap fun x => payload (s.heap x) := by
  obtain ⟨s', hgc, hc, hsound⟩ := gc_sound hs ha hb
  refine ⟨s', _, hgc, hsound, hc.registers, fun x => ?_, fun x hx hnil => hc.kept x ?_ hnil, ?_⟩
  · rw [List.mem_reverse]
    exact mem_lostCells
  · rwa [List.mem_reverse, mem_lostCells] at hx
  · rw [List.reverse_reverse]
    exact hc.released

theorem smallStorage_nil : Root small smallStorage 2 :=
  smallStorage_sound.constant (by decide) (by decide)

/-- The hypotheses of `gc_exact` hold of a storage of four cells, with
`nil` for its two roots. -/
theorem gc_exact_small :
    ∃ s' free', gc small smallStorage 2 2 = some s' ∧ Sound small s' free' ∅ ∧
      s'.registers = smallStorage.registers ∧
      (∀ x, x ∈ free' ↔ x ∈ segmentCells small smallStorage ∧
        ¬ Reaches (follow 1 smallStorage.heap) (roots small smallStorage 2 2) x) ∧
      (∀ x, x ∉ free' → x ≠ 2 → s'.heap x = smallStorage.heap x) ∧
      s'.released =
        smallStorage.released ++ free'.reverse.flatMap fun x => payload (smallStorage.heap x) :=
  gc_exact smallStorage_sound smallStorage_nil smallStorage_nil

/-- `get_cell_x`: there is no memory, or the cell that is handed out was not in use. -/
theorem getCellX_spec (hs : Sound conf s free ∅) {a b : Nat} (ha : Root conf s a)
    (hb : Root conf s b) (hm : s.noMemory = false) :
    ∃ x s', getCellX conf s a b = some (x, s') ∧ (s'.noMemory = true ∨
      x ∈ segmentCells conf s' ∧ ∃ free', Carries conf (roots conf s a b) s s' free' {x}) := by
  have hroots := roots_root hs ha hb
  by_cases hfree : s.freeCell = conf.nil
  · have hslow : getCellX conf s a b = getCellSlow conf s a b := if_neg fun h => h hfree
    obtain ⟨s₁, free₁, hgc, hc₁⟩ := gc_carries hs ha hb
    rw [hslow, getCellSlow, hm, if_neg Bool.false_ne_true, if_pos hfree, hgc, Option.map_some]
    by_cases hfew : s₁.fcells < (s.cellSeg.length - 1 : Int) * 8 ∨ s₁.freeCell = conf.nil
    · rw [if_pos hfew]
      rcases allocCellseg_cases conf s₁ with ⟨rest, hrest, halloc⟩ | ⟨p, rest, hmal, halloc⟩
      · rw [halloc]
        by_cases hnil : s₁.freeCell = conf.nil
        · exact ⟨_, _, congrArg some (if_pos hnil), .inl rfl⟩
        · have hrel : Relinked conf s₁ { s₁ with mallocs := rest } {y | y ∈ free₁} :=
            relinked_same hc₁.sound rfl rfl rfl hrest
          have hsound : Sound conf { s₁ with mallocs := rest } free₁ ∅ := by
            refine hrel.sound hc₁.sound (fun y => ?_) (fun _ _ => id) hc₁.sound.chain
              hc₁.sound.ascending hc₁.sound.fcells
            exact ⟨.inl, fun h => h.resolve_right id⟩
          have hroots₁ := hc₁.roots_of hroots
          have hc₂ := hrel.carries hc₁.sound hsound
            (fun a ha => (hroots₁ a ha).not_free hc₁.sound) rfl
          obtain ⟨hx, free', hc₃⟩ := takeCell_spec hsound (hc₂.roots_of hroots₁) hnil
          exact ⟨_, _, congrArg some (if_neg hnil), .inr
            ⟨hx, free', (hc₁.trans hs hroots hc₂).trans hs hroots hc₃⟩⟩
      · rw [halloc]
        obtain ⟨hne, free₂, hc₂⟩ := addSegment_carries hc₁.sound (hc₁.roots_of hroots) hmal
        obtain ⟨hx, free', hc₃⟩ :=
          takeCell_spec hc₂.sound (hc₂.roots_of (hc₁.roots_of hroots)) hne
        exact ⟨_, _, rfl, .inr ⟨hx, free', (hc₁.trans hs hroots hc₂).trans hs hroots hc₃⟩⟩
    · rw [if_neg hfew]
      obtain ⟨hx, free', hc₂⟩ := takeCell_spec hc₁.sound (hc₁.roots_of hroots)
        fun h => hfew (.inr h)
      exact ⟨_, _, rfl, .inr ⟨hx, free', hc₁.trans hs hroots hc₂⟩⟩
  · have hfast : getCellX conf s a b = some (takeCell s) := if_pos hfree
    obtain ⟨hx, free', hc⟩ := takeCell_spec hs hroots hfree
    exact ⟨_, _, hfast, .inr ⟨hx, free', hc⟩⟩

/-! ### What is put into cells -/

/-- The cells `W` get new contents, and those of them that were out are in use then. A new vector
has only such cells as elements. -/
structure Rewritten (conf : Conf) (s : Scheme) (free : List Nat) (out W : Set Nat) (h : Heap) :
    Prop where
  outside : ∀ p, p ∉ W → h p = s.heap p
  inside : ∀ p ∈ W, p ∈ segmentCells conf s
  all : ∀ p ∈ out, p ∈ W
  not_free : ∀ p ∈ W, p ∉ free
  not_vector : ∀ p ∈ W, ¬ Vector s.heap p
  shaped : ∀ p ∈ W, Shaped (h p)
  unmarked : ∀ p ∈ W, (h p).marked = false
  used : ∀ p ∈ W, (h p).flagZero = false
  linked : ∀ p ∈ W, isAtom h p = false → car h p ≠ 0 ∧ cdr h p ≠ 0
  links : ∀ p ∈ W, ¬ Vector h p → ∀ q ∈ children h p, Root conf s q
  fresh : ∀ p ∈ W, Vector h p → p ∈ out
  elements : ∀ p ∈ W, Vector h p → ∀ q ∈ children h p, q ∈ out ∧ ¬ Vector h q
  only : ∀ p ∈ W, Vector h p → ∀ q ∈ children h p, ∀ p' ∈ W, q ∈ children h p' → p' = p

section
variable {W : Set Nat} {h : Heap} {p q : Nat}

theorem Rewritten.follow_old (hw : Rewritten conf s free out W h) (hp : p ∉ W) :
    follow conf.sink h p = TinyScheme.follow conf.sink s.heap p := by
  rw [TinyScheme.follow, TinyScheme.follow, children, children, hw.outside p hp]

theorem Rewritten.vector_old (hw : Rewritten conf s free out W h) (hp : p ∉ W) :
    Vector h p ↔ Vector s.heap p := by
  rw [Vector, Vector, hw.outside p hp]

theorem Rewritten.used_of (hw : Rewritten conf s free out W h)
    (hq : (s.heap q).flagZero = false) : (h q).flagZero = false := by
  by_cases hqW : q ∈ W
  · exact hw.used q hqW
  · rw [hw.outside q hqW]
    exact hq

/-- Nothing that stays leads to a cell that was out. -/
theorem Rewritten.unlinked (hs : Sound conf s free out) (hw : Rewritten conf s free out W h)
    (hp : p ∉ W) (hq : q ∈ TinyScheme.follow conf.sink s.heap p) : q ∉ out := by
  intro hout
  have hqseg := hw.inside q (hw.all q hout)
  have hqzero := (hs.zero q hqseg).mpr (.inr hout)
  have hsink : p ≠ conf.sink := by
    rintro rfl
    rw [TinyScheme.follow, if_pos rfl] at hq
    exact absurd hq List.not_mem_nil
  by_cases hpfree : p ∈ free
  · have hcell := hs.free_cell hpfree
    rw [follow_of_ne hsink, children, hcell.1] at hq
    have hq' : q ∈ [conf.nil, cdr s.heap p] := (List.mem_filter.mp hq).1
    rcases List.mem_cons.mp hq' with rfl | hq'
    · exact hs.layout.ne_nil hqseg rfl
    · rw [List.mem_singleton] at hq'
      rcases hcell.2 with hn | hn
      · exact hs.layout.ne_nil hqseg (hq'.trans hn)
      · exact hw.not_free q (hw.all q hout) (hq' ▸ hn)
  · have hused : (s.heap p).flagZero = false := by
      by_contra hzero
      rw [Bool.not_eq_false] at hzero
      rcases mem_cells.mp (by_contra fun hbeyond => by
        rw [hs.storage.outside p hbeyond] at hq
        exact absurd hq List.not_mem_nil) with hspec | hseg
      · rw [hs.children_special hspec] at hq
        exact absurd hq List.not_mem_nil
      · rcases (hs.zero p hseg).mp hzero with h | h
        · exact hpfree h
        · exact hp (hw.all p h)
    rw [follow_of_ne hsink] at hq
    rw [hs.live p hsink hused q hq] at hqzero
    cases hqzero

/-- The cells are a storage for the collector. -/
theorem Rewritten.storage (hs : Sound conf s free out) (hw : Rewritten conf s free out W h) :
    Storage conf.sink h (cells conf s) := by
  have hsinkW : conf.sink ∉ W := fun hin => hs.layout.ne_sink (hw.inside _ hin) rfl
  have hne : ∀ p ∈ W, p ≠ conf.sink := fun p hp heq => hsinkW (heq ▸ hp)
  refine ⟨hs.storage.zero, ?_, ?_, ?_, ?_, ?_⟩
  · intro p
    by_cases hp : p ∈ W
    · exact hw.shaped p hp
    · rw [hw.outside p hp]
      exact hs.storage.shaped p
  · intro p hp
    rw [hw.follow_old fun h => hp (mem_cells.mpr (.inr (hw.inside p h)))]
    exact hs.storage.outside p hp
  · intro p q hq
    by_cases hp : p ∈ W
    · rw [follow_of_ne (hne p hp)] at hq
      by_cases hvec : Vector h p
      · exact mem_cells.mpr (.inr (hw.inside q (hw.all q (hw.elements p hp hvec q hq).1)))
      · exact (hw.links p hp hvec q hq).mem
    · rw [hw.follow_old hp] at hq
      exact hs.storage.inside p q hq
  · intro v hv x hx p hxp
    by_cases hvW : v ∈ W
    · rw [follow_of_ne (hne v hvW)] at hx
      by_cases hp : p ∈ W
      · rw [follow_of_ne (hne p hp)] at hxp
        exact hw.only v hvW hv x hx p hp hxp
      · rw [hw.follow_old hp] at hxp
        exact absurd (hw.elements v hvW hv x hx).1 (hw.unlinked hs hp hxp)
    · rw [hw.follow_old hvW] at hx
      rw [hw.vector_old hvW] at hv
      by_cases hp : p ∈ W
      · -- A new link does not lead into an old vector.
        rw [follow_of_ne (hne p hp)] at hxp
        by_cases hvec : Vector h p
        · exact absurd (hw.elements p hp hvec x hxp).1 (hw.unlinked hs hvW hx)
        · exact absurd hx ((hw.links p hp hvec x hxp).outer v hv)
      · rw [hw.follow_old hp] at hxp
        exact hs.storage.only v hv x hx p hxp
  · intro v hv x hx
    by_cases hvW : v ∈ W
    · rw [follow_of_ne (hne v hvW)] at hx
      obtain ⟨hout, hvec⟩ := hw.elements v hvW hv x hx
      exact ⟨hvec, hne x (hw.all x hout)⟩
    · rw [hw.follow_old hvW] at hx
      rw [hw.vector_old hvW] at hv
      refine ⟨fun hvec => ?_, (hs.storage.element v hv x hx).2⟩
      by_cases hxW : x ∈ W
      · exact hw.unlinked hs hvW hx (hw.fresh x hxW hvec)
      · exact (hs.storage.element v hv x hx).1 ((hw.vector_old hxW).mp hvec)

theorem Rewritten.root (hs : Sound conf s free out) (hw : Rewritten conf s free out W h) {a : Nat}
    (ha : Root conf s a) : Root conf { s with heap := h } a := by
  refine ⟨⟨ha.mem, ha.ne_sink, fun v hv hin => ?_⟩, hw.used_of ha.used⟩
  have hv' : Vector h v := hv
  have hin' : a ∈ TinyScheme.follow conf.sink h v := hin
  by_cases hvW : v ∈ W
  · rw [follow_of_ne (hs.layout.ne_sink (hw.inside v hvW))] at hin'
    have hout := (hw.elements v hvW hv' a hin').1
    have hzero := (hs.zero a (hw.inside a (hw.all a hout))).mpr (.inr hout)
    rw [ha.used] at hzero
    cases hzero
  · rw [hw.follow_old hvW] at hin'
    rw [hw.vector_old hvW] at hv'
    exact ha.outer v hv' hin'

/-- The storage is in order after this. -/
theorem Sound.rewrite (hs : Sound conf s free out) (hw : Rewritten conf s free out W h) :
    Sound conf { s with heap := h } free ∅ := by
  have hspecial : ∀ p ∈ specials conf, p ∉ W :=
    fun p hp hin => hs.layout.not_special (hw.inside p hin) hp
  have hne : ∀ p ∈ W, p ≠ conf.sink := fun p hp => hs.layout.ne_sink (hw.inside p hp)
  have hsinkcar : car h conf.sink = car s.heap conf.sink := by
    rw [Heap.car, hw.outside _ (hspecial _ (mem_specials_sink conf))]
    rfl
  have hstorage := hw.storage hs
  refine ⟨⟨hs.layout.size, hs.layout.distinct, hs.layout.zero, hs.layout.positive,
    hs.layout.outside, hs.layout.apart, hs.layout.descending⟩, hstorage, ?_, ?_, ?_, ?_, ?_, ?_,
    ?_, hs.ascending, hs.fcells, hs.inside, fun _ _ => id, ?_, ?_, ?_,
    fun r => hw.root hs (hs.registers r), ?_⟩
  · intro p hp
    have hp' : (h p).marked = true := hp
    by_cases hpW : p ∈ W
    · rw [hw.unmarked p hpW] at hp'
      cases hp'
    · rw [hw.outside p hpW] at hp'
      exact hs.marked p hp'
  · intro p hp hnil
    show (h p).marked = true
    rw [hw.outside p (hspecial p hp)]
    exact hs.held p hp hnil
  · intro p hp hsink
    show isAtom h p = true ∧ ¬ Vector h p
    rw [isAtom, hw.vector_old (hspecial p hp), hw.outside p (hspecial p hp)]
    exact hs.constants p hp hsink
  · intro v hv x hx
    have hv' : Vector h v := hv
    have hx' : x ∈ TinyScheme.follow conf.sink h v := hx
    by_cases hvW : v ∈ W
    · rw [follow_of_ne (hne v hvW)] at hx'
      exact hw.inside x (hw.all x (hw.elements v hvW hv' x hx').1)
    · rw [hw.follow_old hvW] at hx'
      exact hs.element v ((hw.vector_old hvW).mp hv') x hx'
  · intro p hin
    have hin' : conf.sink ∈ TinyScheme.follow conf.sink h p := hin
    by_cases hpW : p ∈ W
    · rw [follow_of_ne (hne p hpW)] at hin'
      by_cases hvec : Vector h p
      · exact hspecial _ (mem_specials_sink conf) (hw.all _ (hw.elements p hpW hvec _ hin').1)
      · exact (hw.links p hpW hvec _ hin').ne_sink rfl
    · rw [hw.follow_old hpW] at hin'
      exact hs.sinkless p hin'
  · intro p hp hsink hatom
    have hatom' : isAtom h p = false := hatom
    show car h p ≠ 0 ∧ cdr h p ≠ 0
    by_cases hpW : p ∈ W
    · exact hw.linked p hpW hatom'
    · rw [isAtom, hw.outside p hpW] at hatom'
      rw [Heap.car, Heap.cdr, hw.outside p hpW]
      exact hs.linked p hp hsink hatom'
  · refine Leads.congr hs.chain fun x hx => ?_
    show Cell.cdr (h x) = _
    rw [hw.outside x fun hin => hw.not_free x hin hx]
    rfl
  · intro x hx
    show (h x).flagZero = true ↔ _
    by_cases hxW : x ∈ W
    · rw [hw.used x hxW]
      constructor
      · exact fun hf => absurd hf Bool.false_ne_true
      · exact fun hf => absurd (hf.resolve_right id) (hw.not_free x hxW)
    · rw [hw.outside x hxW, hs.zero x hx]
      constructor
      · exact fun hf => .inl (hf.resolve_right fun hout => hxW (hw.all x hout))
      · exact fun hf => .inl (hf.resolve_right id)
  · intro x hx hzero
    have hzero' : (h x).flagZero = true := hzero
    show ∃ next, h x = blankCell conf.nil next
    by_cases hxW : x ∈ W
    · rw [hw.used x hxW] at hzero'
      cases hzero'
    · rw [hw.outside x hxW] at hzero' ⊢
      exact hs.blank x hx hzero'
  · intro p hsink hused q hq
    have hused' : (h p).flagZero = false := hused
    have hq' : q ∈ children h p := hq
    show (h q).flagZero = false
    by_cases hpW : p ∈ W
    · by_cases hvec : Vector h p
      · exact hw.used q (hw.all q (hw.elements p hpW hvec q hq').1)
      · exact hw.used_of (hw.links p hpW hvec q hq').used
    · rw [hw.outside p hpW] at hused'
      refine hw.used_of (hs.live p hsink hused' q ?_)
      rwa [children, hw.outside p hpW] at hq'
  · show Root conf { s with heap := h } (car h conf.sink)
    rw [hsinkcar]
    exact hw.root hs hs.recent

end

/-- A cell that is no vector: one that was taken, or one in use. -/
theorem rewritten_cell {c : Cell} (hx : x ∈ segmentCells conf s) (hout : ∀ y ∈ out, y = x)
    (hfree : x ∉ free) (hvec : ¬ Vector s.heap x) (htype : c.type ≠ .tVector)
    (hunmarked : c.marked = false) (hused : c.flagZero = false)
    (hcell : c.atom = true ∨
      ∃ a d, c.object = .cons a d ∧ a ≠ 0 ∧ d ≠ 0 ∧ Root conf s a ∧ Root conf s d) :
    Rewritten conf s free out {x} (Function.update s.heap x c) := by
  have hself : Function.update s.heap x c x = c := Function.update_self _ _ _
  have hvec' : ¬ Vector (Function.update s.heap x c) x := by
    rw [Vector, hself]
    exact htype
  refine ⟨fun p hp => Function.update_of_ne hp _ _, ?_, hout, ?_, ?_, ?_, ?_, ?_, ?_, ?_, ?_, ?_, ?_⟩
  · rintro p rfl
    exact hx
  · rintro p rfl
    exact hfree
  · rintro p rfl
    exact hvec
  · rintro p rfl
    rw [hself]
    refine ⟨fun h => absurd h htype, fun hatom => ?_⟩
    rcases hcell with h | ⟨a, d, h, -⟩
    · rw [h] at hatom
      cases hatom
    · exact ⟨a, d, h⟩
  · rintro p rfl
    rw [hself]
    exact hunmarked
  · rintro p rfl
    rw [hself]
    exact hused
  · rintro p rfl hatom
    rw [isAtom, hself] at hatom
    rw [Heap.car, Heap.cdr, hself]
    rcases hcell with h | ⟨a, d, h, ha, hd, -⟩
    · rw [h] at hatom
      cases hatom
    · rw [Cell.car, Cell.cdr, h]
      exact ⟨ha, hd⟩
  · rintro p rfl - q hq
    rw [children, hself, links, if_neg htype] at hq
    rcases hcell with h | ⟨a, d, h, -, -, ha, hd⟩
    · rw [if_pos h] at hq
      exact absurd hq List.not_mem_nil
    · by_cases hatom : c.atom = true
      · rw [if_pos hatom] at hq
        exact absurd hq List.not_mem_nil
      · rw [if_neg hatom] at hq
        have hq' : q ∈ [c.car, c.cdr] := (List.mem_filter.mp hq).1
        rw [Cell.car, Cell.cdr, h] at hq'
        rcases List.mem_cons.mp hq' with rfl | hq'
        · exact ha
        · exact List.mem_singleton.mp hq' ▸ hd
  · rintro p rfl hv
    exact absurd hv hvec'
  · rintro p rfl hv
    exact absurd hv hvec'
  · rintro p rfl hv
    exact absurd hv hvec'

end

end Alcor.Proofs.TinyScheme
