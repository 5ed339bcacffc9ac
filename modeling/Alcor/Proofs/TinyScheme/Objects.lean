import Alcor.Proofs.TinyScheme.Allocate

/-!
# `Alcor.Proofs.TinyScheme.Objects`: new objects

`get_cell` fills the cell it takes and keeps it in the list of recent
objects, which hangs from `sink`; a second cell is taken for that. The
type and the contents of the object come afterwards.

* `pushRecentAlloc_spec`, `getCell_spec`: the two functions.
* `mkObject_spec`: the new object is reached from `sink`, it was not in
  use before, and all that can be reached from the roots is as before
  (`Allocated`). A vector, whose cells are next to each other, has a
  lemma of its own in `Vectors.lean`.
-/

set_option autoImplicit false

namespace Alcor.Proofs.TinyScheme

open Lib.Marking Alcor.TinyScheme Alcor.TinyScheme.Heap Alcor.TinyScheme.Scheme

variable {free' : List Nat} {c : Cell}

section
variable {conf : Conf} {s s' : Scheme} {free : List Nat} {out W : Set Nat} {as : List Nat}
  {h : Heap} {a b q x : Nat}

theorem Rewritten.keeps (hs : Sound conf s free out) (hw : Rewritten conf s free out W h)
    (hW : ∀ p ∈ W, ¬ Reaches (follow conf.sink s.heap) as p) :
    Kept conf s as { s with heap := h } := by
  have hspecial : ∀ p ∈ specials conf, p ∉ W :=
    fun p hp hin => hs.layout.not_special (hw.inside p hin) hp
  refine ⟨rfl, fun _ => id, ?_, ?_, ?_⟩
  · intro p hp _ _
    exact hw.outside p (hspecial p hp)
  · exact ⟨(s.heap conf.nil).marked, hw.outside _ (hspecial _ (mem_specials_nil conf))⟩
  · intro p _ hr
    exact hw.outside p fun hin => hW p hin hr

/-- The list of recent objects begins with `q`. -/
theorem Sound.setSink (hs : Sound conf s free out) (hq : Root conf s q) :
    Sound conf { s with heap := setCar s.heap conf.sink q } free out ∧
      ∀ a, Root conf s a → Root conf { s with heap := setCar s.heap conf.sink q } a := by
  have hat : ∀ p, p ≠ conf.sink → setCar s.heap conf.sink q p = s.heap p :=
    fun p hp => Function.update_of_ne hp _ _
  have hsink : setCar s.heap conf.sink q conf.sink = (s.heap conf.sink).setCar q :=
    Function.update_self _ _ _
  have hfollow : ∀ p, follow conf.sink (setCar s.heap conf.sink q) p =
      follow conf.sink s.heap p := by
    intro p
    by_cases hp : p = conf.sink
    · rw [follow, follow, if_pos hp, if_pos hp]
    · rw [follow_of_ne hp, follow_of_ne hp, children, children, hat p hp]
  have hvector : ∀ p, Vector (setCar s.heap conf.sink q) p ↔ Vector s.heap p := by
    intro p
    by_cases hp : p = conf.sink
    · subst hp
      rw [Vector, Vector, hsink]
      exact Iff.rfl
    · rw [Vector, Vector, hat p hp]
  have hmarked : ∀ p, isMark (setCar s.heap conf.sink q) p = isMark s.heap p := by
    intro p
    by_cases hp : p = conf.sink
    · subst hp
      rw [isMark, hsink]
      rfl
    · rw [isMark, hat p hp]
      rfl
  have hzero : ∀ p, (setCar s.heap conf.sink q p).flagZero = (s.heap p).flagZero := by
    intro p
    by_cases hp : p = conf.sink
    · subst hp
      rw [hsink]
      rfl
    · rw [hat p hp]
  have hroot : ∀ a, Root conf s a → Root conf { s with heap := setCar s.heap conf.sink q } a := by
    intro a ha
    refine ⟨⟨ha.mem, ha.ne_sink, fun v hv hin => ?_⟩, (hzero a).trans ha.used⟩
    exact ha.outer v ((hvector v).mp hv) ((hfollow v).subst hin)
  have hst := hs.storage
  refine ⟨?_, hroot⟩
  refine ⟨⟨hs.layout.size, hs.layout.distinct, hs.layout.zero, hs.layout.positive,
    hs.layout.outside, hs.layout.apart, hs.layout.descending⟩,
    ⟨hst.zero, ?_, ?_, ?_, ?_, ?_⟩, ?_, ?_, ?_, ?_, ?_, ?_, ?_, hs.ascending, hs.fcells, hs.inside,
    hs.disjoint, ?_, ?_, ?_, fun r => hroot _ (hs.registers r), ?_⟩
  · intro p
    by_cases hp : p = conf.sink
    · subst hp
      show Shaped (setCar s.heap conf.sink q conf.sink)
      rw [hsink]
      exact ⟨(hst.shaped conf.sink).vector, fun _ => ⟨_, _, rfl⟩⟩
    · show Shaped (setCar s.heap conf.sink q p)
      rw [hat p hp]
      exact hst.shaped p
  · intro p hp
    exact (hfollow p).trans (hst.outside p hp)
  · intro p y hy
    exact hst.inside p y ((hfollow p).subst hy)
  · intro v hv y hy p hp
    exact hst.only v ((hvector v).mp hv) y ((hfollow v).subst hy) p ((hfollow p).subst hp)
  · intro v hv y hy
    have hel := hst.element v ((hvector v).mp hv) y ((hfollow v).subst hy)
    exact ⟨fun hvec => hel.1 ((hvector y).mp hvec), hel.2⟩
  · exact fun p hp => hs.marked p ((hmarked p).symm.trans hp)
  · exact fun p hp hnil => (hmarked p).trans (hs.held p hp hnil)
  · intro p hp hne
    show (setCar s.heap conf.sink q p).atom = true ∧ ¬ Vector (setCar s.heap conf.sink q) p
    rw [hat p hne, hvector]
    exact hs.constants p hp hne
  · intro v hv y hy
    exact hs.element v ((hvector v).mp hv) y ((hfollow v).subst hy)
  · exact fun p hin => hs.sinkless p ((hfollow p).subst hin)
  · intro p hp hne hatom
    have hatom' : (setCar s.heap conf.sink q p).atom = false := hatom
    show (setCar s.heap conf.sink q p).car ≠ 0 ∧ (setCar s.heap conf.sink q p).cdr ≠ 0
    rw [hat p hne] at hatom' ⊢
    exact hs.linked p hp hne hatom'
  · refine Leads.congr hs.chain fun y hy => ?_
    show (setCar s.heap conf.sink q y).cdr = _
    rw [hat y (hs.layout.ne_sink (hs.inside y hy))]
    rfl
  · intro y hy
    show (setCar s.heap conf.sink q y).flagZero = true ↔ _
    rw [hzero]
    exact hs.zero y hy
  · intro y hy hz
    have hz' : (setCar s.heap conf.sink q y).flagZero = true := hz
    show ∃ next, setCar s.heap conf.sink q y = _
    rw [hat y (hs.layout.ne_sink hy)] at hz' ⊢
    exact hs.blank y hy hz'
  · intro p hne hused y hy
    have hused' : (setCar s.heap conf.sink q p).flagZero = false := hused
    have hy' : y ∈ children (setCar s.heap conf.sink q) p := hy
    show (setCar s.heap conf.sink q y).flagZero = false
    rw [hat p hne] at hused'
    rw [children, hat p hne] at hy'
    rw [hzero]
    exact hs.live p hne hused' y hy'
  · show Root conf { s with heap := setCar s.heap conf.sink q }
      (setCar s.heap conf.sink q conf.sink).car
    rw [hsink]
    exact hroot q hq

theorem setSink_keeps (hs : Sound conf s free out) :
    Kept conf s as { s with heap := setCar s.heap conf.sink q } := by
  have hat : ∀ p, p ≠ conf.sink → setCar s.heap conf.sink q p = s.heap p :=
    fun p hp => Function.update_of_ne hp _ _
  refine ⟨rfl, fun _ => id, fun p _ hne _ => hat p hne, ?_, ?_⟩
  · exact ⟨(s.heap conf.nil).marked, hat _ hs.ne_nil_sink⟩
  · exact fun p hp _ => hat p (hs.layout.ne_sink hp)

/-! ### The list of recent objects -/

/-- `recent` was put in front of the list of recent objects. -/
structure Pushed (conf : Conf) (as : List Nat) (recent : Nat) (s s' : Scheme) : Prop where
  sound : ∃ free', Sound conf s' free' ∅
  kept : Kept conf s as s'
  roots : ∀ q, Reaches (follow conf.sink s.heap) as q → Root conf s q → Root conf s' q
  noMemory : s'.noMemory = false
  holder : ∃ k ∈ segmentCells conf s', car s'.heap conf.sink = k ∧
    s'.heap k = ⟨.tPair, false, true, false, false, .cons recent (car s.heap conf.sink)⟩ ∧
    ¬ Reaches (follow conf.sink s.heap) as k

theorem Root.ne_zero (hs : Sound conf s free out) (hx : Root conf s x) : x ≠ 0 :=
  fun h => hs.storage.zero (h ▸ hx.mem)

/-- A cell that was out was not in use before. -/
theorem Carries.fresh {out' : Set Nat} (hs : Sound conf s free out)
    (has : ∀ a ∈ as, Root conf s a) (hc : Carries conf as s s' free' out') (hout : x ∈ out')
    (hx : x ∈ segmentCells conf s') : ¬ Reaches (follow conf.sink s.heap) as x := by
  intro hr
  have hzero := (hc.sound.zero x hx).mpr (.inr hout)
  obtain ⟨hcell, hused⟩ := hs.reached has hr
  rcases mem_cells.mp hcell with h | h
  · exact hc.sound.layout.not_special hx h
  · rw [hc.kept.reached x h hr, hused] at hzero
    cases hzero

theorem Sound.out_not_vector (hs : Sound conf s free out) (hout : x ∈ out)
    (hx : x ∈ segmentCells conf s) : ¬ Vector s.heap x := by
  obtain ⟨next, hnext⟩ := hs.blank x hx ((hs.zero x hx).mpr (.inr hout))
  rw [Vector, hnext]
  intro h
  cases h

theorem getCellX_noMemory (conf : Conf) (hm : s.noMemory = true) (a b : Nat) :
    ∃ x s', getCellX conf s a b = some (x, s') ∧ s'.noMemory = true := by
  by_cases hfree : s.freeCell = conf.nil
  · have hslow : getCellX conf s a b = getCellSlow conf s a b := if_neg fun h => h hfree
    rw [hslow, getCellSlow, if_pos hm]
    exact ⟨_, _, rfl, hm⟩
  · have hfast : getCellX conf s a b = some (takeCell s) := if_pos hfree
    exact ⟨_, _, hfast, hm⟩

theorem pushRecentAlloc_noMemory (conf : Conf) (hm : s.noMemory = true) (a b : Nat) :
    ∃ s', pushRecentAlloc conf s a b = some s' ∧ s'.noMemory = true := by
  obtain ⟨x, s₁, hget, hm₁⟩ := getCellX_noMemory conf hm a b
  rw [pushRecentAlloc, hget, Option.map_some]
  exact ⟨_, rfl, hm₁⟩

/-- The cells that were taken are filled. -/
theorem Carries.rewrite {out' : Set Nat} (hs : Sound conf s free out)
    (has : ∀ a ∈ as, Root conf s a) (hc : Carries conf as s s' free' out')
    (hw : Rewritten conf s' free' out' out' h) :
    Carries conf as s { s' with heap := h } free' ∅ := by
  have hfresh : ∀ p ∈ out', ¬ Reaches (follow conf.sink s'.heap) as p := by
    intro p hp hr
    have hzero := (hc.sound.zero p (hw.inside p hp)).mpr (.inr hp)
    rw [(hc.sound.reached (hc.roots_of has) hr).2] at hzero
    cases hzero
  have hsink : conf.sink ∉ out' := fun hin =>
    hc.sound.layout.ne_sink (hw.inside _ hin) rfl
  refine ⟨hc.sound.rewrite hw, ?_, fun q hq hq' => hw.root hc.sound (hc.roots q hq hq'), ?_,
    hc.noMemory⟩
  · exact hc.kept.trans hs has (hw.keeps hc.sound hfresh) fun _ ha => .of_mem ha
  · exact (hw.outside _ hsink).trans hc.sink

/-- A cell that was taken is a root when it was filled, if no new vector has it as an element. -/
theorem Rewritten.root_new (hs : Sound conf s free out) (hw : Rewritten conf s free out W h)
    (hx : x ∈ out) (houter : ∀ v ∈ W, Vector h v → x ∉ children h v) :
    Root conf { s with heap := h } x := by
  have hxW := hw.all x hx
  have hseg := hw.inside x hxW
  refine ⟨⟨mem_cells.mpr (.inr hseg), hs.layout.ne_sink hseg, fun v hv hin => ?_⟩, hw.used x hxW⟩
  have hv' : Vector h v := hv
  have hin' : x ∈ follow conf.sink h v := hin
  by_cases hvW : v ∈ W
  · rw [follow_of_ne (hs.layout.ne_sink (hw.inside v hvW))] at hin'
    exact houter v hvW hv' hin'
  · rw [hw.follow_old hvW] at hin'
    exact hw.unlinked hs hvW hin' hx

/-- The cell `x` that was taken is filled with a pair or an atom. -/
theorem Carries.fill (hs : Sound conf s free out) (has : ∀ a ∈ as, Root conf s a)
    (hc : Carries conf as s s' free' {x}) (hx : x ∈ segmentCells conf s')
    (htype : c.type ≠ .tVector) (hunmarked : c.marked = false) (hused : c.flagZero = false)
    (hcell : c.atom = true ∨
      ∃ a d, c.object = .cons a d ∧ a ≠ 0 ∧ d ≠ 0 ∧ Root conf s' a ∧ Root conf s' d) :
    Carries conf as s { s' with heap := Function.update s'.heap x c } free' ∅ ∧
      Root conf { s' with heap := Function.update s'.heap x c } x := by
  have hw : Rewritten conf s' free' {x} {x} (Function.update s'.heap x c) :=
    rewritten_cell hx (fun y hy => hy) (fun hin => hc.sound.disjoint x hin rfl)
      (hc.sound.out_not_vector rfl hx) htype hunmarked hused hcell
  refine ⟨hc.rewrite hs has hw, hw.root_new hc.sound rfl ?_⟩
  rintro v rfl hv
  rw [Vector, Function.update_self] at hv
  exact absurd hv htype

/-- `push_recent_alloc`: there is no memory, or the object was put into the list. -/
theorem pushRecentAlloc_spec (hs : Sound conf s free ∅) {recent extra : Nat}
    (hr : Root conf s recent) (he : Root conf s extra) (hm : s.noMemory = false) :
    ∃ s', pushRecentAlloc conf s recent extra = some s' ∧
      (s'.noMemory = true ∨ Pushed conf (roots conf s recent extra) recent s s') := by
  have hroots := roots_root hs hr he
  obtain ⟨k, s₁, hget, hcase⟩ := getCellX_spec hs hr he hm
  rw [pushRecentAlloc, hget, Option.map_some]
  refine ⟨_, rfl, ?_⟩
  rcases hcase with hno | ⟨hk, free₁, hc⟩
  · exact .inl hno
  · have hmem : recent ∈ roots conf s recent extra := by simp [roots]
    have hmem' : car s.heap conf.sink ∈ roots conf s recent extra := by simp [roots]
    have hrecent := hc.roots_of hroots _ hmem
    have hrest := hc.roots_of hroots _ hmem'
    obtain ⟨hc₂, hkroot⟩ := hc.fill hs hroots hk
      (c := ⟨.tPair, false, true, false, false, .cons recent (car s.heap conf.sink)⟩)
      (fun h => by cases h) rfl rfl
      (.inr ⟨_, _, rfl, hrecent.ne_zero hc.sound, hrest.ne_zero hc.sound, hrecent, hrest⟩)
    have hne : conf.sink ≠ k := fun heq => hc.sound.layout.ne_sink hk heq.symm
    have hcar : ∀ c, car (Function.update s₁.heap k c) conf.sink = car s.heap conf.sink := by
      intro c
      rw [Heap.car, Function.update_of_ne hne, hc.sink]
      rfl
    -- The heap of the source, written as that of the lemmas.
    have hheap : ∀ d, setCar (setCdr (Function.update s₁.heap k
        ⟨.tPair, false, true, false, false, .cons recent d⟩) k
          (car (Function.update s₁.heap k ⟨.tPair, false, true, false, false, .cons recent d⟩)
            conf.sink)) conf.sink k =
        setCar (Function.update s₁.heap k
          ⟨.tPair, false, true, false, false, .cons recent (car s.heap conf.sink)⟩) conf.sink k := by
      intro d
      rw [hcar, setCdr, Function.update_self, Function.update_idem]
      rfl
    right
    dsimp only
    rw [hheap]
    obtain ⟨hsink, hroot⟩ := hc₂.sound.setSink hkroot
    refine ⟨⟨free₁, hsink⟩, ?_, fun q hq hq' => hroot q (hc₂.roots q hq hq'), ?_, k, hk, ?_, ?_,
      hc.fresh hs hroots rfl hk⟩
    · exact hc₂.kept.trans hs hroots (setSink_keeps hc₂.sound) fun _ ha => .of_mem ha
    · exact hc.noMemory.trans hm
    · show (setCar _ conf.sink k conf.sink).car = k
      rw [setCar, Function.update_self]
      rfl
    · show setCar _ conf.sink k k = _
      rw [setCar, Function.update_of_ne hne.symm, Function.update_self]

/-! ### Objects of one cell -/

/-- The object `x` with the cell `c` is new, and it is in the list of recent objects. -/
structure Allocated (conf : Conf) (as : List Nat) (x : Nat) (c : Cell) (s s' : Scheme) : Prop where
  sound : ∃ free', Sound conf s' free' ∅
  kept : Kept conf s as s'
  roots : ∀ q, Reaches (follow conf.sink s.heap) as q → Root conf s q → Root conf s' q
  noMemory : s'.noMemory = false
  cell : x ∈ segmentCells conf s'
  content : s'.heap x = c
  root : Root conf s' x
  fresh : ¬ Reaches (follow conf.sink s.heap) as x
  holder : ∃ k ∈ segmentCells conf s', k ≠ x ∧ car s'.heap conf.sink = k ∧
    s'.heap k = ⟨.tPair, false, true, false, false, .cons x (car s.heap conf.sink)⟩ ∧
    ¬ Reaches (follow conf.sink s.heap) as k

/-- The list of recent objects gets an object `x` that leads to what must be kept. -/
theorem Pushed.allocated {s₁ : Scheme} {free₁ : List Nat} (hs : Sound conf s free ∅)
    (has : ∀ a ∈ as, Root conf s a) (hc : Carries conf as s s₁ free₁ ∅)
    (hx : x ∈ segmentCells conf s₁) (hcell : s₁.heap x = c)
    (hfresh : ¬ Reaches (follow conf.sink s.heap) as x) {bs : List Nat} (hxb : x ∈ bs)
    (hbs : ∀ b ∈ bs, Root conf s₁ b) (hreach : ∀ a ∈ as, Reaches (follow conf.sink s₁.heap) bs a)
    (hp : Pushed conf bs x s₁ s') : Allocated conf as x c s s' := by
  obtain ⟨k, hk, hcar, hkcell, hkfresh⟩ := hp.holder
  have hxr : Reaches (follow conf.sink s₁.heap) bs x := .of_mem hxb
  have hkept := hc.kept.trans hs has hp.kept hreach
  refine ⟨hp.sound, hkept, ?_, hp.noMemory, hp.kept.grows x hx, ?_, hp.roots x hxr (hbs x hxb),
    hfresh, k, hk, ?_, hcar, ?_, ?_⟩
  · intro q hq hroot
    exact hp.roots q ((hc.kept.reaches hs has hq).trans hreach) (hc.roots q hq hroot)
  · rw [hp.kept.reached x hx hxr, hcell]
  · rintro rfl
    exact hkfresh hxr
  · rw [hkcell, Heap.car, hc.sink]
    rfl
  · exact fun hr => hkfresh ((hc.kept.reaches hs has hr).trans hreach)

/-- The roots of a collection are the same later, apart from the two that are given. -/
theorem mem_roots_later {s₁ : Scheme} {free₁ : List Nat} {out₁ : Set Nat} {c d : Nat}
    (hc : Carries conf as s s₁ free₁ out₁) (hq : q ∈ roots conf s a b) :
    q = a ∨ q = b ∨ q ∈ roots conf s₁ c d := by
  have hcar : car s₁.heap conf.sink = car s.heap conf.sink := by
    rw [Heap.car, hc.sink]
    rfl
  simp only [roots, hcar, hc.kept.registers, List.mem_cons, List.not_mem_nil, or_false] at hq ⊢
  tauto

/-- `get_cell`: there is no memory, or a new pair keeps `a` and `b`. -/
theorem getCell_spec (hs : Sound conf s free ∅) (ha : Root conf s a) (hb : Root conf s b)
    (hm : s.noMemory = false) :
    ∃ x s', getCell conf s a b = some (x, s') ∧ (s'.noMemory = true ∨
      Allocated conf (roots conf s a b) x ⟨.tPair, false, false, false, false, .cons a b⟩ s s') := by
  have hroots := roots_root hs ha hb
  obtain ⟨x, s₁, hget, hcase⟩ := getCellX_spec hs ha hb hm
  rw [getCell, hget, Option.bind_some]
  dsimp only
  rcases hcase with hno | ⟨hx, free₁, hc⟩
  · obtain ⟨s', hpush, hno'⟩ := pushRecentAlloc_noMemory conf
      (s := { s₁ with
        heap := Function.update s₁.heap x ⟨.tPair, false, false, false, false, .cons a b⟩ }) hno x
      conf.nil
    rw [hpush]
    exact ⟨x, s', rfl, .inl hno'⟩
  · have hra := hc.roots_of hroots a (by simp [roots])
    have hrb := hc.roots_of hroots b (by simp [roots])
    obtain ⟨hc₂, hxroot⟩ := hc.fill hs hroots hx
      (c := ⟨.tPair, false, false, false, false, .cons a b⟩) (fun h => by cases h) rfl rfl
      (.inr ⟨_, _, rfl, hra.ne_zero hc.sound, hrb.ne_zero hc.sound, hra, hrb⟩)
    have hnil : Root conf { s₁ with
        heap := Function.update s₁.heap x ⟨.tPair, false, false, false, false, .cons a b⟩ }
        conf.nil :=
      hc₂.sound.constant (mem_specials_nil conf) hs.ne_nil_sink
    obtain ⟨s', hpush, hcase'⟩ := pushRecentAlloc_spec hc₂.sound hxroot hnil (hc₂.noMemory.trans hm)
    rw [hpush]
    refine ⟨x, s', rfl, hcase'.imp_right fun hp => ?_⟩
    have hfresh := hc.fresh hs hroots rfl hx
    refine hp.allocated hs hroots hc₂ hx (Function.update_self _ _ _) hfresh (by simp [roots])
      (roots_root hc₂.sound hxroot hnil) fun q hq => ?_
    have hxr : Reaches (follow conf.sink (Function.update s₁.heap x
        ⟨.tPair, false, false, false, false, .cons a b⟩)) (roots conf { s₁ with
          heap := Function.update s₁.heap x ⟨.tPair, false, false, false, false, .cons a b⟩ } x
          conf.nil) x := .of_mem (by simp [roots])
    have hlink : ∀ p ∈ [a, b], Root conf s₁ p → p ∈ follow conf.sink (Function.update s₁.heap x
        ⟨.tPair, false, false, false, false, .cons a b⟩) x := by
      intro p hp hroot
      rw [follow_of_ne hxroot.ne_sink, children, Function.update_self]
      exact List.mem_filter.mpr ⟨hp, by simpa using hroot.ne_zero hc.sound⟩
    rcases mem_roots_later hc₂ hq with rfl | rfl | h
    · exact hxr.tail (hlink q (by simp) hra)
    · exact hxr.tail (hlink q (by simp) hrb)
    · exact .of_mem h

/-- The object gets its type and its contents. -/
theorem Allocated.retype {c' : Cell} (has : ∀ a ∈ as, Root conf s a)
    (ha : Allocated conf as x c s s') (hvec : c.type ≠ .tVector) (htype : c'.type ≠ .tVector)
    (hunmarked : c'.marked = false) (hused : c'.flagZero = false)
    (hcell : c'.atom = true ∨ ∃ a d, c'.object = .cons a d ∧ a ∈ as ∧ d ∈ as) :
    Allocated conf as x c' s { s' with heap := Function.update s'.heap x c' } := by
  obtain ⟨free', hs'⟩ := ha.sound
  obtain ⟨k, hk, hkx, hcar, hkcell, hkfresh⟩ := ha.holder
  have hne : conf.sink ≠ x := fun heq => ha.root.ne_sink heq.symm
  have hroots : ∀ q ∈ as, Root conf s' q := fun q hq => ha.roots q (.of_mem hq) (has q hq)
  have hw : Rewritten conf s' free' ∅ {x} (Function.update s'.heap x c') := by
    refine rewritten_cell ha.cell (fun y hy => absurd hy id) (ha.root.not_free hs') ?_ htype
      hunmarked hused (hcell.imp_right ?_)
    · rw [Vector, ha.content]
      exact hvec
    · rintro ⟨a, d, hobj, hain, hdin⟩
      exact ⟨a, d, hobj, (hroots a hain).ne_zero hs', (hroots d hdin).ne_zero hs', hroots a hain,
        hroots d hdin⟩
  refine ⟨⟨free', hs'.rewrite hw⟩, ⟨ha.kept.registers, ha.kept.grows, ?_, ?_, ?_⟩,
    fun q hq hroot => hw.root hs' (ha.roots q hq hroot), ha.noMemory, ha.cell,
    Function.update_self _ _ _, hw.root hs' ha.root, ha.fresh, k, hk, hkx, ?_, ?_, hkfresh⟩
  · intro p hp hsink hnil
    refine (Function.update_of_ne (fun heq => ?_) _ _).trans (ha.kept.constants p hp hsink hnil)
    exact hs'.layout.not_special ha.cell (heq ▸ hp)
  · obtain ⟨m, hm⟩ := ha.kept.nil
    exact ⟨m, (Function.update_of_ne (hs'.layout.ne_nil ha.cell).symm _ _).trans hm⟩
  · intro p hp hr
    refine (Function.update_of_ne (fun heq => ?_) _ _).trans (ha.kept.reached p hp hr)
    exact ha.fresh (heq ▸ hr)
  · show (Function.update s'.heap x c' conf.sink).car = k
    rw [Function.update_of_ne hne]
    exact hcar
  · show Function.update s'.heap x c' k = _
    rw [Function.update_of_ne hkx]
    exact hkcell

/-- A new object of one cell: there is no memory, or it is there and nothing else has changed. -/
theorem mkObject_spec (hs : Sound conf s free ∅) (ha : Root conf s a) (hb : Root conf s b)
    (hm : s.noMemory = false) {type : SchemeType} {immutable atom : Bool} {object : Object}
    (htype : type ≠ .tVector) (hused : atom = true ∨ type ≠ .tNone)
    (hcell : atom = true ∨
      ∃ c d, object = .cons c d ∧ c ∈ roots conf s a b ∧ d ∈ roots conf s a b) :
    ∃ x s', mkObject conf s a b type immutable atom object = some (x, s') ∧ (s'.noMemory = true ∨
      Allocated conf (roots conf s a b) x ⟨type, false, immutable, atom, false, object⟩ s s') := by
  obtain ⟨x, s', hget, hcase⟩ := getCell_spec hs ha hb hm
  rw [mkObject, hget, Option.map_some]
  refine ⟨x, _, rfl, hcase.imp_right fun hnew => ?_⟩
  refine hnew.retype (roots_root hs ha hb) (fun h => by cases h) htype rfl ?_ hcell
  rcases hused with rfl | hne
  · simp [Cell.flagZero]
  · simp [Cell.flagZero, hne]

end

end Alcor.Proofs.TinyScheme
