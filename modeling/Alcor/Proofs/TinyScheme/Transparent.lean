import Alcor.Proofs.TinyScheme.Machine

/-!
# `Alcor.Proofs.TinyScheme.Transparent`: runs with and without the collector

An allocation may collect, and may ask for a segment. Either way the
cells that the interpreter sees stay as they are, and the new object is
in cells it did not see (`Grown`). So the image of the new object can be
chosen anew, and the two machines stay the same (`Grown.same`,
`Grown.good`).

* `mkObject_same`, `mkVector_same`, `gc_same`: allocations and
  collections on both machines.
* `step_same`: an operation on both machines.
* `run_observe`: the interpreter cannot tell the machine with the
  collector from the one with unlimited memory.
-/

set_option autoImplicit false

namespace Alcor.Proofs.TinyScheme

open Lib.Marking Alcor.TinyScheme Alcor.TinyScheme.Heap Alcor.TinyScheme.Scheme

variable {n : Nat} {h : Heap}

section
variable {conf : Conf} {m m' : Machine} {s s' : Scheme} {u u' : Unlimited} {φ φ' : Nat → Nat}
  {free ks : List Nat} {as : List Nat} {out X : Set Nat} {a b p q x : Nat}

/-! ### What a collection finds -/

/-- The list of recent objects leads to its cells and to the objects. -/
theorem Recents.reached {xs : List Nat} (hs : Sound conf s free out)
    (hks : ∀ k ∈ ks, k ∈ segmentCells conf s) (hxs : ∀ x ∈ xs, x ≠ 0)
    (hp : Reaches (follow conf.sink s.heap) as p) (hr : Recents conf.nil s.heap p ks xs) :
    (∀ k ∈ ks, Reaches (follow conf.sink s.heap) as k) ∧
      ∀ x ∈ xs, Reaches (follow conf.sink s.heap) as x := by
  induction ks generalizing p xs with
  | nil =>
    cases xs with
    | nil => exact ⟨fun _ h => absurd h List.not_mem_nil, fun _ h => absurd h List.not_mem_nil⟩
    | cons x xs => exact absurd hr id
  | cons k ks ih =>
    cases xs with
    | nil => exact absurd hr id
    | cons x xs =>
      obtain ⟨rfl, hcell, hrest⟩ := hr
      have hpseg := hks p List.mem_cons_self
      have hne := hs.layout.ne_sink hpseg
      have hatom : isAtom s.heap p = false := by rw [isAtom, hcell]
      have hcdr := (hs.linked p (mem_cells.mpr (.inr hpseg)) hne hatom).2
      have hlinks : ∀ q ∈ [x, cdr s.heap p], q ≠ 0 → q ∈ follow conf.sink s.heap p := by
        intro q hq h0
        rw [follow_of_ne hne, children, hcell]
        exact List.mem_filter.mpr ⟨hq, by simpa using h0⟩
      have hnext := hp.tail (hlinks _ (List.mem_cons_of_mem _ List.mem_cons_self) hcdr)
      obtain ⟨hks', hxs'⟩ := ih (fun j hj => hks j (List.mem_cons_of_mem _ hj))
        (fun y hy => hxs y (List.mem_cons_of_mem _ hy)) hnext hrest
      have hx := hp.tail (hlinks x List.mem_cons_self (hxs x List.mem_cons_self))
      constructor
      · intro j hj
        rcases List.mem_cons.mp hj with rfl | hj
        · exact hp
        · exact hks' j hj
      · intro y hy
        rcases List.mem_cons.mp hy with rfl | hy
        · exact hx
        · exact hxs' y hy

theorem Good.recents_reached (hg : Good conf m free ks) (a b : Nat) :
    (∀ k ∈ ks, Reaches (follow conf.sink m.scheme.heap) (roots conf m.scheme a b) k) ∧
      ∀ x ∈ m.recent, Reaches (follow conf.sink m.scheme.heap) (roots conf m.scheme a b) x :=
  hg.recents.reached hg.sound hg.holders (fun x hx => (hg.recent x hx).ne_zero hg.sound)
    (.of_mem (by simp [roots]))

/-- What the interpreter sees is a constant, or the collector finds it. -/
theorem Good.reached (hg : Good conf m free ks) (a b : Nat) (hx : Visible conf m x) :
    x ∈ [conf.nil, conf.t, conf.f] ∨
      Reaches (follow conf.sink m.scheme.heap) (roots conf m.scheme a b) x := by
  have hclosed : Closed (follow conf.sink m.scheme.heap) {x | x ∈ [conf.nil, conf.t, conf.f] ∨
      Reaches (follow conf.sink m.scheme.heap) (roots conf m.scheme a b) x} := by
    rintro y (hy | hy) z hz
    · rw [hg.sound.children_special (mem_specials_of_constant hy)] at hz
      exact absurd hz List.not_mem_nil
    · exact .inr (hy.tail hz)
  refine hclosed.of_reaches (fun h hh => ?_) hx
  rcases mem_handles.mp hh with hh | ⟨r, rfl⟩ | hh
  · exact .inl hh
  · exact .inr (.of_mem (by cases r <;> simp [roots]))
  · exact .inr ((hg.recents_reached a b).2 h hh)

/-- What the interpreter sees is as before, apart from the mark of `nil`. -/
theorem Good.kept (hg : Good conf m free ks) (hk : Kept conf m.scheme (roots conf m.scheme a b) s')
    (hx : Visible conf m x) : ∃ b, s'.heap x = (m.scheme.heap x).setMark b := by
  have hsame : s'.heap x = m.scheme.heap x → ∃ b, s'.heap x = (m.scheme.heap x).setMark b :=
    fun h => ⟨(m.scheme.heap x).marked, h⟩
  by_cases hnil : x = conf.nil
  · subst hnil
    exact hk.nil
  · rcases mem_cells.mp (hg.used hx).1 with hs | hs
    · exact hsame (hk.constants x hs (hg.ne_sink hx) hnil)
    · refine hsame (hk.reached x hs ((hg.reached a b hx).resolve_left fun h => ?_))
      exact hg.sound.layout.not_special hs (mem_specials_of_constant h)

/-- A cell that no root leads to is not seen. -/
theorem Good.not_visible (hg : Good conf m free ks) (hs' : Sound conf s' as out)
    (hx : x ∈ segmentCells conf s')
    (hfresh : ¬ Reaches (follow conf.sink m.scheme.heap) (roots conf m.scheme a b) x) :
    ¬ Visible conf m x := by
  intro hv
  rcases hg.reached a b hv with h | h
  · exact hs'.layout.not_special hx (mem_specials_of_constant h)
  · exact hfresh h

/-! ### A new object -/

/-- The machine `m'` has a new object in the cells `X`, and sees what `m` has seen. -/
structure Grown (conf : Conf) (m m' : Machine) (X : Set Nat) : Prop where
  registers : m'.scheme.registers = m.scheme.registers
  old : ∀ y, Visible conf m y → ∃ b, m'.scheme.heap y = (m.scheme.heap y).setMark b
  recent : ∀ x ∈ m'.recent, x ∈ m.recent ∨ x ∈ X
  links : ∀ x ∈ X, ∀ q ∈ follow conf.sink m'.scheme.heap x, Visible conf m q ∨ q ∈ X
  fresh : ∀ x ∈ X, ¬ Visible conf m x

theorem Grown.children (hgrown : Grown conf m m' X) (hx : Visible conf m x) :
    children m'.scheme.heap x = TinyScheme.children m.scheme.heap x := by
  obtain ⟨b, hb⟩ := hgrown.old x hx
  rw [TinyScheme.children, hb]
  rfl

theorem Grown.visible (hg : Good conf m free ks) (hgrown : Grown conf m m' X)
    (hx : Visible conf m' x) : Visible conf m x ∨ x ∈ X := by
  have hclosed : Closed (follow conf.sink m'.scheme.heap) {x | Visible conf m x ∨ x ∈ X} := by
    rintro y (hy | hy) z hz
    · rw [follow_of_ne (hg.ne_sink hy), hgrown.children hy] at hz
      exact .inl (hy.link hg hz)
    · exact hgrown.links y hy z hz
  refine hclosed.of_reaches (fun h hh => ?_) hx
  rcases mem_handles.mp hh with hh | ⟨r, rfl⟩ | hh
  · exact .inl (.of_mem (mem_handles_constant hh))
  · rw [hgrown.registers]
    exact .inl (.of_mem (mem_handles_register r))
  · exact (hgrown.recent h hh).imp_left fun h => .of_mem (mem_handles_recent h)

theorem Grown.vector (hgrown : Grown conf m m' X) (hx : Visible conf m x) :
    (Vector m'.scheme.heap x ↔ Vector m.scheme.heap x) ∧
      isAtom m'.scheme.heap x = isAtom m.scheme.heap x ∧
      slots m'.scheme.heap x = slots m.scheme.heap x := by
  obtain ⟨b, hb⟩ := hgrown.old x hx
  rw [Vector, isAtom, slots, hb]
  exact ⟨Iff.rfl, rfl, rfl⟩

/-- The machine stays good, with the list `ks'` of recent objects. -/
theorem Grown.good {free' ks' : List Nat} (hg : Good conf m free ks)
    (hgrown : Grown conf m m' X) (hsound : Sound conf m'.scheme free' ∅)
    (hm : m'.scheme.noMemory = false)
    (hrecents : Recents conf.nil m'.scheme.heap (car m'.scheme.heap conf.sink) ks' m'.recent)
    (hcells : ∀ k ∈ ks', k ∈ segmentCells conf m'.scheme)
    (hhidden : ∀ k ∈ ks', ¬ Visible conf m k ∧ k ∉ X)
    (hroots : ∀ x ∈ m'.recent, Root conf m'.scheme x)
    (hpairs : ∀ v ∈ X, Vector m'.scheme.heap v → ∀ x ∈ TinyScheme.children m'.scheme.heap v,
      isAtom m'.scheme.heap x = false) : Good conf m' free' ks' := by
  refine ⟨hsound, hm, hrecents, hcells, fun k hk hv => ?_, hroots, fun v hv hvec x hx => ?_⟩
  · rcases hgrown.visible hg hv with h | h
    · exact (hhidden k hk).1 h
    · exact (hhidden k hk).2 h
  · rcases hgrown.visible hg hv with h | h
    · rw [hgrown.children h] at hx
      rw [(hgrown.vector (h.link hg hx)).2.1]
      exact hg.pairs v h ((hgrown.vector h).1.mp hvec) x hx
    · exact hpairs v h hvec x hx

theorem rename_setMark (φ : Nat → Nat) (c : Cell) (b : Bool) : rename φ (c.setMark b) = rename φ c :=
  rfl

/-- Renaming looks at the links of pairs only. -/
theorem rename_congr {c : Cell} (h : c.atom = false → φ' c.car = φ c.car ∧ φ' c.cdr = φ c.cdr) :
    rename φ' c = rename φ c := by
  unfold rename
  by_cases hatom : c.atom = true
  · rw [if_pos hatom, if_pos hatom]
  · obtain ⟨hcar, hcdr⟩ := h (Bool.eq_false_of_not_eq_true hatom)
    rw [if_neg hatom, if_neg hatom, hcar, hcdr]

/-- The machines stay the same, where `φ'` takes the new cells to new cells. -/
theorem Grown.same (hg : Good conf m free ks) (hgrown : Grown conf m m' X)
    (hsame : Same conf m u φ) (hregisters : u'.registers = u.registers)
    (hrecent : u'.recent = m'.recent.map φ') (hnext : u.next ≤ u'.next)
    (hheap : ∀ y < u.next, u'.heap y = u.heap y) (hφ : ∀ y, Visible conf m y → φ' y = φ y)
    (hnew : ∀ x ∈ X, u'.heap (φ' x) = rename φ' (m'.scheme.heap x))
    (hbounds : ∀ x ∈ X, u.next ≤ φ' x ∧ φ' x < u'.next)
    (hinj : ∀ x ∈ X, ∀ y ∈ X, φ' x = φ' y → x = y)
    (hrow : ∀ v ∈ X, Vector m'.scheme.heap v → ∀ i < slots m'.scheme.heap v,
      φ' (v + 1 + i) = φ' v + 1 + i) : Same conf m' u' φ' := by
  refine ⟨fun r => ?_, hrecent, ?_, fun x hx => ?_, fun x y hx hy heq => ?_, fun v hv hvec i hi => ?_,
    fun x hx => ?_⟩
  · rw [hregisters, hgrown.registers, hφ _ (.of_mem (mem_handles_register r))]
    exact hsame.registers r
  · obtain ⟨hnil, ht, hf⟩ := hsame.constants
    refine ⟨(hφ _ ?_).trans hnil, (hφ _ ?_).trans ht, (hφ _ ?_).trans hf⟩
    · exact visible_get conf m .nil
    · exact visible_get conf m .t
    · exact visible_get conf m .f
  · rcases hgrown.visible hg hx with h | h
    · obtain ⟨b, hb⟩ := hgrown.old x h
      rw [hφ x h, hheap _ (hsame.below x h), hsame.cell x h, hb, rename_setMark]
      refine (rename_congr fun hatom => ?_).symm
      obtain ⟨-, -, -, hcar, hcdr⟩ := hg.pair h hatom
      exact ⟨hφ _ (h.link hg hcar), hφ _ (h.link hg hcdr)⟩
    · exact hnew x h
  · rcases hgrown.visible hg hx with h | h
    · rcases hgrown.visible hg hy with h' | h'
      · rw [hφ x h, hφ y h'] at heq
        exact hsame.injective x y h h' heq
      · have := hsame.below x h
        have := (hbounds y h').1
        rw [hφ x h] at heq
        omega
    · rcases hgrown.visible hg hy with h' | h'
      · have := hsame.below y h'
        have := (hbounds x h).1
        rw [hφ y h'] at heq
        omega
      · exact hinj x h y h' heq
  · rcases hgrown.visible hg hv with h | h
    · obtain ⟨hvec', -, hslots⟩ := hgrown.vector h
      have hin : v + 1 + i ∈ TinyScheme.children m.scheme.heap v := by
        rw [children_vector (hvec'.mp hvec)]
        exact List.mem_map_of_mem (List.mem_range.mpr (hslots ▸ hi))
      rw [hφ v h, hφ _ (h.link hg hin)]
      exact hsame.row v h (hvec'.mp hvec) i (hslots ▸ hi)
    · exact hrow v h hvec i hi
  · rcases hgrown.visible hg hx with h | h
    · rw [hφ x h]
      exact Nat.lt_of_lt_of_le (hsame.below x h) hnext
    · exact (hbounds x h).2

/-! ### The allocations -/

/-- The list of recent objects after an allocation. -/
theorem Good.pushed (hg : Good conf m free ks) {c : Cell} (hX : ∀ y ∈ X,
      ¬ Reaches (follow conf.sink m.scheme.heap) (roots conf m.scheme a b) y)
    (hnew : Allocated conf (roots conf m.scheme a b) x c m.scheme s')
    (hholder : ∀ k, car s'.heap conf.sink = k → k ∉ X) :
    ∃ ks', Recents conf.nil s'.heap (car s'.heap conf.sink) ks' (x :: m.recent) ∧
      (∀ k ∈ ks', k ∈ segmentCells conf s') ∧ (∀ k ∈ ks', ¬ Visible conf m k ∧ k ∉ X) ∧
      ∀ y ∈ x :: m.recent, Root conf s' y := by
  obtain ⟨hks, hxs⟩ := hg.recents_reached a b
  obtain ⟨free', hs'⟩ := hnew.sound
  obtain ⟨k, hk, hkx, hcar, hcell, hfresh⟩ := hnew.holder
  have hold : ∀ j ∈ ks, s'.heap j = m.scheme.heap j :=
    fun j hj => hnew.kept.reached j (hg.holders j hj) (hks j hj)
  have hcdr : cdr s'.heap k = car m.scheme.heap conf.sink := by rw [Heap.cdr, hcell]; rfl
  refine ⟨k :: ks, ⟨hcar, ?_, ?_⟩, fun j hj => ?_, fun j hj => ?_, fun y hy => ?_⟩
  · rw [hcdr]
    exact hcell
  · rw [hcdr]
    exact hg.recents.congr hold
  · rcases List.mem_cons.mp hj with rfl | hj
    · exact hk
    · exact hnew.kept.grows j (hg.holders j hj)
  · rcases List.mem_cons.mp hj with rfl | hj
    · exact ⟨hg.not_visible hs' hk hfresh, hholder _ hcar⟩
    · exact ⟨hg.hidden j hj, fun hin => hX j hin (hks j hj)⟩
  · rcases List.mem_cons.mp hy with rfl | hy
    · exact hnew.root
    · exact hnew.roots y (hxs y hy) (hg.recent y hy)

/-- A new object of one cell, on both machines. -/
theorem make_same (hg : Good conf m free ks) (hsame : Same conf m u φ) {type : SchemeType}
    {immutable atom : Bool} {object object' : Object} (htype : type ≠ .tVector)
    (hobj : atom = true ∧ object' = object ∨ atom = false ∧ ∃ c d, object = .cons c d ∧
      object' = .cons (φ c) (φ d) ∧ Visible conf m c ∧ Visible conf m d)
    (hnew : Allocated conf (roots conf m.scheme a b) x ⟨type, false, immutable, atom, false, object⟩
      m.scheme s') :
    ∃ free' ks', Good conf ⟨s', x :: m.recent⟩ free' ks' ∧
      Same conf ⟨s', x :: m.recent⟩ (u.make type immutable atom object')
        (Function.update φ x u.next) := by
  obtain ⟨free', hs'⟩ := hnew.sound
  have hhidden : ¬ Visible conf m x := hg.not_visible hs' hnew.cell hnew.fresh
  have hφ : ∀ y, Visible conf m y → Function.update φ x u.next y = φ y :=
    fun y hy => Function.update_of_ne (fun heq : y = x => hhidden (heq ▸ hy)) _ _
  have hvec : ¬ Vector s'.heap x := by
    rw [Vector, hnew.content]
    exact htype
  have hgrown : Grown conf m ⟨s', x :: m.recent⟩ {x} := by
    refine ⟨hnew.kept.registers, fun y hy => hg.kept hnew.kept hy, fun y hy => ?_, ?_, ?_⟩
    · exact (List.mem_cons.mp hy).symm
    · rintro y rfl q hq
      have hq' : q ∈ follow conf.sink s'.heap y := hq
      rw [follow_of_ne hnew.root.ne_sink, children, hnew.content, links, if_neg htype] at hq'
      rcases hobj with ⟨hatom, -⟩ | ⟨hatom, c, d, hcons, -, hc, hd⟩
      · rw [if_pos hatom] at hq'
        exact absurd hq' List.not_mem_nil
      · rw [if_neg (by rw [hatom]; exact Bool.false_ne_true), hcons] at hq'
        have hq'' : q ∈ [c, d] := (List.mem_filter.mp hq').1
        rcases List.mem_cons.mp hq'' with rfl | h
        · exact .inl hc
        · exact .inl (List.mem_singleton.mp h ▸ hd)
    · rintro y rfl
      exact hhidden
  obtain ⟨ks', hrecents, hcells, hks', hroots⟩ := hg.pushed (X := {x})
    (fun y hy => (show y = x from hy) ▸ hnew.fresh) hnew fun k hcar hin => by
      obtain ⟨k', -, hkx, hcar', -⟩ := hnew.holder
      exact hkx ((hcar'.symm.trans hcar).trans hin)
  refine ⟨free', ks', hgrown.good hg hs' hnew.noMemory hrecents hcells hks' hroots ?_,
    hgrown.same hg hsame rfl ?_ (Nat.le_succ _) ?_ hφ ?_ ?_ ?_ ?_⟩
  · rintro v rfl hv
    exact absurd hv hvec
  · show u.next :: u.recent = Function.update φ x u.next x ::
      m.recent.map (Function.update φ x u.next)
    rw [Function.update_self, hsame.recent]
    refine congrArg (u.next :: ·) (List.map_congr_left fun y hy => ?_)
    exact (hφ y (.of_mem (mem_handles_recent hy))).symm
  · exact fun y hy => Function.update_of_ne (Nat.ne_of_lt hy) _ _
  · rintro y rfl
    show Function.update u.heap u.next _ (Function.update φ y u.next y) = rename _ (s'.heap y)
    rw [Function.update_self, Function.update_self, hnew.content, rename]
    rcases hobj with ⟨rfl, rfl⟩ | ⟨rfl, c, d, rfl, rfl, hc, hd⟩
    · rfl
    · show _ = Cell.mk _ _ _ _ _ (.cons (Function.update φ y u.next c) (Function.update φ y u.next d))
      rw [hφ c hc, hφ d hd]
      rfl
  · rintro y rfl
    rw [Function.update_self]
    exact ⟨Nat.le_refl _, Nat.lt_succ_self _⟩
  · rintro y rfl z rfl -
    rfl
  · rintro v rfl hv
    exact absurd hv hvec

/-- The image of the cells of a new vector. -/
def rowMap (φ : Nat → Nat) (x n next : Nat) : Nat → Nat :=
  fun p => if x ≤ p ∧ p < x + n then next + (p - x) else φ p

theorem rowMap_row {next : Nat} (hp : p ∈ row x n) : rowMap φ x n next p = next + (p - x) :=
  if_pos hp

theorem rowMap_out {next : Nat} (hp : p ∉ row x n) : rowMap φ x n next p = φ p := if_neg hp

/-- A new vector, on both machines. -/
theorem makeVector_same (hg : Good conf m free ks) (hsame : Same conf m u φ) {len : Nat}
    (hnew : Allocated conf (roots conf m.scheme conf.nil conf.nil) x (vectorCell len) m.scheme s')
    (helem : ∀ p ∈ row (x + 1) (len / 2 + len % 2), s'.heap p = elementCell conf.nil ∧
      p ∈ segmentCells conf s' ∧
      ¬ Reaches (follow conf.sink m.scheme.heap) (roots conf m.scheme conf.nil conf.nil) p) :
    ∃ free' ks' φ', Good conf ⟨s', x :: m.recent⟩ free' ks' ∧
      Same conf ⟨s', x :: m.recent⟩ (u.makeVector conf len) φ' := by
  obtain ⟨free', hs'⟩ := hnew.sound
  generalize hn : len / 2 + len % 2 = n at *
  have hcase : ∀ p, p ∈ row x (n + 1) → p = x ∨ p ∈ row (x + 1) n := by
    rintro p ⟨h₁, h₂⟩
    by_cases hp : p = x
    · exact .inl hp
    · exact .inr ⟨by omega, by omega⟩
  have hfresh : ∀ p ∈ row x (n + 1), p ∈ segmentCells conf s' ∧
      ¬ Reaches (follow conf.sink m.scheme.heap) (roots conf m.scheme conf.nil conf.nil) p := by
    intro p hp
    rcases hcase p hp with rfl | h
    · exact ⟨hnew.cell, hnew.fresh⟩
    · exact (helem p h).2
  have hhidden : ∀ p ∈ row x (n + 1), ¬ Visible conf m p :=
    fun p hp => hg.not_visible hs' (hfresh p hp).1 (hfresh p hp).2
  have hφ : ∀ y, Visible conf m y → rowMap φ x (n + 1) u.next y = φ y :=
    fun y hy => rowMap_out fun hin => hhidden y hin hy
  have hchildren : ∀ q ∈ children s'.heap x, q ∈ row (x + 1) n := by
    intro q hq
    have hvec : Vector s'.heap x := by
      rw [Vector, hnew.content]
      rfl
    rw [children_vector hvec, slots_vectorCell hnew.content, hn] at hq
    obtain ⟨i, hi, rfl⟩ := List.mem_map.mp hq
    have := List.mem_range.mp hi
    exact ⟨by omega, by omega⟩
  have hxrow : x ∈ row x (n + 1) := ⟨Nat.le_refl x, by omega⟩
  have hsub : ∀ p ∈ row (x + 1) n, p ∈ row x (n + 1) := by
    rintro p ⟨h₁, h₂⟩
    exact ⟨by omega, by omega⟩
  have hvector : ∀ v ∈ row x (n + 1), Vector s'.heap v → v = x := by
    intro v hv hvec
    refine (hcase v hv).resolve_right fun h => ?_
    rw [Vector, (helem v h).1] at hvec
    cases hvec
  have hgrown : Grown conf m ⟨s', x :: m.recent⟩ (row x (n + 1)) := by
    refine ⟨hnew.kept.registers, fun y hy => hg.kept hnew.kept hy, fun y hy => ?_, ?_, hhidden⟩
    · rcases List.mem_cons.mp hy with rfl | hy
      · exact .inr hxrow
      · exact .inl hy
    · intro y hy q hq
      have hq' : q ∈ follow conf.sink s'.heap y := hq
      rw [follow_of_ne (hs'.layout.ne_sink (hfresh y hy).1)] at hq'
      rcases hcase y hy with rfl | h
      · exact .inr (hsub q (hchildren q hq'))
      · rw [children, (helem y h).1] at hq'
        have hq'' : q ∈ [conf.nil, conf.nil] := (List.mem_filter.mp hq').1
        have hqnil : q = conf.nil := by simpa using hq''
        exact .inl (hqnil ▸ visible_get conf m .nil)
  obtain ⟨ks', hrecents, hcells, hks', hroots⟩ := hg.pushed (X := row x (n + 1))
    (fun y hy => (hfresh y hy).2) hnew fun k hcar hin => by
      obtain ⟨k', -, hkx, hcar', hcell, -⟩ := hnew.holder
      obtain rfl : k' = k := hcar'.symm.trans hcar
      rcases hcase k' hin with h | h
      · exact hkx h
      · -- An element of the vector leads to `nil` only.
        rw [(helem k' h).1, elementCell] at hcell
        have hxnil : conf.nil = x := by
          have := congrArg (fun c : Cell => c.car) hcell
          exact this
        exact hs'.layout.ne_nil hnew.cell hxnil.symm
  refine ⟨free', ks', rowMap φ x (n + 1) u.next,
    hgrown.good hg hs' hnew.noMemory hrecents hcells hks' hroots ?_,
    hgrown.same hg hsame rfl ?_ ?_ ?_ hφ ?_ ?_ ?_ ?_⟩
  · intro v hv hvec y hy
    obtain rfl := hvector v hv hvec
    show (s'.heap y).atom = false
    rw [(helem y (hchildren y hy)).1]
    rfl
  · show u.next :: u.recent = rowMap φ x (n + 1) u.next x ::
      m.recent.map (rowMap φ x (n + 1) u.next)
    rw [rowMap_row hxrow, Nat.sub_self, hsame.recent]
    refine congrArg (u.next :: ·) (List.map_congr_left fun y hy => ?_)
    exact (hφ y (.of_mem (mem_handles_recent hy))).symm
  · exact Nat.le_add_right _ _
  · intro y hy
    show fillVector (Function.update u.heap u.next (vectorCell len)) u.next conf.nil y = u.heap y
    rw [vectorHeap_eq, vectorHeap, if_neg (by omega), if_neg fun h => ?_]
    have := List.mem_range'_1.mp h
    omega
  · intro p hp
    show fillVector (Function.update u.heap u.next (vectorCell len)) u.next conf.nil
      (rowMap φ x (n + 1) u.next p) = rename _ (s'.heap p)
    rw [vectorHeap_eq, rowMap_row hp]
    rcases hcase p hp with rfl | h
    · rw [Nat.sub_self, hnew.content, vectorHeap, if_pos (Nat.add_zero _)]
      rfl
    · have h' := h
      obtain ⟨h₁, h₂⟩ := h
      have hin : u.next + (p - x) ∈ row (u.next + 1) (len / 2 + len % 2) :=
        ⟨by omega, by omega⟩
      rw [vectorHeap_element hin, (helem p h').1, rename]
      show elementCell conf.nil = Cell.mk _ _ _ _ _
        (.cons (rowMap φ x (n + 1) u.next conf.nil) (rowMap φ x (n + 1) u.next conf.nil))
      rw [hφ conf.nil (visible_get conf m .nil), hsame.constants.1]
      rfl
  · rintro p ⟨h₁, h₂⟩
    rw [rowMap_row ⟨h₁, h₂⟩]
    show _ ∧ _ < u.next + (len / 2 + len % 2 + 1)
    omega
  · rintro p hp q hq heq
    rw [rowMap_row hp, rowMap_row hq] at heq
    obtain ⟨h₁, -⟩ := hp
    obtain ⟨h₂, -⟩ := hq
    omega
  · intro v hv hvec i hi
    obtain rfl := hvector v hv hvec
    have hi' : i < n := by
      have : i < slots s'.heap v := hi
      rw [slots_vectorCell hnew.content, hn] at this
      exact this
    have hin : v + 1 + i ∈ row v (n + 1) := ⟨by omega, by omega⟩
    rw [rowMap_row hin, rowMap_row hxrow]
    omega

/-! ### One operation -/

/-- What an operation comes to: there is no memory, or the machines are the same again. -/
def Simulated (conf : Conf) (r : Option Machine) (u : Unlimited) : Prop :=
  ∃ m, r = some m ∧ (m.scheme.noMemory = true ∨
    ∃ free ks φ, Good conf m free ks ∧ Same conf m u φ)

theorem Good.simulated (hg : Good conf m free ks) (hsame : Same conf m u φ) :
    Simulated conf (some m) u :=
  ⟨m, rfl, .inr ⟨free, ks, φ, hg, hsame⟩⟩

/-- A new pair or atom, on both machines. -/
theorem mkObject_same (hg : Good conf m free ks) (hsame : Same conf m u φ) (p q : Ref)
    {type : SchemeType} {immutable atom : Bool} {object object' : Object} (htype : type ≠ .tVector)
    (hused : atom = true ∨ type ≠ .tNone)
    (hobj : atom = true ∧ object' = object ∨
      atom = false ∧ object = .cons (m.get conf p) (m.get conf q) ∧
        object' = .cons (u.get conf p) (u.get conf q)) :
    Simulated conf
      ((mkObject conf m.scheme (m.get conf p) (m.get conf q) type immutable atom object).map m.push)
      (u.make type immutable atom object') := by
  have hp := hg.root _ (get_mem m p)
  have hq := hg.root _ (get_mem m q)
  obtain ⟨x, s', hmk, hcase⟩ := mkObject_spec hg.sound hp
    hq hg.noMemory htype hused (hobj.imp And.left fun h =>
      ⟨_, _, h.2.1, by simp [roots], by simp [roots]⟩)
  rw [hmk]
  refine ⟨⟨s', x :: m.recent⟩, rfl, hcase.imp_right fun hnew => ?_⟩
  obtain ⟨free', ks', hgood, hsame'⟩ := make_same hg hsame htype (hobj.imp_right fun h =>
    ⟨h.1, _, _, h.2.1, by rw [h.2.2, hsame.get, hsame.get], visible_get conf m p,
      visible_get conf m q⟩) hnew
  exact ⟨free', ks', _, hgood, hsame'⟩

theorem mkVector_same (hg : Good conf m free ks) (hsame : Same conf m u φ) (len : Nat) :
    Simulated conf ((mkVector conf m.scheme len).map m.push) (u.makeVector conf len) := by
  obtain ⟨x, s', hmk, hcase⟩ := mkVector_spec hg.sound hg.noMemory len
  rw [hmk]
  refine ⟨⟨s', x :: m.recent⟩, rfl, hcase.imp_right fun ⟨hnew, helem⟩ => ?_⟩
  exact makeVector_same hg hsame hnew helem

/-- A collection cannot be seen. -/
theorem gc_same (hg : Good conf m free ks) (hsame : Same conf m u φ) :
    Simulated conf ((gc conf m.scheme conf.nil conf.nil).map fun s => ⟨s, m.recent⟩) u := by
  have hnil : Root conf m.scheme conf.nil := hg.root _ (get_mem m .nil)
  obtain ⟨s', free', hgc, hc⟩ := gc_carries hg.sound hnil hnil
  obtain ⟨hks, hxs⟩ := hg.recents_reached conf.nil conf.nil
  rw [hgc]
  have hgrown : Grown conf m ⟨s', m.recent⟩ ∅ :=
    ⟨hc.kept.registers, fun y hy => hg.kept hc.kept hy, fun _ hx => .inl hx,
      fun _ hx => absurd hx id, fun _ hx => absurd hx id⟩
  have hcar : car s'.heap conf.sink = car m.scheme.heap conf.sink := by
    rw [Heap.car, hc.sink]
    rfl
  refine ⟨⟨s', m.recent⟩, rfl, .inr ⟨free', ks, φ, ?_, ?_⟩⟩
  · refine hgrown.good hg hc.sound (hc.noMemory.trans hg.noMemory) ?_
      (fun k hk => hc.kept.grows k (hg.holders k hk)) (fun k hk => ⟨hg.hidden k hk, id⟩)
      (fun x hx => hc.roots x (hxs x hx) (hg.recent x hx)) fun _ hx => absurd hx id
    show Recents conf.nil s'.heap (car s'.heap conf.sink) ks m.recent
    rw [hcar]
    exact hg.recents.congr fun k hk => hc.kept.reached k (hg.holders k hk) (hks k hk)
  · exact hgrown.same hg hsame rfl hsame.recent (Nat.le_refl _) (fun _ _ => rfl) (fun _ _ => rfl)
      (fun _ hx => absurd hx id) (fun _ hx => absurd hx id) (fun _ hx => absurd hx id)
      fun _ hx => absurd hx id

/-- A link of a pair, on both machines. -/
theorem relink_same (hg : Good conf m free ks) (hsame : Same conf m u φ) {c d : Nat}
    (hl : Linked conf m x c d)
    (hh : h = Function.update m.scheme.heap x (relink (m.scheme.heap x) c d)) {h' : Heap}
    (hh' : h' = Function.update u.heap (φ x) (relink (u.heap (φ x)) (φ c) (φ d))) :
    Simulated conf (some (m.withHeap h)) { u with heap := h' } := by
  subst hh hh'
  exact (hg.relink hl).simulated (hsame.relink hg hl)

theorem setCar_eq_relink : setCar h x p = Function.update h x (relink (h x) p (cdr h x)) :=
  rfl

theorem setCdr_eq_relink : setCdr h x p = Function.update h x (relink (h x) (car h x) p) :=
  rfl

/-- The links of a visible pair. -/
theorem Good.linked (hg : Good conf m free ks) (hx : Visible conf m x)
    (hatom : isAtom m.scheme.heap x = false) :
    Linked conf m x (car m.scheme.heap x) (cdr m.scheme.heap x) := by
  obtain ⟨-, hvec, -, hcar, hcdr⟩ := hg.pair hx hatom
  have hlink : ∀ q ∈ children m.scheme.heap x, Root conf m.scheme q := fun q hq =>
    hg.sound.root_of_link (hg.ne_sink hx) (hg.used hx).2 hvec hq
  exact ⟨hx, hatom, hx.link hg hcar, hx.link hg hcdr, hlink _ hcar, hlink _ hcdr⟩

/-- The cell of a vector that has an element. -/
theorem Good.element (hg : Good conf m free ks) (hx : Visible conf m x)
    (hvec : isVector m.scheme.heap x = true) {i : Nat} (hi : i / 2 < slots m.scheme.heap x) :
    Visible conf m (x + 1 + i / 2) ∧ isAtom m.scheme.heap (x + 1 + i / 2) = false := by
  have hv : Vector m.scheme.heap x := (isVector_eq _ _).mp hvec
  have hin : x + 1 + i / 2 ∈ children m.scheme.heap x := by
    rw [children_vector hv]
    exact List.mem_map_of_mem (List.mem_range.mpr hi)
  exact ⟨hx.link hg hin, hg.pairs x hx hv _ hin⟩

theorem Same.slots (hsame : Same conf m u φ) (hx : Visible conf m x)
    (hatom : Heap.isAtom m.scheme.heap x = true) : slots u.heap (φ x) = Heap.slots m.scheme.heap x := by
  rw [Heap.slots, hsame.cell x hx, rename, if_pos (show (m.scheme.heap x).atom = true from hatom)]
  rfl

/-- An operation does on the machine with the collector what it does with unlimited memory. -/
theorem step_same (hg : Good conf m free ks) (hsame : Same conf m u φ) (op : Op) :
    Simulated conf (m.step conf op) (u.step conf op) := by
  have hvis := fun p => visible_get conf m p
  have hroot := fun p => hg.root _ (get_mem m p)
  cases op with
  | load r p =>
    rw [Machine.step, Unlimited.step, hsame.get]
    exact (hg.load (hvis p) (hroot p) r).simulated (hsame.load (hvis p) r)
  | car r p =>
    rw [Machine.step, Unlimited.step, hsame.get, hsame.isAtom (hvis p)]
    by_cases hatom : isAtom m.scheme.heap (m.get conf p) = true
    · rw [if_pos hatom, if_pos hatom]
      exact hg.simulated hsame
    · have hatom' := Bool.eq_false_of_not_eq_true hatom
      have hl := hg.linked (hvis p) hatom'
      rw [if_neg hatom, if_neg hatom, (hsame.links (hvis p) hatom').1]
      exact (hg.load hl.car hl.carRoot r).simulated (hsame.load hl.car r)
  | cdr r p =>
    rw [Machine.step, Unlimited.step, hsame.get, hsame.isAtom (hvis p)]
    by_cases hatom : isAtom m.scheme.heap (m.get conf p) = true
    · rw [if_pos hatom, if_pos hatom]
      exact hg.simulated hsame
    · have hatom' := Bool.eq_false_of_not_eq_true hatom
      have hl := hg.linked (hvis p) hatom'
      rw [if_neg hatom, if_neg hatom, (hsame.links (hvis p) hatom').2]
      exact (hg.load hl.cdr hl.cdrRoot r).simulated (hsame.load hl.cdr r)
  | setCar p q =>
    rw [Machine.step, Unlimited.step, hsame.get, hsame.get, hsame.isAtom (hvis p)]
    by_cases hatom : isAtom m.scheme.heap (m.get conf p) = true
    · rw [if_pos hatom, if_pos hatom]
      exact hg.simulated hsame
    · have hatom' := Bool.eq_false_of_not_eq_true hatom
      have hl := hg.linked (hvis p) hatom'
      rw [if_neg hatom, if_neg hatom]
      refine relink_same hg hsame ⟨hvis p, hatom', hvis q, hl.cdr, hroot q, hl.cdrRoot⟩ rfl ?_
      rw [setCar_eq_relink, (hsame.links (hvis p) hatom').2]
  | setCdr p q =>
    rw [Machine.step, Unlimited.step, hsame.get, hsame.get, hsame.isAtom (hvis p)]
    by_cases hatom : isAtom m.scheme.heap (m.get conf p) = true
    · rw [if_pos hatom, if_pos hatom]
      exact hg.simulated hsame
    · have hatom' := Bool.eq_false_of_not_eq_true hatom
      have hl := hg.linked (hvis p) hatom'
      rw [if_neg hatom, if_neg hatom]
      refine relink_same hg hsame ⟨hvis p, hatom', hl.car, hvis q, hl.carRoot, hroot q⟩ rfl ?_
      rw [setCdr_eq_relink, (hsame.links (hvis p) hatom').1]
  | vectorElem r vec i =>
    rw [Machine.step, Unlimited.step, hsame.get, hsame.isVector (hvis vec)]
    by_cases hvec : isVector m.scheme.heap (m.get conf vec) = true
    · have hv := (isVector_eq _ _).mp hvec
      have hatom := (hg.sound.storage.shaped (m.get conf vec)).vector hv
      rw [hsame.slots (hvis vec) hatom]
      by_cases hi : i / 2 < slots m.scheme.heap (m.get conf vec)
      · obtain ⟨hel, hpair⟩ := hg.element (hvis vec) hvec hi
        have hl := hg.linked hel hpair
        rw [if_pos ⟨hvec, hi⟩, if_pos ⟨hvec, hi⟩, vectorElem, vectorElem,
          ← hsame.row _ (hvis vec) hv _ hi, (hsame.links hel hpair).1, (hsame.links hel hpair).2]
        by_cases heven : i % 2 = 0
        · rw [if_pos heven, if_pos heven]
          exact (hg.load hl.car hl.carRoot r).simulated (hsame.load hl.car r)
        · rw [if_neg heven, if_neg heven]
          exact (hg.load hl.cdr hl.cdrRoot r).simulated (hsame.load hl.cdr r)
      · rw [if_neg fun h => hi h.2, if_neg fun h => hi h.2]
        exact hg.simulated hsame
    · rw [if_neg fun h => hvec h.1, if_neg fun h => hvec h.1]
      exact hg.simulated hsame
  | setVectorElem vec i a =>
    rw [Machine.step, Unlimited.step, hsame.get, hsame.get, hsame.isVector (hvis vec)]
    by_cases hvec : isVector m.scheme.heap (m.get conf vec) = true
    · have hv := (isVector_eq _ _).mp hvec
      have hatom := (hg.sound.storage.shaped (m.get conf vec)).vector hv
      rw [hsame.slots (hvis vec) hatom]
      by_cases hi : i / 2 < slots m.scheme.heap (m.get conf vec)
      · obtain ⟨hel, hpair⟩ := hg.element (hvis vec) hvec hi
        have hl := hg.linked hel hpair
        rw [if_pos ⟨hvec, hi⟩, if_pos ⟨hvec, hi⟩, setVectorElem, setVectorElem,
          ← hsame.row _ (hvis vec) hv _ hi]
        by_cases heven : i % 2 = 0
        · rw [if_pos heven, if_pos heven]
          refine relink_same hg hsame ⟨hel, hpair, hvis a, hl.cdr, hroot a, hl.cdrRoot⟩ rfl ?_
          rw [setCar_eq_relink, (hsame.links hel hpair).2]
        · rw [if_neg heven, if_neg heven]
          refine relink_same hg hsame ⟨hel, hpair, hl.car, hvis a, hl.carRoot, hroot a⟩ rfl ?_
          rw [setCdr_eq_relink, (hsame.links hel hpair).1]
      · rw [if_neg fun h => hi h.2, if_neg fun h => hi h.2]
        exact hg.simulated hsame
    · rw [if_neg fun h => hvec h.1, if_neg fun h => hvec h.1]
      exact hg.simulated hsame
  | cons a b immutable =>
    exact mkObject_same hg hsame a b (fun h => by cases h) (.inr fun h => by cases h)
      (.inr ⟨rfl, rfl, rfl⟩)
  | mkClosure c e =>
    exact mkObject_same hg hsame c e (fun h => by cases h) (.inr fun h => by cases h)
      (.inr ⟨rfl, rfl, rfl⟩)
  | mkContinuation d =>
    exact mkObject_same hg hsame .nil d (fun h => by cases h) (.inr fun h => by cases h)
      (.inr ⟨rfl, rfl, rfl⟩)
  | mkInteger num =>
    exact mkObject_same hg hsame .nil .nil (fun h => by cases h) (.inl rfl) (.inl ⟨rfl, rfl⟩)
  | mkCharacter c =>
    exact mkObject_same hg hsame .nil .nil (fun h => by cases h) (.inl rfl) (.inl ⟨rfl, rfl⟩)
  | mkCountedString svalue length =>
    exact mkObject_same hg hsame .nil .nil (fun h => by cases h) (.inl rfl) (.inl ⟨rfl, rfl⟩)
  | mkPort port =>
    exact mkObject_same hg hsame .nil .nil (fun h => by cases h) (.inl rfl) (.inl ⟨rfl, rfl⟩)
  | mkForeignFunc ff =>
    exact mkObject_same hg hsame .nil .nil (fun h => by cases h) (.inl rfl) (.inl ⟨rfl, rfl⟩)
  | mkVector len => exact mkVector_same hg hsame len
  | okToFreelyGc => exact hg.okToFreelyGc.simulated (hsame.okToFreelyGc hg)
  | gc => exact gc_same hg hsame

/-- A run on the machine with the collector, by its steps. -/
theorem run_same (hg : Good conf m free ks) (hsame : Same conf m u φ) (ops : List Op) :
    Simulated conf (m.run conf ops) (u.run conf ops) := by
  induction ops generalizing m u free ks φ with
  | nil => exact hg.simulated hsame
  | cons op ops ih =>
    obtain ⟨m', hstep, hcase⟩ := step_same hg hsame op
    rw [Machine.run, hstep, Option.bind_some]
    rcases hcase with hno | ⟨free', ks', φ', hg', hsame'⟩
    · rw [if_pos hno]
      exact ⟨m', rfl, .inl hno⟩
    · rw [hg'.noMemory, if_neg Bool.false_ne_true]
      exact ih hg' hsame'

/-! ### The start -/

section
variable {mallocs : List (Option Nat)}

/-- The segments of the start. -/
theorem allocCellsegs_carries (hs : Sound conf s free ∅) (has : ∀ a ∈ as, Root conf s a)
    (halloc : allocCellsegs conf n s = some s') : ∃ free', Carries conf as s s' free' ∅ := by
  induction n generalizing s free with
  | zero =>
    obtain rfl : s = s' := Option.some.inj halloc
    exact ⟨free, hs, ⟨rfl, fun _ => id, fun _ _ _ _ => rfl, ⟨_, rfl⟩, fun _ _ _ => rfl⟩,
      fun _ _ => id, rfl, rfl⟩
  | succ n ih =>
    rcases allocCellseg_cases conf s with ⟨rest, -, hone⟩ | ⟨p, rest, hmal, hone⟩
    · rw [allocCellsegs, hone] at halloc
      cases halloc
    · rw [allocCellsegs, hone] at halloc
      obtain ⟨-, free₁, hc₁⟩ := addSegment_carries hs has hmal
      obtain ⟨free', hc⟩ := ih hc₁.sound (hc₁.roots_of has) halloc
      exact ⟨free', hc₁.trans hs has hc⟩

/-- Both machines start alike. -/
theorem init_same (hl : Layout conf (noCells conf mallocs))
    (hinit : Scheme.init conf mallocs = some s) :
    ∃ free, Good conf ⟨s, []⟩ free [] ∧ Same conf ⟨s, []⟩ (Unlimited.init conf) id := by
  have hstart := noCells_sound hl
  obtain ⟨free, hc⟩ := allocCellsegs_carries hstart
    (show ∀ a ∈ ([] : List Nat), _ from fun _ ha => absurd ha List.not_mem_nil) hinit
  have hregisters : ∀ r, s.registers r = conf.nil := fun r => congrFun hc.kept.registers r
  have hconst : ∀ x ∈ [conf.nil, conf.t, conf.f], ∃ b,
      s.heap x = ⟨.tNone, false, false, true, b, .cons x x⟩ := by
    intro x hx
    by_cases hnil : x = conf.nil
    · subst hnil
      obtain ⟨b, hb⟩ := hc.kept.nil
      rw [noCells_constant hl hx] at hb
      exact ⟨b, hb⟩
    · refine ⟨true, ?_⟩
      rw [hc.kept.constants x (mem_specials_of_constant hx) (ne_sink_of_constant hstart hx) hnil]
      exact noCells_constant hl hx
  have hvis : ∀ x, Visible conf ⟨s, []⟩ x → x ∈ [conf.nil, conf.t, conf.f] := by
    intro x hx
    refine Closed.of_reaches (M := {x | x ∈ [conf.nil, conf.t, conf.f]}) (fun y hy z hz => ?_)
      (fun a ha => ?_) hx
    · have hz' : z ∈ follow conf.sink s.heap y := hz
      rw [hc.sound.children_special (mem_specials_of_constant hy)] at hz'
      exact absurd hz' List.not_mem_nil
    · rcases mem_handles.mp ha with ha | ⟨r, rfl⟩ | ha
      · exact ha
      · show s.registers r ∈ _
        rw [hregisters]
        exact List.mem_cons_self
      · exact absurd ha List.not_mem_nil
  have hnvec : ∀ v, Visible conf ⟨s, []⟩ v → ¬ Vector s.heap v := by
    intro v hv hvec
    obtain ⟨b, hb⟩ := hconst v (hvis v hv)
    rw [Vector, hb] at hvec
    cases hvec
  refine ⟨free, ⟨hc.sound, hc.noMemory, ?_, fun _ h => absurd h List.not_mem_nil,
    fun _ h => absurd h List.not_mem_nil, fun _ h => absurd h List.not_mem_nil,
    fun v hv hvec => absurd hvec (hnvec v hv)⟩, ⟨fun r => (hregisters r).symm, rfl, ⟨rfl, rfl, rfl⟩,
    fun x hx => ?_, fun _ _ _ _ => id, fun v hv hvec => absurd hvec (hnvec v hv), fun x hx => ?_⟩⟩
  · show Cell.car (s.heap conf.sink) = conf.nil
    rw [hc.sink, noCells_sink]
    rfl
  · have hx' := hvis x hx
    obtain ⟨b, hb⟩ := hconst x hx'
    show ((noCells conf []).heap x).setMark false = rename id (s.heap x)
    have hsink := ne_sink_of_constant hstart hx'
    rw [hb, noCells_heap, if_neg hsink, if_pos (by simpa using hx')]
    rfl
  · have hx' := hvis x hx
    show x < conf.nil + conf.t + conf.f + 1
    simp only [List.mem_cons, List.not_mem_nil, or_false] at hx'
    omega

theorem view_rename (hg : Good conf m free ks) (hx : Visible conf m x) (φ : Nat → Nat) :
    (rename φ (m.scheme.heap x)).view = (m.scheme.heap x).view := by
  by_cases hatom : (m.scheme.heap x).atom = true
  · rw [rename, if_pos hatom]
    rfl
  · obtain ⟨-, -, ⟨c, d, hcons⟩, -⟩ := hg.pair hx (Bool.eq_false_of_not_eq_true hatom)
    rw [rename, if_neg hatom, Cell.view, Cell.view, hcons]
    rfl

/-- **The collector cannot be seen**: as long as there is memory, two
pointers of the interpreter are equal exactly when they are with
unlimited memory, and they lead to the same objects. By induction on
the run, with `step_same` for an operation. -/
theorem run_observe (hl : Layout conf (noCells conf mallocs))
    (hinit : Scheme.init conf mallocs = some s) (ops : List Op) :
    ∃ m : Machine, Machine.run conf ⟨s, []⟩ ops = some m ∧ (m.scheme.noMemory = true ∨
      ∀ p q : Ref,
        (m.get conf p = m.get conf q ↔
          ((Unlimited.init conf).run conf ops).get conf p =
            ((Unlimited.init conf).run conf ops).get conf q) ∧
        (m.scheme.heap (m.get conf p)).view =
          (((Unlimited.init conf).run conf ops).heap
            (((Unlimited.init conf).run conf ops).get conf p)).view) := by
  obtain ⟨free, hg, hsame⟩ := init_same hl hinit
  obtain ⟨m, hrun, hcase⟩ := run_same hg hsame ops
  refine ⟨m, hrun, hcase.imp_right fun ⟨free', ks', φ, hg', hsame'⟩ p q => ?_⟩
  have hp := visible_get conf m p
  have hq := visible_get conf m q
  rw [hsame'.get, hsame'.get, hsame'.cell _ hp, view_rename hg' hp]
  exact ⟨⟨congrArg φ, hsame'.injective _ _ hp hq⟩, rfl⟩

end

end

/-- Three segments of two cells each. -/
def tiny : Conf := ⟨1, 2, 3, 4, 2, 3⟩

/-- A program that keeps the second pair only. -/
def tinyOps : List Op :=
  [.cons .nil .t false, .okToFreelyGc, .cons .f .nil true, .load .value (.recent 0), .okToFreelyGc,
    .cons (.reg .value) .nil false, .gc, .setCar (.reg .value) (.recent 0), .car .args (.reg .value)]

/-- The hypotheses of `run_observe` hold of a program on segments of
two cells each. -/
theorem run_observe_tiny :
    ∃ m : Machine, Machine.run tiny ⟨(Scheme.init tiny [some 10, some 20, some 30]).get rfl, []⟩
        tinyOps = some m ∧ (m.scheme.noMemory = true ∨
      ∀ p q : Ref,
        (m.get tiny p = m.get tiny q ↔
          ((Unlimited.init tiny).run tiny tinyOps).get tiny p =
            ((Unlimited.init tiny).run tiny tinyOps).get tiny q) ∧
        (m.scheme.heap (m.get tiny p)).view =
          (((Unlimited.init tiny).run tiny tinyOps).heap
            (((Unlimited.init tiny).run tiny tinyOps).get tiny p)).view) :=
  run_observe ⟨by decide, by decide, by decide, by decide, by decide, by decide, by decide⟩
    (Option.some_get _).symm tinyOps

end Alcor.Proofs.TinyScheme
