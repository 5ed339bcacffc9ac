import Mathlib.Data.List.GetD
import Alcor.Proofs.TinyScheme.Vectors
import Alcor.TinyScheme.Machine

/-!
# `Alcor.Proofs.TinyScheme.Machine`: the collector cannot be seen

The machine with the collector does what the machine with unlimited
memory does. A function `φ` from the cells of the one to those of the
other relates the two (`Same`): it is injective on the cells the
interpreter can see, and takes each of these to a cell with the same
contents, the links renamed by `φ`. Cells that are taken back and handed
out again get a new image.

`Good` is what the first machine keeps: its storage is in order, and the
list of recent objects has those the C code holds, in cells that the
interpreter cannot see. Each operation has a lemma for `Good` and one for
`Same`; allocations and runs are in `Transparent.lean`.

* `Good.load`, `Same.load`: a register gets a pointer.
* `Good.okToFreelyGc`, `Same.okToFreelyGc`: the C code holds no objects.
* `Good.relink`, `Same.relink`: a link of a pair is set.
-/

set_option autoImplicit false

namespace Alcor.Proofs.TinyScheme

open Lib.Marking Alcor.TinyScheme Alcor.TinyScheme.Heap Alcor.TinyScheme.Scheme

/-! ### What the interpreter can see -/

/-- All registers. -/
def registerList : List Register :=
  [.oblist, .globalEnv, .args, .envir, .code, .dump, .value, .inport, .saveInport, .outport,
    .loadport, .cNest]

theorem mem_registerList (r : Register) : r ∈ registerList := by cases r <;> simp [registerList]

/-- The pointers the interpreter has. -/
def handles (conf : Conf) (m : Machine) : List Nat :=
  [conf.nil, conf.t, conf.f] ++ registerList.map m.scheme.registers ++ m.recent

/-- A cell the interpreter can come to. -/
def Visible (conf : Conf) (m : Machine) (x : Nat) : Prop :=
  Reaches (follow conf.sink m.scheme.heap) (handles conf m) x

/-- The list of recent objects from `p` on: the cells `ks` hold the objects `xs`. -/
def Recents (nil : Nat) (h : Heap) : Nat → List Nat → List Nat → Prop
  | p, [],      []      => p = nil
  | p, k :: ks, x :: xs => p = k ∧
      h k = ⟨.tPair, false, true, false, false, .cons x (cdr h k)⟩ ∧ Recents nil h (cdr h k) ks xs
  | _, _,       _       => False

/-- What the machine with the collector keeps. -/
structure Good (conf : Conf) (m : Machine) (free ks : List Nat) : Prop where
  sound : Sound conf m.scheme free ∅
  noMemory : m.scheme.noMemory = false
  recents : Recents conf.nil m.scheme.heap (car m.scheme.heap conf.sink) ks m.recent
  holders : ∀ k ∈ ks, k ∈ segmentCells conf m.scheme
  hidden : ∀ k ∈ ks, ¬ Visible conf m k
  recent : ∀ x ∈ m.recent, Root conf m.scheme x
  pairs : ∀ v, Visible conf m v → Vector m.scheme.heap v → ∀ x ∈ children m.scheme.heap v,
    isAtom m.scheme.heap x = false

/-- The contents of a cell with the links renamed. -/
def rename (φ : Nat → Nat) (c : Cell) : Cell :=
  if c.atom then c.setMark false else { c.setMark false with object := .cons (φ c.car) (φ c.cdr) }

/-- The two machines are the same up to `φ`. -/
structure Same (conf : Conf) (m : Machine) (u : Unlimited) (φ : Nat → Nat) : Prop where
  registers : ∀ r, u.registers r = φ (m.scheme.registers r)
  recent : u.recent = m.recent.map φ
  constants : φ conf.nil = conf.nil ∧ φ conf.t = conf.t ∧ φ conf.f = conf.f
  cell : ∀ x, Visible conf m x → u.heap (φ x) = rename φ (m.scheme.heap x)
  injective : ∀ x y, Visible conf m x → Visible conf m y → φ x = φ y → x = y
  row : ∀ v, Visible conf m v → Vector m.scheme.heap v → ∀ i < slots m.scheme.heap v,
    φ (v + 1 + i) = φ v + 1 + i
  below : ∀ x, Visible conf m x → φ x < u.next

section
variable {conf : Conf} {m m' : Machine} {u u' : Unlimited} {φ φ' : Nat → Nat}
  {free ks : List Nat} {p q x : Nat} {r : Register}

theorem mem_handles_register (r : Register) : m.scheme.registers r ∈ handles conf m :=
  List.mem_append_left _ (List.mem_append_right _ (List.mem_map_of_mem (mem_registerList r)))

theorem mem_handles_recent (hx : x ∈ m.recent) : x ∈ handles conf m := List.mem_append_right _ hx

theorem mem_handles_constant (hx : x ∈ [conf.nil, conf.t, conf.f]) : x ∈ handles conf m :=
  List.mem_append_left _ (List.mem_append_left _ hx)

theorem mem_handles : x ∈ handles conf m ↔
    x ∈ [conf.nil, conf.t, conf.f] ∨ (∃ r, x = m.scheme.registers r) ∨ x ∈ m.recent := by
  constructor
  · intro hx
    rcases List.mem_append.mp hx with hx | hx
    · rcases List.mem_append.mp hx with hx | hx
      · exact .inl hx
      · obtain ⟨r, -, rfl⟩ := List.mem_map.mp hx
        exact .inr (.inl ⟨r, rfl⟩)
    · exact .inr (.inr hx)
  · rintro (hx | ⟨r, rfl⟩ | hx)
    · exact mem_handles_constant hx
    · exact mem_handles_register r
    · exact mem_handles_recent hx

/-- An operand is held. -/
theorem get_mem (m : Machine) (p : Ref) : m.get conf p ∈ handles conf m := by
  cases p with
  | reg r => exact mem_handles_register r
  | recent i =>
    by_cases hi : i < m.recent.length
    · refine mem_handles_recent ?_
      show m.recent.getD i conf.nil ∈ _
      rw [List.getD_eq_getElem _ _ hi]
      exact List.getElem_mem hi
    · refine mem_handles_constant ?_
      show m.recent.getD i conf.nil ∈ _
      rw [List.getD_eq_default _ _ (Nat.le_of_not_lt hi)]
      exact List.mem_cons_self
  | nil => exact mem_handles_constant (List.mem_cons_self)
  | t => exact mem_handles_constant (by simp [Machine.get, Ref.get])
  | f => exact mem_handles_constant (by simp [Machine.get, Ref.get])

theorem visible_get (conf : Conf) (m : Machine) (p : Ref) : Visible conf m (m.get conf p) :=
  .of_mem (get_mem m p)

theorem Good.root (hg : Good conf m free ks) : ∀ a ∈ handles conf m, Root conf m.scheme a := by
  intro a ha
  rcases mem_handles.mp ha with ha | ⟨r, rfl⟩ | ha
  · exact hg.sound.constant (mem_specials_of_constant ha) (ne_sink_of_constant hg.sound ha)
  · exact hg.sound.registers r
  · exact hg.recent a ha

/-- What a pair in use leads to may be held by the interpreter. -/
theorem Sound.root_of_link {s : Scheme} {out : Set Nat} (hs : Sound conf s free out)
    (hp : p ≠ conf.sink) (hused : (s.heap p).flagZero = false) (hvec : ¬ Vector s.heap p)
    (hq : q ∈ children s.heap p) : Root conf s q := by
  have hq' : q ∈ follow conf.sink s.heap p := by
    rw [follow_of_ne hp]
    exact hq
  refine ⟨⟨hs.storage.inside p q hq', ?_, ?_⟩, hs.live p hp hused q hq⟩
  · rintro rfl
    exact hs.sinkless p hq'
  · intro v hv hin
    exact hvec (hs.storage.only v hv q hin p hq' ▸ hv)

/-- A visible cell is in use. -/
theorem Good.used (hg : Good conf m free ks) (hx : Visible conf m x) :
    x ∈ cells conf m.scheme ∧ (m.scheme.heap x).flagZero = false :=
  hg.sound.reached hg.root hx

theorem Good.ne_sink (hg : Good conf m free ks) (hx : Visible conf m x) : x ≠ conf.sink := by
  obtain ⟨a, ha, hpath⟩ := hx
  rcases Relation.ReflTransGen.cases_tail hpath with rfl | ⟨y, -, hy⟩
  · exact (hg.root _ ha).ne_sink
  · rintro rfl
    exact hg.sound.sinkless y hy

theorem Visible.link (hg : Good conf m free ks) (hx : Visible conf m x)
    (hq : q ∈ children m.scheme.heap x) : Visible conf m q := by
  refine Reaches.tail hx ?_
  rw [follow_of_ne (hg.ne_sink hx)]
  exact hq

/-- A visible cell that is no atom is in a segment, and has two links. -/
theorem Good.pair (hg : Good conf m free ks) (hx : Visible conf m x)
    (hatom : isAtom m.scheme.heap x = false) :
    x ∈ segmentCells conf m.scheme ∧ ¬ Vector m.scheme.heap x ∧
      (∃ a d, (m.scheme.heap x).object = .cons a d) ∧
      car m.scheme.heap x ∈ children m.scheme.heap x ∧
      cdr m.scheme.heap x ∈ children m.scheme.heap x := by
  have hvec : ¬ Vector m.scheme.heap x := by
    intro hv
    have := (hg.sound.storage.shaped x).vector hv
    rw [show (m.scheme.heap x).atom = false from hatom] at this
    cases this
  have hcell := (hg.used hx).1
  have hlinked := hg.sound.linked x hcell (hg.ne_sink hx) hatom
  have hlinks : children m.scheme.heap x =
      [car m.scheme.heap x, cdr m.scheme.heap x].filter (· ≠ 0) :=
    children_pair hvec (by rw [hatom]; exact Bool.false_ne_true)
  refine ⟨?_, hvec, (hg.sound.storage.shaped x).pair hatom, ?_, ?_⟩
  · refine (mem_cells.mp hcell).resolve_left fun h => ?_
    have := (hg.sound.constants x h (hg.ne_sink hx)).1
    rw [hatom] at this
    cases this
  · rw [hlinks]
    exact List.mem_filter.mpr ⟨List.mem_cons_self, by simpa using hlinked.1⟩
  · rw [hlinks]
    exact List.mem_filter.mpr
      ⟨List.mem_cons_of_mem _ List.mem_cons_self, by simpa using hlinked.2⟩

theorem Same.get (hsame : Same conf m u φ) (p : Ref) : u.get conf p = φ (m.get conf p) := by
  cases p with
  | reg r => exact hsame.registers r
  | recent i =>
    show u.recent.getD i conf.nil = φ (m.recent.getD i conf.nil)
    rw [hsame.recent, ← hsame.constants.1, List.getD_map, hsame.constants.1]
  | nil => exact hsame.constants.1.symm
  | t => exact hsame.constants.2.1.symm
  | f => exact hsame.constants.2.2.symm

theorem atom_rename (φ : Nat → Nat) (c : Cell) : (rename φ c).atom = c.atom := by
  unfold rename
  split <;> rfl

theorem type_rename (φ : Nat → Nat) (c : Cell) : (rename φ c).type = c.type := by
  unfold rename
  split <;> rfl

theorem Same.isAtom (hsame : Same conf m u φ) (hx : Visible conf m x) :
    isAtom u.heap (φ x) = Heap.isAtom m.scheme.heap x := by
  rw [Heap.isAtom, hsame.cell x hx, atom_rename]
  rfl

theorem Same.isVector (hsame : Same conf m u φ) (hx : Visible conf m x) :
    isVector u.heap (φ x) = Heap.isVector m.scheme.heap x := by
  rw [Heap.isVector, hsame.cell x hx, type_rename]
  rfl

theorem Same.links (hsame : Same conf m u φ) (hx : Visible conf m x)
    (hatom : Heap.isAtom m.scheme.heap x = false) :
    car u.heap (φ x) = φ (car m.scheme.heap x) ∧ cdr u.heap (φ x) = φ (cdr m.scheme.heap x) := by
  have hatom' : ¬ (m.scheme.heap x).atom = true := by
    rw [show (m.scheme.heap x).atom = false from hatom]
    exact Bool.false_ne_true
  rw [Heap.car, Heap.cdr, hsame.cell x hx, rename, if_neg hatom']
  exact ⟨rfl, rfl⟩

/-! ### Moves between registers -/

/-- What the interpreter comes to later was visible, if that holds of its pointers and links. -/
theorem visible_of_handles (m' : Machine) (hlinks : ∀ y, Visible conf m y →
      ∀ q ∈ follow conf.sink m'.scheme.heap y, Visible conf m q)
    (hhandles : ∀ a ∈ handles conf m', Visible conf m a) (hx : Visible conf m' x) :
    Visible conf m x :=
  Closed.of_reaches (M := {y | Visible conf m y}) (fun y hy q hq => hlinks y hy q hq) hhandles hx

theorem Sound.withRegisters {s : Scheme} {out : Set Nat} (hs : Sound conf s free out)
    {registers : Register → Nat} (hr : ∀ r, Root conf s (registers r)) :
    Sound conf { s with registers } free out := by
  have hl := hs.layout
  refine ⟨⟨hl.size, hl.distinct, hl.zero, hl.positive, hl.outside, hl.apart, hl.descending⟩,
    hs.storage, hs.marked, hs.held, hs.constants, hs.element, hs.sinkless, hs.linked, hs.chain,
    hs.ascending, hs.fcells, hs.inside, hs.disjoint, hs.zero, hs.blank, hs.live, fun r => ?_, ?_⟩
  · exact ⟨(hr r).toIsRoot, (hr r).used⟩
  · exact ⟨hs.recent.toIsRoot, hs.recent.used⟩

theorem visible_load (hq : Visible conf m q) (hx : Visible conf (m.load r q) x) :
    Visible conf m x := by
  refine visible_of_handles (m.load r q) (fun y hy z hz => Reaches.tail hy hz) (fun a ha => ?_) hx
  rcases mem_handles.mp ha with ha | ⟨r', rfl⟩ | ha
  · exact .of_mem (mem_handles_constant ha)
  · show Visible conf m (Function.update m.scheme.registers r q r')
    by_cases hr : r' = r
    · subst hr
      rw [Function.update_self]
      exact hq
    · rw [Function.update_of_ne hr]
      exact .of_mem (mem_handles_register r')
  · exact .of_mem (mem_handles_recent ha)

/-- A register gets a pointer that the interpreter can see. -/
theorem Good.load (hg : Good conf m free ks) (hq : Visible conf m q)
    (hroot : Root conf m.scheme q) (r : Register) : Good conf (m.load r q) free ks := by
  have hsound : Sound conf (m.load r q).scheme free ∅ := by
    refine hg.sound.withRegisters fun r' => ?_
    by_cases hr : r' = r
    · subst hr
      rw [Function.update_self]
      exact hroot
    · rw [Function.update_of_ne hr]
      exact hg.sound.registers r'
  refine ⟨hsound, hg.noMemory, hg.recents, hg.holders, fun k hk hv => ?_, fun x hx => ?_,
    fun v hv => ?_⟩
  · exact hg.hidden k hk (visible_load hq hv)
  · exact ⟨(hg.recent x hx).toIsRoot, (hg.recent x hx).used⟩
  · exact hg.pairs v (visible_load hq hv)

theorem Same.load (hsame : Same conf m u φ) (hq : Visible conf m q) (r : Register) :
    Same conf (m.load r q) (u.load r (φ q)) φ := by
  refine ⟨fun r' => ?_, hsame.recent, hsame.constants, fun x hx => ?_, fun x y hx hy => ?_,
    fun v hv => ?_, fun x hx => ?_⟩
  · show Function.update u.registers r (φ q) r' = φ (Function.update m.scheme.registers r q r')
    by_cases hr : r' = r
    · subst hr
      rw [Function.update_self, Function.update_self]
    · rw [Function.update_of_ne hr, Function.update_of_ne hr]
      exact hsame.registers r'
  · exact hsame.cell x (visible_load hq hx)
  · exact hsame.injective x y (visible_load hq hx) (visible_load hq hy)
  · exact hsame.row v (visible_load hq hv)
  · exact hsame.below x (visible_load hq hx)

theorem visible_okToFreelyGc (hg : Good conf m free ks)
    (hx : Visible conf ⟨Scheme.okToFreelyGc conf m.scheme, []⟩ x) : Visible conf m x := by
  refine visible_of_handles ⟨Scheme.okToFreelyGc conf m.scheme, []⟩ (fun y hy z hz => ?_)
    (fun a ha => ?_) hx
  · have hz' : z ∈ follow conf.sink (setCar m.scheme.heap conf.sink conf.nil) y := hz
    rw [follow_of_ne (hg.ne_sink hy), children, setCar,
      Function.update_of_ne (hg.ne_sink hy)] at hz'
    exact hy.link hg hz'
  · rcases mem_handles.mp ha with ha | ⟨r, rfl⟩ | ha
    · exact .of_mem (mem_handles_constant ha)
    · exact .of_mem (mem_handles_register r)
    · exact absurd ha List.not_mem_nil

/-- `ok_to_freely_gc`: the C code has no new objects in variables. -/
theorem Good.okToFreelyGc (hg : Good conf m free ks) :
    Good conf ⟨Scheme.okToFreelyGc conf m.scheme, []⟩ free [] := by
  have hnil : Root conf m.scheme conf.nil :=
    hg.sound.constant (mem_specials_nil conf) hg.sound.ne_nil_sink
  have hsound := (hg.sound.setSink hnil).1
  have hat : ∀ y, y ≠ conf.sink →
      setCar m.scheme.heap conf.sink conf.nil y = m.scheme.heap y :=
    fun y hy => Function.update_of_ne hy _ _
  refine ⟨hsound, hg.noMemory, ?_, fun k hk => absurd hk List.not_mem_nil,
    fun k hk => absurd hk List.not_mem_nil, fun x hx => absurd hx List.not_mem_nil, fun v hv => ?_⟩
  · show (setCar m.scheme.heap conf.sink conf.nil conf.sink).car = conf.nil
    rw [setCar, Function.update_self]
    rfl
  · have hv' := visible_okToFreelyGc hg hv
    show Vector (setCar m.scheme.heap conf.sink conf.nil) v →
      ∀ x ∈ children (setCar m.scheme.heap conf.sink conf.nil) v,
        isAtom (setCar m.scheme.heap conf.sink conf.nil) x = false
    rw [Vector, children, hat v (hg.ne_sink hv')]
    intro hvec x hx
    rw [Heap.isAtom, hat x (hg.ne_sink (hv'.link hg hx))]
    exact hg.pairs v hv' hvec x hx

/-- The machines stay the same when the C code holds no new objects. -/
theorem Same.okToFreelyGc (hg : Good conf m free ks) (hsame : Same conf m u φ) :
    Same conf ⟨Scheme.okToFreelyGc conf m.scheme, []⟩ { u with recent := [] } φ := by
  have hat : ∀ y, y ≠ conf.sink →
      setCar m.scheme.heap conf.sink conf.nil y = m.scheme.heap y :=
    fun y hy => Function.update_of_ne hy _ _
  have hvis : ∀ x, Visible conf ⟨Scheme.okToFreelyGc conf m.scheme, []⟩ x → Visible conf m x :=
    fun x hx => visible_okToFreelyGc hg hx
  refine ⟨hsame.registers, rfl, hsame.constants, fun x hx => ?_, fun x y hx hy => ?_,
    fun v hv => ?_, fun x hx => hsame.below x (hvis x hx)⟩
  · show u.heap (φ x) = rename φ (setCar m.scheme.heap conf.sink conf.nil x)
    rw [hat x (hg.ne_sink (hvis x hx))]
    exact hsame.cell x (hvis x hx)
  · exact hsame.injective x y (hvis x hx) (hvis y hy)
  · show Vector (setCar m.scheme.heap conf.sink conf.nil) v →
      ∀ i < slots (setCar m.scheme.heap conf.sink conf.nil) v, φ (v + 1 + i) = φ v + 1 + i
    rw [Vector, slots, hat v (hg.ne_sink (hvis v hv))]
    exact hsame.row v (hvis v hv)

/-! ### Links that are set -/

/-- The list of recent objects depends on its own cells only. -/
theorem Recents.congr {nil : Nat} {h h' : Heap} {p : Nat} {ks xs : List Nat}
    (hr : Recents nil h p ks xs) (heq : ∀ k ∈ ks, h' k = h k) : Recents nil h' p ks xs := by
  induction ks generalizing p xs with
  | nil =>
    cases xs with
    | nil => exact hr
    | cons x xs => exact hr
  | cons k ks ih =>
    cases xs with
    | nil => exact hr
    | cons x xs =>
      obtain ⟨hp, hcell, hrest⟩ := hr
      have hk := heq k List.mem_cons_self
      have hcdr : cdr h' k = cdr h k := by rw [Heap.cdr, hk]; rfl
      refine ⟨hp, ?_, ?_⟩
      · rw [hk, hcdr]
        exact hcell
      · rw [hcdr]
        exact ih hrest fun j hj => heq j (List.mem_cons_of_mem _ hj)

/-- A pair gets the links `a` and `d`. -/
def relink (c : Cell) (a d : Nat) : Cell := { c with object := .cons a d }

/-- The link of a pair that the interpreter sees is set to another pointer of the interpreter. -/
structure Linked (conf : Conf) (m : Machine) (x a d : Nat) : Prop where
  cell : Visible conf m x
  pair : isAtom m.scheme.heap x = false
  car : Visible conf m a
  cdr : Visible conf m d
  carRoot : Root conf m.scheme a
  cdrRoot : Root conf m.scheme d

variable {a d : Nat}

theorem Linked.rewritten (hg : Good conf m free ks) (hl : Linked conf m x a d) :
    Rewritten conf m.scheme free ∅ {x}
      (Function.update m.scheme.heap x (relink (m.scheme.heap x) a d)) := by
  obtain ⟨hseg, hvec, -, -, -⟩ := hg.pair hl.cell hl.pair
  have hfree : x ∉ free := by
    intro hin
    have hzero := (hg.sound.zero x hseg).mpr (.inl hin)
    rw [(hg.used hl.cell).2] at hzero
    cases hzero
  refine rewritten_cell hseg (fun y hy => absurd hy id) hfree hvec hvec ?_ ?_ (.inr ?_)
  · exact Bool.eq_false_of_not_eq_true fun h =>
      hg.sound.layout.not_special hseg (hg.sound.marked x h)
  · exact (hg.used hl.cell).2
  · exact ⟨a, d, rfl, hl.carRoot.ne_zero hg.sound, hl.cdrRoot.ne_zero hg.sound, hl.carRoot,
      hl.cdrRoot⟩

/-- Setting a link of a pair makes nothing visible. -/
theorem Linked.visible (hg : Good conf m free ks) (hl : Linked conf m x a d) {y : Nat}
    (hy : Visible conf
      (m.withHeap (Function.update m.scheme.heap x (relink (m.scheme.heap x) a d))) y) :
    Visible conf m y := by
  refine visible_of_handles
    (m.withHeap (Function.update m.scheme.heap x (relink (m.scheme.heap x) a d)))
    (fun z hz q hq => ?_) (fun b hb => .of_mem hb) hy
  have hq' : q ∈ follow conf.sink
      (Function.update m.scheme.heap x (relink (m.scheme.heap x) a d)) z := hq
  by_cases hzx : z = x
  · subst hzx
    have hatom : ¬ (m.scheme.heap z).atom = true := by
      rw [show (m.scheme.heap z).atom = false from hl.pair]
      exact Bool.false_ne_true
    obtain ⟨-, hvec, -⟩ := hg.pair hl.cell hl.pair
    rw [follow_of_ne (hg.ne_sink hz), children, Function.update_self, links,
      if_neg (show ¬ (relink (m.scheme.heap z) a d).type = .tVector from hvec),
      if_neg (show ¬ (relink (m.scheme.heap z) a d).atom = true from hatom)] at hq'
    have hq'' : q ∈ [a, d] := (List.mem_filter.mp hq').1
    rcases List.mem_cons.mp hq'' with rfl | h
    · exact hl.car
    · exact List.mem_singleton.mp h ▸ hl.cdr
  · rw [follow_of_ne (hg.ne_sink hz), children, Function.update_of_ne hzx] at hq'
    exact hz.link hg hq'

/-- The machine stays good when a link of a pair is set. -/
theorem Good.relink (hg : Good conf m free ks) (hl : Linked conf m x a d) :
    Good conf (m.withHeap (Function.update m.scheme.heap x (relink (m.scheme.heap x) a d)))
      free ks := by
  have hw := hl.rewritten hg
  have hsink : conf.sink ≠ x := (hg.ne_sink hl.cell).symm
  have hks : ∀ k ∈ ks, k ≠ x := fun k hk heq => hg.hidden k hk (heq ▸ hl.cell)
  have hatom : ∀ y, isAtom (Function.update m.scheme.heap x
      (TinyScheme.relink (m.scheme.heap x) a d)) y = isAtom m.scheme.heap y := by
    intro y
    by_cases hy : y = x
    · subst hy
      rw [isAtom, Function.update_self]
      rfl
    · rw [isAtom, Function.update_of_ne hy]
      rfl
  refine ⟨hg.sound.rewrite hw, hg.noMemory, ?_, hg.holders,
    fun k hk hv => hg.hidden k hk (hl.visible hg hv), fun y hy => hw.root hg.sound (hg.recent y hy),
    fun v hv => ?_⟩
  · show Recents conf.nil _ (Cell.car (Function.update m.scheme.heap x _ conf.sink)) ks m.recent
    rw [Function.update_of_ne hsink]
    exact hg.recents.congr fun k hk => Function.update_of_ne (hks k hk) _ _
  · have hv' := hl.visible hg hv
    show Vector (Function.update m.scheme.heap x _) v →
      ∀ y ∈ children (Function.update m.scheme.heap x _) v,
        isAtom (Function.update m.scheme.heap x _) y = false
    intro hvec y hy
    rw [hatom]
    have hvx : v ≠ x := by
      rintro rfl
      rw [Vector, Function.update_self] at hvec
      exact (hg.pair hl.cell hl.pair).2.1 hvec
    rw [Vector, Function.update_of_ne hvx] at hvec
    rw [children, Function.update_of_ne hvx] at hy
    exact hg.pairs v hv' hvec y hy

/-- The machines stay the same when a link of a pair and of its image
are set. -/
theorem Same.relink (hg : Good conf m free ks) (hsame : Same conf m u φ)
    (hl : Linked conf m x a d) :
    Same conf (m.withHeap (Function.update m.scheme.heap x (TinyScheme.relink (m.scheme.heap x) a d)))
      { u with
        heap := Function.update u.heap (φ x) (TinyScheme.relink (u.heap (φ x)) (φ a) (φ d)) }
      φ := by
  have hatom : ¬ (m.scheme.heap x).atom = true := by
    rw [show (m.scheme.heap x).atom = false from hl.pair]
    exact Bool.false_ne_true
  refine ⟨hsame.registers, hsame.recent, hsame.constants, fun y hy => ?_,
    fun y z hy hz => hsame.injective y z (hl.visible hg hy) (hl.visible hg hz), fun v hv => ?_,
    fun y hy => hsame.below y (hl.visible hg hy)⟩
  · have hy' := hl.visible hg hy
    show Function.update u.heap (φ x) _ (φ y) = rename φ (Function.update m.scheme.heap x _ y)
    by_cases hyx : y = x
    · subst hyx
      rw [Function.update_self, Function.update_self, hsame.cell y hy', rename, rename, if_neg hatom,
        if_neg (show ¬ (TinyScheme.relink (m.scheme.heap y) a d).atom = true from hatom)]
      rfl
    · rw [Function.update_of_ne fun heq => hyx (hsame.injective y x hy' hl.cell heq),
        Function.update_of_ne hyx]
      exact hsame.cell y hy'
  · have hv' := hl.visible hg hv
    show Vector (Function.update m.scheme.heap x _) v →
      ∀ i < slots (Function.update m.scheme.heap x _) v, φ (v + 1 + i) = φ v + 1 + i
    intro hvec
    have hvx : v ≠ x := by
      rintro rfl
      rw [Vector, Function.update_self] at hvec
      exact (hg.pair hl.cell hl.pair).2.1 hvec
    rw [Vector, Function.update_of_ne hvx] at hvec
    rw [slots, Function.update_of_ne hvx]
    exact hsame.row v hv' hvec

end

end Alcor.Proofs.TinyScheme
