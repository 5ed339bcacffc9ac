import Mathlib.Logic.Function.Basic

/-!
# `Alcor.TinyScheme.Cells`: the cells of TinyScheme and their collector

The storage of `src/tinyscheme/scheme.c`. A pointer is the number of a
cell, so `p + 1` is the cell behind `p` as in the source, and `0` is the
null pointer. The flags of `_flag` are fields of their own, and the union
`_object` is one of its members.

`markFrom` is the marker with its labels: `t` is the pointer that leads
back, through links that are turned around on the way down. A loop of the
source that runs until a link ends it has a number of passes here; the
proofs show that it is enough.
-/

set_option autoImplicit false

namespace Alcor.TinyScheme

/-- `enum scheme_types`, the field `T_MASKTYPE` of `_flag`. -/
inductive SchemeType where
  | tNone | tString | tNumber | tSymbol | tProc | tPair | tClosure | tContinuation | tForeign
  | tCharacter | tPort | tVector | tMacro | tPromise | tEnvironment
deriving DecidableEq

/-- The union `_object`. Of a number only the integers are here. -/
inductive Object where
  | cons (car cdr : Nat)
  | string (svalue length : Nat)
  | number (ivalue : Int)
  | port (port : Nat)
  | foreign (ff : Nat)
deriving DecidableEq

/-- `struct cell`: the bits of `_flag` and the object. -/
@[ext] structure Cell where
  type : SchemeType
  /-- `T_SYNTAX` -/
  special : Bool
  /-- `T_IMMUTABLE` -/
  immutable : Bool
  /-- `T_ATOM` -/
  atom : Bool
  /-- `MARK` -/
  marked : Bool
  object : Object
deriving DecidableEq

namespace Cell

/-- `typeflag(p) == 0`. -/
def flagZero (c : Cell) : Bool :=
  decide (c.type = .tNone) && !c.special && !c.immutable && !c.atom && !c.marked

def car (c : Cell) : Nat :=
  match c.object with
  | .cons a _ => a
  | _         => 0

def cdr (c : Cell) : Nat :=
  match c.object with
  | .cons _ d => d
  | _         => 0

def ivalue (c : Cell) : Int :=
  match c.object with
  | .number i => i
  | _         => 0

def setAtom (c : Cell) (atom : Bool) : Cell := { c with atom }
def setMark (c : Cell) (marked : Bool) : Cell := { c with marked }
def setCar (c : Cell) (q : Nat) : Cell := { c with object := .cons q c.cdr }
def setCdr (c : Cell) (q : Nat) : Cell := { c with object := .cons c.car q }

section
variable (c : Cell) (b : Bool) (q : Nat)

-- Each update sets its own field, and leaves all others.

@[simp] theorem type_setAtom : (c.setAtom b).type = c.type := rfl
@[simp] theorem type_setMark : (c.setMark b).type = c.type := rfl
@[simp] theorem type_setCar : (c.setCar q).type = c.type := rfl
@[simp] theorem type_setCdr : (c.setCdr q).type = c.type := rfl
@[simp] theorem atom_setAtom : (c.setAtom b).atom = b := rfl
@[simp] theorem atom_setMark : (c.setMark b).atom = c.atom := rfl
@[simp] theorem atom_setCar : (c.setCar q).atom = c.atom := rfl
@[simp] theorem atom_setCdr : (c.setCdr q).atom = c.atom := rfl
@[simp] theorem marked_setAtom : (c.setAtom b).marked = c.marked := rfl
@[simp] theorem marked_setMark : (c.setMark b).marked = b := rfl
@[simp] theorem marked_setCar : (c.setCar q).marked = c.marked := rfl
@[simp] theorem marked_setCdr : (c.setCdr q).marked = c.marked := rfl
@[simp] theorem object_setAtom : (c.setAtom b).object = c.object := rfl
@[simp] theorem object_setMark : (c.setMark b).object = c.object := rfl
@[simp] theorem object_setCar : (c.setCar q).object = .cons q c.cdr := rfl
@[simp] theorem object_setCdr : (c.setCdr q).object = .cons c.car q := rfl
@[simp] theorem special_setAtom : (c.setAtom b).special = c.special := rfl
@[simp] theorem special_setMark : (c.setMark b).special = c.special := rfl
@[simp] theorem special_setCar : (c.setCar q).special = c.special := rfl
@[simp] theorem special_setCdr : (c.setCdr q).special = c.special := rfl
@[simp] theorem immutable_setAtom : (c.setAtom b).immutable = c.immutable := rfl
@[simp] theorem immutable_setMark : (c.setMark b).immutable = c.immutable := rfl
@[simp] theorem immutable_setCar : (c.setCar q).immutable = c.immutable := rfl
@[simp] theorem immutable_setCdr : (c.setCdr q).immutable = c.immutable := rfl
@[simp] theorem car_setMark : (c.setMark b).car = c.car := rfl
@[simp] theorem cdr_setMark : (c.setMark b).cdr = c.cdr := rfl
@[simp] theorem car_setAtom : (c.setAtom b).car = c.car := rfl
@[simp] theorem cdr_setAtom : (c.setAtom b).cdr = c.cdr := rfl
@[simp] theorem car_setCar : (c.setCar q).car = q := rfl
@[simp] theorem cdr_setCar : (c.setCar q).cdr = c.cdr := rfl
@[simp] theorem car_setCdr : (c.setCdr q).car = c.car := rfl
@[simp] theorem cdr_setCdr : (c.setCdr q).cdr = q := rfl

end

end Cell

/-- All cells. -/
abbrev Heap := Nat → Cell

namespace Heap

def isVector (h : Heap) (p : Nat) : Bool := decide ((h p).type = .tVector)
def isAtom (h : Heap) (p : Nat) : Bool := (h p).atom
def isMark (h : Heap) (p : Nat) : Bool := (h p).marked
def car (h : Heap) (p : Nat) : Nat := (h p).car
def cdr (h : Heap) (p : Nat) : Nat := (h p).cdr

def setatom (h : Heap) (p : Nat) : Heap := Function.update h p ((h p).setAtom true)
def clratom (h : Heap) (p : Nat) : Heap := Function.update h p ((h p).setAtom false)
def setmark (h : Heap) (p : Nat) : Heap := Function.update h p ((h p).setMark true)
def clrmark (h : Heap) (p : Nat) : Heap := Function.update h p ((h p).setMark false)
def setCar (h : Heap) (p q : Nat) : Heap := Function.update h p ((h p).setCar q)
def setCdr (h : Heap) (p q : Nat) : Heap := Function.update h p ((h p).setCdr q)

/-- `ivalue_unchecked(p)/2+ivalue_unchecked(p)%2`: how many cells hold the elements of a vector. -/
def slots (h : Heap) (p : Nat) : Nat := ((h p).ivalue.tdiv 2 + (h p).ivalue.tmod 2).toNat

end Heap

open Heap

/-! ### The marker -/

/-- The labels of `mark`. E4 follows E2. -/
inductive Label where
  | e2 | e5 | e6

/-- `mark` from a label on, with the pointers `t` and `p`. -/
def markFrom : Nat → Heap → Nat → Nat → Label → Option Heap
  | 0, _, _, _, _ => none
  | n + 1, h, t, p, .e2 =>
    let h := setmark h p
    -- Vector cells will be treated like ordinary cells.
    let elements :=
      if isVector h p then
        (List.range (slots h p)).foldlM (fun h i => markFrom n h 0 (p + 1 + i) .e2) h
      else some h
    elements.bind fun h =>
      if isAtom h p then markFrom n h t p .e6
      else
        -- E4: down car.
        let q := car h p
        if q ≠ 0 ∧ isMark h q = false then
          -- a note that we have moved car
          markFrom n (setCar (setatom h p) p t) p q .e2
        else markFrom n h t p .e5
  | n + 1, h, t, p, .e5 =>
    -- E5: down cdr.
    let q := cdr h p
    if q ≠ 0 ∧ isMark h q = false then markFrom n (setCdr h p t) p q .e2
    else markFrom n h t p .e6
  | n + 1, h, t, p, .e6 =>
    -- E6: up. Undo the link switching from steps E4 and E5.
    if t = 0 then some h
    else if isAtom h t then
      markFrom n (setCar (clratom h t) t p) (car h t) t .e5
    else
      markFrom n (setCdr h t p) (cdr h t) t .e6

/-- `mark`. -/
def mark (passes : Nat) (h : Heap) (a : Nat) : Option Heap := markFrom passes h 0 a .e2

/-! ### The interpreter's storage -/

/-- What is fixed: the cells that are not in a segment, and the size and number of the segments. -/
structure Conf where
  sink : Nat
  nil : Nat
  t : Nat
  f : Nat
  /-- `CELL_SEGSIZE` -/
  segSize : Nat
  /-- `CELL_NSEGMENT` -/
  nSegment : Nat

/-- The registers of `struct scheme` that hold cells. -/
inductive Register where
  | oblist | globalEnv | args | envir | code | dump | value | inport | saveInport | outport
  | loadport | cNest
deriving DecidableEq

/-- `struct scheme`, as far as cells are concerned. -/
structure Scheme where
  heap : Heap
  registers : Register → Nat
  /-- `cell_seg[last_cell_seg]`, …, `cell_seg[0]`: the segments, the last one first. -/
  cellSeg : List Nat
  freeCell : Nat
  fcells : Int
  noMemory : Bool
  /-- What `sc->malloc` will answer for a segment: its first cell, or that there is none. -/
  mallocs : List (Option Nat)
  /-- The strings and ports that were given to `sc->free`. -/
  released : List Object

namespace Scheme

/-- `finalize_cell`, but for the closing of a file. -/
def finalizeCell (s : Scheme) (p : Nat) : Scheme :=
  match (s.heap p).type with
  | .tString | .tPort => { s with released := s.released ++ [(s.heap p).object] }
  | _                 => s

/-- What `gc` does with one cell when it builds the free list. -/
def sweepCell (conf : Conf) (s : Scheme) (p : Nat) : Scheme :=
  if isMark s.heap p then { s with heap := clrmark s.heap p }
  else
    let s :=
      if (s.heap p).flagZero then s
      else
        -- reclaim cell
        let s := finalizeCell s p
        let c : Cell := ⟨.tNone, false, false, false, false, .cons conf.nil (s.heap p).cdr⟩
        { s with heap := Function.update s.heap p c }
    { s with fcells := s.fcells + 1, heap := setCdr s.heap p s.freeCell, freeCell := p }

/-- The cells of a segment, from its end down to its start. -/
def segmentDown (conf : Conf) (seg : Nat) : List Nat :=
  (List.range conf.segSize).reverse.map (seg + ·)

/-- The pointers that `gc` marks, in its order. -/
def roots (conf : Conf) (s : Scheme) (a b : Nat) : List Nat :=
  let r := s.registers
  -- system globals, current registers, ports
  [r .oblist, r .globalEnv, r .args, r .envir, r .code, r .dump, r .value, r .inport, r .saveInport,
    r .outport, r .loadport,
    -- recent objects the interpreter doesn't know about yet, and older stuff above nested C calls
    car s.heap conf.sink, r .cNest,
    -- variables a, b
    a, b]

/-- How many passes `mark` is given: four for each cell there is. -/
def passes (conf : Conf) (s : Scheme) : Nat := 4 * (conf.segSize * s.cellSeg.length + 4) + 2

/-- `gc`. -/
def gc (conf : Conf) (s : Scheme) (a b : Nat) : Option Scheme :=
  ((roots conf s a b).foldlM (fun h p => mark (passes conf s) h p) s.heap).map fun h =>
    -- garbage collect
    let s := { s with heap := clrmark h conf.nil, fcells := 0, freeCell := conf.nil }
    s.cellSeg.foldl (fun s seg => (segmentDown conf seg).foldl (sweepCell conf) s) s

/-! ### More cells -/

/-- The new segment takes its place in `cell_seg`. -/
def insertSegment (newp : Nat) : List Nat → List Nat
  | []      => [newp]
  | p :: ps => if p > newp then p :: insertSegment newp ps else newp :: p :: ps

/-- The free cell that the new ones are put behind, from `p` on. -/
def findPlace (conf : Conf) (h : Heap) (newp : Nat) : Nat → Nat → Nat
  | 0,          p => p
  | passes + 1, p =>
    if cdr h p ≠ conf.nil ∧ newp > cdr h p then findPlace conf h newp passes (cdr h p) else p

/-- The cells of a new segment, each linked to the one behind it. -/
def freshCells (conf : Conf) (h : Heap) (newp : Nat) : Heap := fun p =>
  if newp ≤ p ∧ p < newp + conf.segSize then
    ⟨.tNone, false, false, false, false, .cons conf.nil (p + 1)⟩
  else h p

/-- A segment of free cells is added at `newp`. -/
def addSegment (conf : Conf) (s : Scheme) (newp : Nat) : Scheme :=
  let last := newp + conf.segSize - 1
  let h := freshCells conf s.heap newp
  let s := { s with cellSeg := insertSegment newp s.cellSeg, fcells := s.fcells + conf.segSize }
  -- insert new cells in address order on free list
  if s.freeCell = conf.nil ∨ last + 1 < s.freeCell then
    { s with heap := setCdr h last s.freeCell, freeCell := newp }
  else
    let p := findPlace conf h newp (conf.segSize * s.cellSeg.length) s.freeCell
    { s with heap := setCdr (setCdr h last (cdr h p)) p newp }

/-- `alloc_cellseg( sc, 1 )`: whether a segment was added. -/
def allocCellseg (conf : Conf) (s : Scheme) : Bool × Scheme :=
  -- last_cell_seg >= CELL_NSEGMENT - 1
  if conf.nSegment ≤ s.cellSeg.length then (false, s)
  else
    match s.mallocs with
    | []             => (false, s)
    | none :: rest   => (false, { s with mallocs := rest })
    | some p :: rest => (true, addSegment conf { s with mallocs := rest } p)

/-! ### Allocation -/

/-- The first free cell is taken. -/
def takeCell (s : Scheme) : Nat × Scheme :=
  (s.freeCell, { s with freeCell := cdr s.heap s.freeCell, fcells := s.fcells - 1 })

/-- `_get_cell`. -/
def getCellSlow (conf : Conf) (s : Scheme) (a b : Nat) : Option (Nat × Scheme) :=
  if s.noMemory then some (conf.sink, s)
  else if s.freeCell = conf.nil then
    let minToBeRecovered : Int := (s.cellSeg.length - 1 : Int) * 8
    (gc conf s a b).map fun s =>
      if s.fcells < minToBeRecovered ∨ s.freeCell = conf.nil then
        -- if only a few recovered, get more to avoid fruitless gc's
        match allocCellseg conf s with
        | (true, s)  => takeCell s
        | (false, s) =>
          if s.freeCell = conf.nil then (conf.sink, { s with noMemory := true }) else takeCell s
      else takeCell s
  else some (takeCell s)

/-- `get_cell_x`. -/
def getCellX (conf : Conf) (s : Scheme) (a b : Nat) : Option (Nat × Scheme) :=
  if s.freeCell ≠ conf.nil then some (takeCell s) else getCellSlow conf s a b

/-- `push_recent_alloc`: the object is kept until the interpreter knows about it. -/
def pushRecentAlloc (conf : Conf) (s : Scheme) (recent extra : Nat) : Option Scheme :=
  (getCellX conf s recent extra).map fun (holder, s) =>
    let h := Function.update s.heap holder
      ⟨.tPair, false, true, false, false, .cons recent (s.heap holder).cdr⟩
    { s with heap := setCar (setCdr h holder (car h conf.sink)) conf.sink holder }

/-- `get_cell`. -/
def getCell (conf : Conf) (s : Scheme) (a b : Nat) : Option (Nat × Scheme) :=
  (getCellX conf s a b).bind fun (cell, s) =>
    -- Tentatively record it as a pair so gc understands it.
    let c : Cell := ⟨.tPair, false, false, false, false, .cons a b⟩
    let s := { s with heap := Function.update s.heap cell c }
    (pushRecentAlloc conf s cell conf.nil).map fun s => (cell, s)

/-- `ok_to_freely_gc`. -/
def okToFreelyGc (conf : Conf) (s : Scheme) : Scheme :=
  { s with heap := setCar s.heap conf.sink conf.nil }

/-- A new object of a type, with the pointers that `get_cell` keeps alive for it. -/
def mkObject (conf : Conf) (s : Scheme) (a b : Nat) (type : SchemeType)
    (immutable atom : Bool) (object : Object) : Option (Nat × Scheme) :=
  (getCell conf s a b).map fun (x, s) =>
    (x, { s with heap := Function.update s.heap x ⟨type, false, immutable, atom, false, object⟩ })

/-- `_cons`. -/
def cons (conf : Conf) (s : Scheme) (a b : Nat) (immutable : Bool) :
    Option (Nat × Scheme) :=
  mkObject conf s a b .tPair immutable false (.cons a b)

/-- `mk_closure`. -/
def mkClosure (conf : Conf) (s : Scheme) (c e : Nat) : Option (Nat × Scheme) :=
  mkObject conf s c e .tClosure false false (.cons c e)

/-- `mk_continuation`. -/
def mkContinuation (conf : Conf) (s : Scheme) (d : Nat) : Option (Nat × Scheme) :=
  mkObject conf s conf.nil d .tContinuation false false (.cons conf.nil d)

/-- `mk_integer`. -/
def mkInteger (conf : Conf) (s : Scheme) (num : Int) : Option (Nat × Scheme) :=
  mkObject conf s conf.nil conf.nil .tNumber false true (.number num)

/-- `mk_character`. -/
def mkCharacter (conf : Conf) (s : Scheme) (c : Int) : Option (Nat × Scheme) :=
  mkObject conf s conf.nil conf.nil .tCharacter false true (.number c)

/-- `mk_counted_string`, with the area that `store_string` has allocated. -/
def mkCountedString (conf : Conf) (s : Scheme) (svalue length : Nat) : Option (Nat × Scheme) :=
  mkObject conf s conf.nil conf.nil .tString false true (.string svalue length)

/-- `mk_port`. -/
def mkPort (conf : Conf) (s : Scheme) (port : Nat) : Option (Nat × Scheme) :=
  mkObject conf s conf.nil conf.nil .tPort false true (.port port)

/-- `mk_foreign_func`. -/
def mkForeignFunc (conf : Conf) (s : Scheme) (ff : Nat) : Option (Nat × Scheme) :=
  mkObject conf s conf.nil conf.nil .tForeign false true (.foreign ff)

/-! ### Vectors -/

/-- The loop of `count_consecutive_cells` at the cell `x`, the `n`-th one. -/
def countFrom (h : Heap) (needed : Nat) : Nat → Nat → Nat → Nat
  | 0,          _, n => n
  | passes + 1, x, n =>
    if cdr h x = x + 1 then
      if n + 1 > needed then n + 1 else countFrom h needed passes (x + 1) (n + 1)
    else n

/-- `count_consecutive_cells`. -/
def countConsecutiveCells (h : Heap) (x : Nat) (needed : Nat) : Nat :=
  countFrom h needed needed x 1

/-- `*pp`, where `pp` is the address of `free_cell` (`none`) or of the link of a cell. -/
def link (s : Scheme) : Option Nat → Nat
  | none   => s.freeCell
  | some q => cdr s.heap q

/-- `*pp = p`. -/
def setLink (s : Scheme) (pp : Option Nat) (p : Nat) : Scheme :=
  match pp with
  | none   => { s with freeCell := p }
  | some q => { s with heap := setCdr s.heap q p }

/-- The loop of `find_consecutive_cells`. -/
def findFrom (conf : Conf) (s : Scheme) (n : Nat) : Nat → Option Nat → Nat × Scheme
  | 0,          _  => (conf.nil, s)
  | passes + 1, pp =>
    let x := link s pp
    if x = conf.nil then (conf.nil, s)
    else
      let cnt := countConsecutiveCells s.heap x n
      if n ≤ cnt then
        (x, { setLink s pp (cdr s.heap (x + n - 1)) with fcells := s.fcells - n })
      else findFrom conf s n passes (some (x + cnt - 1))

/-- `find_consecutive_cells`. -/
def findConsecutiveCells (conf : Conf) (s : Scheme) (n : Nat) : Nat × Scheme :=
  findFrom conf s n (conf.segSize * s.cellSeg.length + 1) none

/-- `get_consecutive_cells`. -/
def getConsecutiveCells (conf : Conf) (s : Scheme) (n : Nat) : Option (Nat × Scheme) :=
  if s.noMemory then some (conf.sink, s)
  else
    -- Are there any cells available?
    match findConsecutiveCells conf s n with
    | (x, s) =>
      if x ≠ conf.nil then some (x, s)
      else
        -- If not, try gc'ing some.
        (gc conf s conf.nil conf.nil).map fun s =>
          match findConsecutiveCells conf s n with
          | (x, s) =>
            if x ≠ conf.nil then (x, s)
            else
              -- If there still aren't, try getting more heap.
              match allocCellseg conf s with
              | (false, s) => (conf.sink, { s with noMemory := true })
              | (true, s)  =>
                match findConsecutiveCells conf s n with
                | (x, s) =>
                  if x ≠ conf.nil then (x, s)
                  else (conf.sink, { s with noMemory := true })

/-- `fill_vector`. -/
def fillVector (h : Heap) (vec obj : Nat) : Heap :=
  (List.range (slots h vec)).foldl (fun h i =>
    Function.update h (vec + 1 + i)
      { h (vec + 1 + i) with type := .tPair, special := false, immutable := true, atom := false,
                             marked := false, object := .cons obj obj }) h

/-- `vector_elem`. -/
def vectorElem (h : Heap) (vec : Nat) (ielem : Nat) : Nat :=
  if ielem % 2 = 0 then car h (vec + 1 + ielem / 2) else cdr h (vec + 1 + ielem / 2)

/-- `set_vector_elem`. -/
def setVectorElem (h : Heap) (vec : Nat) (ielem : Nat) (a : Nat) : Heap :=
  if ielem % 2 = 0 then setCar h (vec + 1 + ielem / 2) a else setCdr h (vec + 1 + ielem / 2) a

/-- `get_vector_object`. -/
def getVectorObject (conf : Conf) (s : Scheme) (len : Nat) (init : Nat) :
    Option (Nat × Scheme) :=
  (getConsecutiveCells conf s (len / 2 + len % 2 + 1)).bind fun (cells, s) =>
    if s.noMemory then some (conf.sink, s)
    else
      -- Record it as a vector so that gc understands it.
      let h := Function.update s.heap cells ⟨.tVector, false, false, true, false, .number len⟩
      (pushRecentAlloc conf { s with heap := fillVector h cells init } cells conf.nil).map
        fun s => (cells, s)

/-- `mk_vector`. -/
def mkVector (conf : Conf) (s : Scheme) (len : Nat) : Option (Nat × Scheme) :=
  getVectorObject conf s len conf.nil

/-! ### The start -/

/-- The storage without a segment. What is no cell has no links. -/
def noCells (conf : Conf) (mallocs : List (Option Nat)) : Scheme where
  heap p :=
    if p = conf.sink then ⟨.tPair, false, false, false, true, .cons conf.nil conf.nil⟩
    else if p = conf.nil ∨ p = conf.t ∨ p = conf.f then
      ⟨.tNone, false, false, true, true, .cons p p⟩
    else ⟨.tNone, false, false, true, false, .number 0⟩
  registers _ := conf.nil
  cellSeg := []
  freeCell := conf.nil
  fcells := 0
  noMemory := false
  mallocs
  released := []

/-- `alloc_cellseg( sc, n )`, as `scheme_init_custom_alloc` uses it. -/
def allocCellsegs (conf : Conf) : Nat → Scheme → Option Scheme
  | 0,     s => some s
  | n + 1, s =>
    match allocCellseg conf s with
    | (true, s) => allocCellsegs conf n s
    | (false, _) => none

/-- The cells after `scheme_init_custom_alloc`, before the first object: `FIRST_CELLSEGS` is 3. -/
def init (conf : Conf) (mallocs : List (Option Nat)) : Option Scheme :=
  allocCellsegs conf 3 (noCells conf mallocs)

end Scheme

end Alcor.TinyScheme
