import Alcor.TinyScheme.Cells

/-!
# `Alcor.TinyScheme.Machine`: what the interpreter does with cells

The operations of the interpreter, as far as they touch cells: it moves
pointers between its registers, reads and writes the links of pairs and
the elements of vectors, and makes new objects. `step` does one of them
on the storage, and `run` goes on until there is no memory, where
`Eval_Cycle` returns.

Between two calls of `ok_to_freely_gc` the C code also has the new
objects in variables of its own (`recent`). It does not have other
pointers there across an allocation.

`Unlimited` is the machine the interpreter is written for: every new
object has cells of its own, and none is taken back.
-/

set_option autoImplicit false

namespace Alcor.TinyScheme

open Heap

/-- A pointer: in a register, to a new object, or to a constant. -/
inductive Ref where
  | reg (r : Register)
  | recent (i : Nat)
  | nil | t | f
deriving DecidableEq

/-- An operation of the interpreter. -/
inductive Op where
  | load (r : Register) (p : Ref)
  | car (r : Register) (p : Ref)
  | cdr (r : Register) (p : Ref)
  | setCar (p q : Ref)
  | setCdr (p q : Ref)
  | vectorElem (r : Register) (vec : Ref) (ielem : Nat)
  | setVectorElem (vec : Ref) (ielem : Nat) (a : Ref)
  | cons (a b : Ref) (immutable : Bool)
  | mkClosure (c e : Ref)
  | mkContinuation (d : Ref)
  | mkInteger (num : Int)
  | mkCharacter (c : Int)
  | mkCountedString (svalue length : Nat)
  | mkPort (port : Nat)
  | mkForeignFunc (ff : Nat)
  | mkVector (len : Nat)
  | okToFreelyGc
  | gc

/-- Where a pointer leads, with the registers and the new objects, the newest first. -/
def Ref.get (conf : Conf) (registers : Register → Nat) (recent : List Nat) : Ref → Nat
  | .reg r    => registers r
  | .recent i => recent.getD i conf.nil
  | .nil      => conf.nil
  | .t        => conf.t
  | .f        => conf.f

/-! ### The machine -/

/-- The storage and the new objects that the C code has in variables. -/
structure Machine where
  scheme : Scheme
  recent : List Nat

namespace Machine

def get (conf : Conf) (m : Machine) (p : Ref) : Nat := p.get conf m.scheme.registers m.recent

def load (m : Machine) (r : Register) (p : Nat) : Machine :=
  { m with scheme := { m.scheme with registers := Function.update m.scheme.registers r p } }

def withHeap (m : Machine) (h : Heap) : Machine := { m with scheme := { m.scheme with heap := h } }

/-- A new object comes to those that the C code has. -/
def push (m : Machine) (r : Nat × Scheme) : Machine := ⟨r.2, r.1 :: m.recent⟩

/-- One operation. An operation on a pair or a vector does nothing with another object. -/
def step (conf : Conf) (m : Machine) : Op → Option Machine
  | .load r p => some (m.load r (m.get conf p))
  | .car r p =>
    if isAtom m.scheme.heap (m.get conf p) then some m
    else some (m.load r (Heap.car m.scheme.heap (m.get conf p)))
  | .cdr r p =>
    if isAtom m.scheme.heap (m.get conf p) then some m
    else some (m.load r (Heap.cdr m.scheme.heap (m.get conf p)))
  | .setCar p q =>
    if isAtom m.scheme.heap (m.get conf p) then some m
    else some (m.withHeap (Heap.setCar m.scheme.heap (m.get conf p) (m.get conf q)))
  | .setCdr p q =>
    if isAtom m.scheme.heap (m.get conf p) then some m
    else some (m.withHeap (Heap.setCdr m.scheme.heap (m.get conf p) (m.get conf q)))
  | .vectorElem r vec i =>
    if isVector m.scheme.heap (m.get conf vec) ∧ i / 2 < slots m.scheme.heap (m.get conf vec) then
      some (m.load r (Scheme.vectorElem m.scheme.heap (m.get conf vec) i))
    else some m
  | .setVectorElem vec i a =>
    if isVector m.scheme.heap (m.get conf vec) ∧ i / 2 < slots m.scheme.heap (m.get conf vec) then
      some (m.withHeap (Scheme.setVectorElem m.scheme.heap (m.get conf vec) i (m.get conf a)))
    else some m
  | .cons a b immutable =>
    (Scheme.cons conf m.scheme (m.get conf a) (m.get conf b) immutable).map m.push
  | .mkClosure c e => (Scheme.mkClosure conf m.scheme (m.get conf c) (m.get conf e)).map m.push
  | .mkContinuation d => (Scheme.mkContinuation conf m.scheme (m.get conf d)).map m.push
  | .mkInteger num => (Scheme.mkInteger conf m.scheme num).map m.push
  | .mkCharacter c => (Scheme.mkCharacter conf m.scheme c).map m.push
  | .mkCountedString svalue length =>
    (Scheme.mkCountedString conf m.scheme svalue length).map m.push
  | .mkPort port => (Scheme.mkPort conf m.scheme port).map m.push
  | .mkForeignFunc ff => (Scheme.mkForeignFunc conf m.scheme ff).map m.push
  | .mkVector len => (Scheme.mkVector conf m.scheme len).map m.push
  | .okToFreelyGc => some ⟨Scheme.okToFreelyGc conf m.scheme, []⟩
  | .gc => (Scheme.gc conf m.scheme conf.nil conf.nil).map fun s => ⟨s, m.recent⟩

/-- The operations one after the other, until there is no memory. -/
def run (conf : Conf) (m : Machine) : List Op → Option Machine
  | []        => some m
  | op :: ops =>
    (step conf m op).bind fun m => if m.scheme.noMemory then some m else run conf m ops

end Machine

/-! ### Unlimited memory -/

/-- A machine whose objects are never taken back. The cells from `next` on were never used. -/
structure Unlimited where
  heap : Heap
  registers : Register → Nat
  recent : List Nat
  next : Nat

namespace Unlimited

def get (conf : Conf) (u : Unlimited) (p : Ref) : Nat := p.get conf u.registers u.recent

def load (u : Unlimited) (r : Register) (p : Nat) : Unlimited :=
  { u with registers := Function.update u.registers r p }

/-- A new object of one cell. -/
def make (u : Unlimited) (type : SchemeType) (immutable atom : Bool) (object : Object) : Unlimited :=
  { u with
    heap := Function.update u.heap u.next ⟨type, false, immutable, atom, false, object⟩
    recent := u.next :: u.recent
    next := u.next + 1 }

/-- A new vector, with `()` for all elements. -/
def makeVector (conf : Conf) (u : Unlimited) (len : Nat) : Unlimited :=
  { u with
    heap := Scheme.fillVector
      (Function.update u.heap u.next ⟨.tVector, false, false, true, false, .number len⟩) u.next
      conf.nil
    recent := u.next :: u.recent
    next := u.next + (len / 2 + len % 2 + 1) }

def step (conf : Conf) (u : Unlimited) : Op → Unlimited
  | .load r p => u.load r (u.get conf p)
  | .car r p =>
    if isAtom u.heap (u.get conf p) then u else u.load r (Heap.car u.heap (u.get conf p))
  | .cdr r p =>
    if isAtom u.heap (u.get conf p) then u else u.load r (Heap.cdr u.heap (u.get conf p))
  | .setCar p q =>
    if isAtom u.heap (u.get conf p) then u
    else { u with heap := Heap.setCar u.heap (u.get conf p) (u.get conf q) }
  | .setCdr p q =>
    if isAtom u.heap (u.get conf p) then u
    else { u with heap := Heap.setCdr u.heap (u.get conf p) (u.get conf q) }
  | .vectorElem r vec i =>
    if isVector u.heap (u.get conf vec) ∧ i / 2 < slots u.heap (u.get conf vec) then
      u.load r (Scheme.vectorElem u.heap (u.get conf vec) i)
    else u
  | .setVectorElem vec i a =>
    if isVector u.heap (u.get conf vec) ∧ i / 2 < slots u.heap (u.get conf vec) then
      { u with heap := Scheme.setVectorElem u.heap (u.get conf vec) i (u.get conf a) }
    else u
  | .cons a b immutable => u.make .tPair immutable false (.cons (u.get conf a) (u.get conf b))
  | .mkClosure c e => u.make .tClosure false false (.cons (u.get conf c) (u.get conf e))
  | .mkContinuation d => u.make .tContinuation false false (.cons conf.nil (u.get conf d))
  | .mkInteger num => u.make .tNumber false true (.number num)
  | .mkCharacter c => u.make .tCharacter false true (.number c)
  | .mkCountedString svalue length => u.make .tString false true (.string svalue length)
  | .mkPort port => u.make .tPort false true (.port port)
  | .mkForeignFunc ff => u.make .tForeign false true (.foreign ff)
  | .mkVector len => u.makeVector conf len
  | .okToFreelyGc => { u with recent := [] }
  | .gc => u

def run (conf : Conf) (u : Unlimited) (ops : List Op) : Unlimited := ops.foldl (step conf) u

/-- The constants, and no object yet. -/
def init (conf : Conf) : Unlimited where
  heap p := ((Scheme.noCells conf []).heap p).setMark false
  registers _ := conf.nil
  recent := []
  next := conf.nil + conf.t + conf.f + 1

end Unlimited

/-! ### What can be told apart -/

/-- What the interpreter sees of an object without following its links. -/
structure View where
  type : SchemeType
  special : Bool
  immutable : Bool
  atom : Bool
  /-- The value of an atom. -/
  object : Option Object
deriving DecidableEq

def Cell.view (c : Cell) : View :=
  ⟨c.type, c.special, c.immutable, c.atom,
    match c.object with
    | .cons _ _ => none
    | o         => some o⟩

end Alcor.TinyScheme
