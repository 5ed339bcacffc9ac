import Mathlib.Algebra.Group.Int.Defs
import Mathlib.Algebra.Group.Nat.Defs
import Mathlib.Data.Nat.Log
import Mathlib.Logic.Function.Basic

/-!
# `Alcor.Lua.Table`: the resize of a table

A table has an array part and a vector of nodes with keys, values and
links. `ltable.c` resizes the vector in place: the chains are broken,
integer keys go to the array part and the nodes that vanish to free
ones, the vector is cut off, and each node is moved to its main
position or into its chain.

The loops along links take the number of steps they may take; `none`
is a loop that did not end, a write to no node, the error `table
overflow`, or the call of `rehash` for a table that is full. Marks of
the collector and the errors of the allocator are left out.
-/

set_option autoImplicit false

namespace Alcor.Lua

/-- What tables ask of `lua_Number`, where numbers are the same if `luai_numeq` says so. -/
structure Numbers (N : Type) where
  /-- `luai_numeq( n, 0 )`. -/
  isZero : N → Bool
  /-- The sum of the words of a number. -/
  word : N → Nat
  /-- `lua_number2int`, for a number that is the integer. -/
  toInt : N → Option Int
  /-- `cast_num`. -/
  ofInt : Int → N
  toInt_ofInt : ∀ k, 0 < k → k < 2 ^ 31 → toInt (ofInt k) = some k
  ofInt_toInt : ∀ n k, toInt n = some k → ofInt k = n

/-- A key. Strings are known by their address, and carry their hash. Light userdata, rotables and
light functions are pointers of a type, and all others are collectable objects. -/
inductive Key (N : Type) where
  | number (n : N)
  | string (address hash : Nat)
  | boolean (b : Bool)
  | pointer (type p : Nat)
  | object (p : Nat)
  deriving DecidableEq

/-- `Node`, where nil is `none`. -/
structure Node (N V : Type) where
  key : Option (Key N) := none
  val : Option V := none
  next : Option Nat := none

/-- `Table`, as far as the two parts are concerned. -/
structure Table (N V : Type) where
  node : Nat → Node N V
  lsizenode : Nat
  /-- `node` is `dummynode`. -/
  dummy : Bool
  lastfree : Nat
  array : Nat → Option V
  sizearray : Nat

def MAXBITS : Nat := 26

variable {N V : Type} (num : Numbers N)

/-- `hashmod`. -/
def hashmod (size n : Nat) : Nat := n % ((size - 1) ||| 1)

/-- `mainposition`, as an index. -/
def mainposition (size : Nat) : Key N → Nat
  | .number n    => if num.isZero n then 0 else hashmod size (num.word n)
  | .string _ h  => h % size
  | .boolean b   => b.toNat % size
  | .pointer _ p => hashmod size p
  | .object p    => hashmod size p

/-- The index of a key in an array part of a size. -/
def arraySlot (size : Nat) : Key N → Option Nat
  | .number n =>
    match num.toInt n with
    | some k => if 1 ≤ k ∧ k ≤ size then some (k - 1).toNat else none
    | none   => none
  | _         => none

namespace Table

variable (t : Table N V)

/-- `sizenode`. -/
def sizenode : Nat := 2 ^ t.lsizenode

/-- Writes a node. -/
def setNode (i : Nat) (n : Node N V) : Table N V := { t with node := Function.update t.node i n }

/-- `gnext( node ) = next`. -/
def setNext (i : Nat) (next : Option Nat) : Table N V := t.setNode i { t.node i with next }

/-- The main position of the key in a node. -/
def mainOf (i : Nat) : Option Nat := (t.node i).key.map (mainposition num t.sizenode)

/-! ### Searches -/

/-- `find_prev_node`. -/
def findPrevNode : Nat → Nat → Nat → Option (Option Nat)
  | 0,     _,    _    => none
  | n + 1, prev, next =>
    if (t.node prev).next = some next then some (some prev)
    else
      match (t.node prev).next with
      | none      => some none
      | some prev => findPrevNode n prev next

/-- The loops of `luaH_getnum`, `luaH_getstr` and `luaH_get`. -/
def findNode [DecidableEq N] (key : Key N) : Nat → Nat → Option (Option Nat)
  | 0,     _ => none
  | n + 1, i =>
    if (t.node i).key = some key then some (some i)
    else
      match (t.node i).next with
      | none   => some none
      | some i => findNode key n i

/-- `luaH_get`. -/
def get [DecidableEq N] (n : Nat) (key : Key N) : Option (Option V) :=
  match arraySlot num t.sizearray key with
  | some i => some (t.array i)
  | none   => do
      let i ← t.findNode key n (mainposition num t.sizenode key)
      return i.bind fun i => (t.node i).val

/-! ### The node vector -/

/-- The loop of `getfreepos`. -/
def freeBelow : Nat → Option Nat
  | 0     => none
  | i + 1 => if (t.node i).key.isNone then some i else freeBelow i

/-- `getfreepos`. -/
def getfreepos : Option Nat × Table N V :=
  match t.freeBelow t.lastfree with
  | some i => (some i, { t with lastfree := i })
  | none   => (none, { t with lastfree := 0 })

/-- `resizenodevector`; `none` is the error `table overflow`. -/
def resizenodevector (oldsize newsize : Nat) : Option (Table N V) :=
  if newsize = 0 then
    some { t with node := fun _ => {}, lsizenode := 0, dummy := true, lastfree := 0 }
  else
    let lsize := Nat.clog 2 newsize
    if MAXBITS < lsize then none
    else
      let oldsize := if t.dummy then 0 else oldsize
      some { t with
        node := fun i => if i < oldsize ∧ i < 2 ^ lsize then t.node i else {}
        lsizenode := lsize, dummy := false, lastfree := 2 ^ lsize }

/-- `setarrayvector`. -/
def setarrayvector (size : Nat) : Table N V :=
  { t with
    array := fun i => if i < t.sizearray then t.array i else none
    sizearray := size }

/-! ### Moving nodes -/

/-- `move_node`, with whether it returns 1. -/
def moveNode (n i : Nat) : Option (Bool × Table N V) := do
  let mp := (t.mainOf num i).getD 0
  if mp = i then return (true, t)
  else
    let prev ← t.findPrevNode n mp i
    if prev.isSome then return (true, t)
    else if (t.node mp).val.isSome || t.dummy then
      let othermp := (t.mainOf num mp).getD 0
      if othermp ≠ mp then
        let prev ← t.findPrevNode n othermp mp
        let u := match prev with
          | some prev => t.setNext prev (some i)
          | none      => t
        return (prev.isSome, (u.setNode i (u.node mp)).setNode mp (t.node i))
      else
        let u := t.setNext i (t.node mp).next
        return (true, u.setNext mp (some i))
    else
      return (true, (t.setNode mp (t.node i)).setNode i {})

/-- `move_number`: `none` if it returns 0. -/
def moveNumber (i : Nat) : Option (Table N V) := do
  let key ← (t.node i).key
  let k ← arraySlot num t.sizearray key
  let u := { t with array := Function.update t.array k (t.node i).val }
  return u.setNode i { t.node i with key := none, val := none }

/-- One pass of the loop that breaks the chains; `none` is a write to no node. -/
def breakNode (nhsize i : Nat) : Option (Table N V) :=
  let t := t.setNext i none
  if (t.node i).val.isNone then some (t.setNode i { t.node i with key := none })
  else
    match t.moveNumber num i with
    | some t => some t
    | none   =>
      if nhsize ≤ i then
        match t.getfreepos with
        | (some n, u) => some (u.setNode n (t.node i))
        | (none, _)   => none
      else some t

end Table

/-- `while( move_node( L, t, curr ) == 0 )`. -/
def moveWhile (n i : Nat) : Nat → Table N V → Option (Table N V)
  | 0,     _ => none
  | k + 1, t => do
      let (done, t) ← t.moveNode num n i
      if done then return t else moveWhile n i k t

/-- The loop that breaks the chains, for the first nodes. -/
def breakNodes (nhsize : Nat) : Nat → Table N V → Option (Table N V)
  | 0,     t => some t
  | i + 1, t => do
      let t ← breakNodes nhsize i t
      t.breakNode num nhsize i

/-- The loop that moves the nodes, for the first nodes. -/
def moveNodes (n : Nat) : Nat → Table N V → Option (Table N V)
  | 0,     t => some t
  | i + 1, t => do
      let t ← moveNodes n i t
      if (t.node i).val.isSome then moveWhile num n i n t else return t

namespace Table

variable (t : Table N V)

/-- The loops of `resize_hashpart`, with what is between them. -/
def rehashNodes (n oldhsize nhsize : Nat) : Option (Table N V) := do
  let t ← breakNodes num nhsize oldhsize t
  (if nhsize < oldhsize then t.resizenodevector oldhsize nhsize else some t).bind
    (moveNodes num n nhsize)

/-- `resize_hashpart`. -/
def resizeHashpart (n nhsize : Nat) : Option (Table N V) :=
  let oldhsize := if t.dummy then 0 else t.sizenode
  let lsize := if 0 < nhsize then Nat.clog 2 nhsize else 0
  if 0 < nhsize ∧ MAXBITS < lsize then none
  else
    let nhsize := 2 ^ lsize
    if oldhsize < nhsize then do
      let t ← t.resizenodevector oldhsize nhsize
      t.rehashNodes num n oldhsize nhsize
    else if 0 < nhsize then
      { t with lsizenode := lsize, lastfree := nhsize }.rehashNodes num n oldhsize nhsize
    else t.resizenodevector oldhsize nhsize

/-! ### Keys that are new -/

/-- `newkey`, up to the call of `rehash`, which is `none`. -/
def newkey (n : Nat) (key : Key N) : Option (Nat × Table N V) :=
  let mp := mainposition num t.sizenode key
  if (t.node mp).val.isSome || t.dummy then
    match t.getfreepos with
    | (none, _)   => none
    | (some i, t) =>
      let othern := (t.mainOf num mp).getD 0
      if othern ≠ mp then do
        let prev ← t.findPrevNode n othern mp
        let prev ← prev
        let t := t.setNext prev (some i)
        let t := t.setNode i (t.node mp)
        return (mp, t.setNode mp { t.node mp with next := none, val := none, key := some key })
      else
        let t := t.setNext i (t.node mp).next
        let t := t.setNext mp (some i)
        some (i, t.setNode i { t.node i with key := some key })
  else some (mp, t.setNode mp { t.node mp with key := some key })

/-- `luaH_setnum`, and a value for the key. -/
def setnum [DecidableEq N] (n key : Nat) (v : V) : Option (Table N V) :=
  match arraySlot num t.sizearray (.number (num.ofInt key)) with
  | some i => some { t with array := Function.update t.array i (some v) }
  | none   => do
      let k := Key.number (num.ofInt key)
      let i ← t.findNode k n (mainposition num t.sizenode k)
      match i with
      | some i => return t.setNode i { t.node i with val := some v }
      | none   =>
        let (i, t) ← t.newkey num n k
        return t.setNode i { t.node i with val := some v }

/-- One pass of the loop of `resize` for the vanishing slice. -/
def reinsertAt [DecidableEq N] (n i : Nat) : Option (Table N V) :=
  (t.array i).elim (some t) fun v => t.setnum num n (i + 1) v

end Table

/-- The loop for the vanishing slice, for the first of its elements. -/
def reinsert [DecidableEq N] (n nasize : Nat) : Nat → Table N V → Option (Table N V)
  | 0,     t => some t
  | k + 1, t => do
      let t ← reinsert n nasize k t
      t.reinsertAt num n (nasize + k)

/-- `resize`. -/
def Table.resize [DecidableEq N] (t : Table N V) (n nasize nhsize : Nat) : Option (Table N V) := do
  let oldasize := t.sizearray
  let t := if oldasize < nasize then t.setarrayvector nasize else t
  let t ← t.resizeHashpart num n nhsize
  if nasize < oldasize then
    let t ← reinsert num n nasize (oldasize - nasize) { t with sizearray := nasize }
    return { t with array := fun i => if i < nasize then t.array i else none }
  else return t

end Alcor.Lua
