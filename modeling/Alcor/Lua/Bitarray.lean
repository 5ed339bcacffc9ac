import Mathlib.Algebra.Ring.Int.Defs
import Alcor.Lib.Run
import Alcor.Lib.Memory

/-!
# `Alcor.Lua.Bitarray`: arrays of elements of a few bits

`src/modules/bitarray.c`. An array is one block from
`lua_newuserdata`: four bytes with the capacity, one with the size of an
element, and then the values, the first of them in the high bits of its byte.
The accesses are those of the block, and one outside of it is `undefined`, as a
division by zero is.

An address is taken modulo the width of a pointer. It is 32 bits on the
targets and may be 64 on the desktop, and so are a `size_t` and a
`lua_Integer`.
-/

set_option autoImplicit false

namespace Alcor.Lua.Bitarray

open Lib (Mem Buf bytesIn valIn)

/-- The machine. -/
structure Machine where
  /-- A pointer has 64 bits, and not 32. -/
  wide : Bool
  /-- The low byte of a number comes first. -/
  little : Bool

/-- The bits of a pointer, of a `size_t` and of a `lua_Integer`. -/
def Machine.bits (m : Machine) : Nat := if m.wide then 64 else 32

/-- How a call ends. -/
inductive Outcome (α : Type) where
  | ok (result : α)
  | error (text : String)
  /-- A division by zero, or an access outside of the block. -/
  | undefined
  deriving DecidableEq

/-- A number of Lua as an `u8`. -/
def u8 (v : Int) : Nat := (v % 2 ^ 8).toNat

/-- A number of Lua as an `u32`. -/
def u32 (v : Int) : Nat := (v % 2 ^ 32).toNat

/-- `lua_pushinteger` of an `u32`. -/
def pushinteger (m : Machine) (val : Nat) : Int := Int.bmod val (2 ^ m.bits)

/-- `ROUND_SIZE`. -/
def roundSize (s : Nat) : Nat := s >>> 3 + (if s &&& 7 ≠ 0 then 1 else 0)

def bitarrayIndexShift (elsize : Nat) : Nat := [0, 3, 2, 0, 1].getD elsize 0

def bitarrayIndexMask (elsize : Nat) : Nat := [0, 0x01, 0x03, 0, 0x0F].getD elsize 0

/-! ### The block -/

/-- `pa->capacity`. -/
def capacity (m : Machine) (pa : Buf) : Nat := valIn m.little (pa.mem.read 0 4)

/-- `pa->elsize`. -/
def elsize (pa : Buf) : Nat := (pa.mem 4).toNat

/-- The address of a byte of `pa->values`, in the block. -/
def address (m : Machine) (p : Nat) : Nat := (5 + p) % 2 ^ m.bits

/-- The number of `w` bytes in `pa->values`. -/
def load (m : Machine) (pa : Buf) (p w : Nat) : Option Nat :=
  if address m p + w ≤ pa.size then some (valIn m.little (pa.mem.read (address m p) w)) else none

/-- The array after a store of `w` bytes into `pa->values`. -/
def store (m : Machine) (pa : Buf) (p w val : Nat) : Option Buf :=
  pa.put? (address m p) (bytesIn m.little w val)

/-! ### Elements -/

/-- The bits behind an element of less than a byte. -/
def position (elsize idx : Nat) : Nat :=
  let mask := 1 <<< bitarrayIndexShift elsize
  let rest := idx &&& (mask - 1)
  (mask - 1 - rest) * elsize

/-- `bitarray_getval`. -/
def bitarrayGetval (m : Machine) (pa : Buf) (idx : Nat) : Option Nat :=
  let idx := if idx = 0 then 2 ^ 32 - 1 else idx - 1
  let elsize := elsize pa
  if elsize < 8 then
    (load m pa (idx >>> bitarrayIndexShift elsize) 1).map fun val =>
      val >>> position elsize idx &&& bitarrayIndexMask elsize
  else
    match elsize with
    | 8  => load m pa idx 1
    | 16 => load m pa (2 * idx) 2
    | 32 => load m pa (4 * idx) 4
    | _  => some 0

/-- What `bitarray_set` puts into the byte of an element of less than a byte. -/
def setBits (elsize idx val : Nat) (newval : BitVec 32) : Nat :=
  let val := BitVec.ofNat 32 val
  let val := val &&& ~~~(BitVec.ofNat 32 (bitarrayIndexMask elsize) <<< position elsize idx)
  (val ||| newval <<< position elsize idx).toNat

/-- The stores of `bitarray_set`, with the index counted from 0. -/
def bitarraySetval (m : Machine) (pa : Buf) (idx : Nat) (newval : BitVec 32) : Option Buf :=
  let elsize := elsize pa
  if elsize < 8 then
    (load m pa (idx >>> bitarrayIndexShift elsize) 1).bind fun val =>
      store m pa (idx >>> bitarrayIndexShift elsize) 1 (setBits elsize idx val newval)
  else
    match elsize with
    | 8  => store m pa idx 1 newval.toNat
    | 16 => store m pa (2 * idx) 2 newval.toNat
    | 32 => store m pa (4 * idx) 4 newval.toNat
    | _  => some pa

/-- The end of a call, of an access. -/
def ofAccess {α : Type} (o : Option α) : Outcome α := o.elim .undefined .ok

/-- `bitarray_get`. -/
def bitarrayGet (m : Machine) (pa : Buf) (key : Int) : Outcome Int :=
  let idx := u32 key
  if idx = 0 ∨ idx > capacity m pa then .error "invalid index."
  else ofAccess ((bitarrayGetval m pa idx).map (pushinteger m))

/-- `bitarray_set`. -/
def bitarraySet (m : Machine) (pa : Buf) (key value : Int) : Outcome Buf :=
  let idx := u32 key
  if idx = 0 ∨ idx > capacity m pa then .error "invalid index."
  else ofAccess (bitarraySetval m pa (idx - 1) (BitVec.ofInt 32 value))

/-- `bitarray_iter`. -/
def bitarrayIter (m : Machine) (pa : Buf) (key : Int) : Outcome (Option (Int × Int)) :=
  let idx := (u32 key + 1) % 2 ^ 32
  if idx ≤ capacity m pa then
    ofAccess ((bitarrayGetval m pa idx).map fun val => some (pushinteger m idx, pushinteger m val))
  else .ok none

/-! ### Conversions -/

inductive Mode where
  | raw
  | seq

/-- The mode of a conversion, of its second argument. -/
def modeOf : Option String → Outcome Mode
  | none          => .ok .seq
  | some textmode =>
    if textmode = "raw" then .ok .raw
    else if textmode = "seq" then .ok .seq
    else .error "invalid mode string."

/-- The body of the loops over all indexes: the values so far, and an index. -/
def seqBody (m : Machine) (pa : Buf) : List Nat × Nat → Outcome (List Nat) ⊕ (List Nat × Nat)
  | (vals, idx) =>
    if idx ≤ capacity m pa then
      match bitarrayGetval m pa idx with
      | some val => .inr (vals ++ [val], (idx + 1) % 2 ^ 32)
      | none     => .inl .undefined
    else .inl (.ok vals)

/-- The values that a conversion lists, within a number of passes. -/
def conversion (m : Machine) (pa : Buf) (mode : Option String) (passes : Nat) :
    Option (Outcome (List Nat)) :=
  match modeOf mode with
  | .error text => some (.error text)
  | .undefined  => some .undefined
  | .ok .seq    =>
    if elsize pa > 8 then some (.error "element size too large.")
    else Lib.Loop.run (seqBody m pa) passes ([], 1)
  | .ok .raw    =>
    let total := roundSize (capacity m pa * elsize pa % 2 ^ 32)
    if 5 + total ≤ pa.size then some (.ok ((pa.mem.read 5 total).map UInt8.toNat))
    else some .undefined

/-- A result with another content. -/
def Outcome.map {α β : Type} (f : α → β) : Outcome α → Outcome β
  | .ok a       => .ok (f a)
  | .error text => .error text
  | .undefined  => .undefined

/-- `bitarray_tostring`. -/
def bitarrayTostring (m : Machine) (pa : Buf) (mode : Option String) (passes : Nat) :
    Option (Outcome (List UInt8)) :=
  (conversion m pa mode passes).map (·.map (·.map UInt8.ofNat))

/-- `bitarray_totable`. -/
def bitarrayTotable (m : Machine) (pa : Buf) (mode : Option String) (passes : Nat) :
    Option (Outcome (List Int)) :=
  (conversion m pa mode passes).map (·.map (·.map (pushinteger m)))

/-! ### Construction -/

/-- The first argument, and the third one of the form with a capacity. A string that reads as a
number is a `number`. -/
inductive Source where
  | number (capacity : Int) (fill : Option Int)
  | string (buf : List UInt8)
  | table (objlen : Nat) (rawgeti : Nat → Int)
  | other

/-- The arguments of `bitarray.new`. -/
structure Args where
  source : Source
  elsize : Option Int

/-- The element size, an `u8`. -/
def Args.elsizeU8 (args : Args) : Nat :=
  match args.elsize with
  | some v => u8 v
  | none   => 8

/-- The array of a block that has been allocated, without its values. -/
def header (m : Machine) (mem : Mem) (capacity elsize total : Nat) : Buf :=
  ⟨(mem.store 0 (bytesIn m.little 4 capacity)).store 4 [UInt8.ofNat elsize], 8 + total - 1⟩

/-- The end of `bitarray_new`: the checks, the block, and the values. -/
def create (m : Machine) (newuserdata : Nat → Option Mem) (capacity elsize : Nat)
    (fill : Nat → Buf → Option Buf) : Outcome Buf :=
  if elsize = 0 ∨ elsize > 32 ∨ elsize &&& (elsize - 1) ≠ 0 then .error "invalid element size."
  else
    let total := roundSize (capacity * elsize % 2 ^ 32)
    if total = 0 then .error "invalid arguments."
    else
      match newuserdata (8 + total - 1) with
      | none     => .error "not enough memory"
      | some mem => ofAccess (fill total (header m mem capacity elsize total))

/-- The capacity for a length. -/
def sized (m : Machine) (newuserdata : Nat → Option Mem) (temp elsize : Nat)
    (fill : Nat → Buf → Option Buf) : Outcome Buf :=
  let temp := temp * 2 ^ 3 % 2 ^ m.bits
  if elsize = 0 then .undefined
  else if temp % elsize ≠ 0 then .error "length is not a multiple of element size."
  else create m newuserdata (temp % 2 ^ 32 / elsize) elsize fill

/-- `memcpy` and `memset`. -/
def copy (m : Machine) (bytes : List UInt8) (pa : Buf) : Option Buf := pa.put? (address m 0) bytes

/-- The loop over a table, `n` more elements. -/
def tableLoop (m : Machine) (rawgeti : Nat → Int) : Nat → Nat → Buf → Option Buf
  | 0,     _,     pa => some pa
  | n + 1, total, pa =>
    (store m pa (total - 1) 1 (u8 (rawgeti total))).bind (tableLoop m rawgeti n (total + 1))

/-- `bitarray_new`. A block comes with any contents. -/
def bitarrayNew (m : Machine) (newuserdata : Nat → Option Mem) (args : Args) : Outcome Buf :=
  let elsize := args.elsizeU8
  match args.source with
  | .number capacity fill =>
    create m newuserdata (u32 capacity) elsize fun total pa =>
      copy m (List.replicate total (UInt8.ofNat (u8 (fill.getD 0)))) pa
  | .string buf           => sized m newuserdata buf.length elsize fun _ pa => copy m buf pa
  | .table objlen rawgeti =>
    sized m newuserdata objlen elsize fun _ pa => tableLoop m rawgeti objlen 1 pa
  | .other                => .error "invalid arguments."

/-! ### Arrays as arrays -/

/-- An assignment to an element, of an array as `bitarray_new` makes it. -/
structure Assignment where
  m : Machine
  pa : Buf
  idx : Nat
  value : Int
  elsize_mem : elsize pa ∈ [1, 2, 4, 8, 16, 32]
  bits_lt : capacity m pa * elsize pa < 2 ^ 32
  size_eq : pa.size = 8 + roundSize (capacity m pa * elsize pa) - 1
  one_le : 1 ≤ idx
  idx_le : idx ≤ capacity m pa

/-- These are the values at the indexes from 1 to the capacity. -/
def Lists (m : Machine) (pa : Buf) (vals : List Nat) : Prop :=
  vals.length = capacity m pa ∧
    ∀ (k : Nat) (hk : k < vals.length),
      bitarrayGet m pa (k + 1 : Nat) = .ok (pushinteger m (vals.get ⟨k, hk⟩))

/-- The element is the value modulo `2 ^ elsize`, the others are as before, and the conversions list
the values. -/
def Assignment.AsClaimed (s : Assignment) : Prop :=
  ∃ after, bitarraySet s.m s.pa s.idx s.value = .ok after ∧
    bitarrayGet s.m after s.idx = .ok (s.value % 2 ^ elsize s.pa) ∧
    (∀ key : Int, u32 key ≠ s.idx → bitarrayGet s.m after key = bitarrayGet s.m s.pa key) ∧
    ∃ vals, Lists s.m after vals ∧ ∀ mode, modeOf mode = .ok .seq → ∃ passes,
      bitarrayTostring s.m after mode passes = some (.ok (vals.map UInt8.ofNat)) ∧
      bitarrayTotable s.m after mode passes = some (.ok (vals.map (pushinteger s.m)))

/-- No bit of the value above its element falls into another element of the byte. -/
def Assignment.Fits (s : Assignment) : Prop :=
  elsize s.pa < 8 →
    s.value % 2 ^ (8 - position (elsize s.pa) (s.idx - 1)) < 2 ^ elsize s.pa

/-- The same, with the element as a `lua_Integer`, and with conversions that are refused for
elements of more than a byte. -/
def Assignment.Behaves (s : Assignment) : Prop :=
  ∃ after, bitarraySet s.m s.pa s.idx s.value = .ok after ∧
    bitarrayGet s.m after s.idx = .ok (pushinteger s.m (s.value % 2 ^ elsize s.pa).toNat) ∧
    (∀ key : Int, u32 key ≠ s.idx → bitarrayGet s.m after key = bitarrayGet s.m s.pa key) ∧
    ∃ vals, Lists s.m after vals ∧ ∀ mode, modeOf mode = .ok .seq →
      if elsize s.pa ≤ 8 then ∃ passes,
        bitarrayTostring s.m after mode passes = some (.ok (vals.map UInt8.ofNat)) ∧
        bitarrayTotable s.m after mode passes = some (.ok (vals.map (pushinteger s.m)))
      else ∀ passes,
        bitarrayTostring s.m after mode passes = some (.error "element size too large.") ∧
        bitarrayTotable s.m after mode passes = some (.error "element size too large.")

/-! ### Safety -/

/-- The call raises an error, or makes an array that `get`, `set` and the iterator do not leave. -/
def Safe (m : Machine) (newuserdata : Nat → Option Mem) (args : Args) : Prop :=
  match bitarrayNew m newuserdata args with
  | .undefined => False
  | .error _   => True
  | .ok pa     => ∀ key : Int, bitarrayGet m pa key ≠ .undefined ∧
      (∀ value, bitarraySet m pa key value ≠ .undefined) ∧ bitarrayIter m pa key ≠ .undefined

/-- `bitarray_new` refuses the sizes, or there is no memory. -/
def Refused (newuserdata : Nat → Option Mem) (capacity elsize : Nat) : Prop :=
  elsize ∉ [1, 2, 4, 8, 16, 32] ∨ capacity * elsize % 2 ^ 32 = 0 ∨
    newuserdata (8 + roundSize (capacity * elsize % 2 ^ 32) - 1) = none

/-- All elements are in the block, and so is what the iterator reads for index 0. -/
def Inside (m : Machine) (capacity elsize : Nat) : Prop :=
  capacity * elsize < 2 ^ 32 ∧
    ((elsize = 1 ∧ 2 ^ 29 - 2 ≤ roundSize capacity) ∨ (m.wide = false ∧ 8 ≤ elsize))

/-- The condition for a string or a table of a length. -/
def SizedRight (m : Machine) (newuserdata : Nat → Option Mem) (temp elsize : Nat) : Prop :=
  elsize ≠ 0 ∧ (temp * 8 % 2 ^ m.bits % elsize ≠ 0 ∨
    Refused newuserdata (temp * 8 % 2 ^ 32 / elsize) elsize ∨
    (temp < 2 ^ 29 ∧ Inside m (temp * 8 % 2 ^ 32 / elsize) elsize))

/-- The condition: the arguments are refused without a division by zero, or the values fit into the
block, and the elements, too. -/
def Right (m : Machine) (newuserdata : Nat → Option Mem) (args : Args) : Prop :=
  match args.source with
  | .number capacity _ =>
    Refused newuserdata (u32 capacity) args.elsizeU8 ∨ Inside m (u32 capacity) args.elsizeU8
  | .string buf        => SizedRight m newuserdata buf.length args.elsizeU8
  | .table objlen _    => SizedRight m newuserdata objlen args.elsizeU8
  | .other             => True

end Alcor.Lua.Bitarray
