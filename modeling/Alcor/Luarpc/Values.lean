import Mathlib.Algebra.Order.Group.Int
import Mathlib.Data.List.TakeWhile
import Alcor.Lib.Memory

/-!
# `Alcor.Luarpc.Values`: values on the wire

How `src/modules/luarpc.c` writes and reads numbers, and the values made
of them. A value is written behind a byte for its type, and a table as
its keys and values with a marker behind them. Both directions keep the
values that they are at on the Lua stack, which has a limit.

* `clientNegotiate`, `serverNegotiate`: both ends agree on byte order
  and size of numbers.
* `transportWriteNumber`, `transportReadNumber`: a number.
* `writeVariable`, `readVariable`: a value, with the slots of the stack
  that it takes (`LuaState`).
* `Helper`: the path of names that a call goes to.
-/

set_option autoImplicit false

/-!
## Negotiation, and numbers on the line

`src/modules/luarpc.c`. Client and server settle the byte order, the
size of numbers and whether they are integers. Both take part with the
number type of their own Lua, a `NumberType`. Of a floating type all
that counts is its byte pattern, and the integers it has.

An access outside of a local variable or buffer is `none`.
-/

namespace Alcor.Luarpc

open Lib (leBytes leVal bytesIn valIn)

/-! ### Number types -/

/-- A type for `lua_Number`. -/
structure NumberType where
  /-- The numbers. -/
  Carrier : Type
  /-- `sizeof( lua_Number )`. -/
  size : Nat
  /-- `( lua_Number )0.5 == 0`. -/
  integral : Bool
  /-- The conversion to an integer, before it is cut to the integer's width. -/
  toInt : Carrier → Int
  /-- The conversion from an integer. -/
  ofInt : Int → Carrier
  /-- The bytes of a number, the least significant first. -/
  pattern : Carrier → List UInt8
  /-- The number that has these bytes. -/
  ofPattern : List UInt8 → Carrier
  length_pattern : ∀ x, (pattern x).length = size
  ofPattern_pattern : ∀ x, ofPattern (pattern x) = x

/-- The integer is one of the numbers. -/
def NumberType.Represents (T : NumberType) (n : Int) : Prop := T.toInt (T.ofInt n) = n

instance (T : NumberType) (n : Int) : Decidable (T.Represents n) :=
  inferInstanceAs (Decidable (T.toInt (T.ofInt n) = n))

/-- The integer cut to `w` bytes, with its sign. -/
def wrap (w : Nat) (n : Int) : Int := n.bmod (256 ^ w)

/-- The bits of the integer in `w` bytes. -/
def bits (w : Nat) (n : Int) : Nat := (n % (256 ^ w : Nat)).toNat

theorem bits_lt (w : Nat) (n : Int) : bits w n < 256 ^ w := by
  have hpos : (0 : Int) < (256 ^ w : Nat) := by
    have := Nat.pow_pos (n := w) (show 0 < 256 by decide)
    omega
  have hlt := Int.emod_lt_of_pos n hpos
  rw [bits]
  omega

/-- The bits with the sign are the integer cut. -/
theorem wrap_bits (w : Nat) (n : Int) : wrap w (bits w n) = wrap w n := by
  have hpos : (0 : Int) < (256 ^ w : Nat) := by
    have := Nat.pow_pos (n := w) (show 0 < 256 by decide)
    omega
  rw [wrap, bits, Int.toNat_of_nonneg (Int.emod_nonneg n (Int.ne_of_gt hpos)), Int.emod_bmod, wrap]

/-- An integer type of `w` bytes. -/
def intType (w : Nat) : NumberType where
  Carrier := { n : Int // wrap w n = n }
  size := w
  integral := true
  toInt x := x.val
  ofInt n := ⟨wrap w n, Int.bmod_bmod⟩
  pattern x := leBytes w (bits w x.val)
  ofPattern bs := ⟨wrap w (leVal bs), Int.bmod_bmod⟩
  length_pattern x := Lib.length_leBytes w _
  ofPattern_pattern x := by
    have hval : leVal (leBytes w (bits w x.val)) = bits w x.val := by
      rw [Lib.leVal_leBytes, Nat.mod_eq_of_lt (bits_lt w _)]
    apply Subtype.ext
    simp only [hval, wrap_bits, x.property]

/-! ### Negotiation -/

/-- A machine that runs Lua. -/
structure Machine where
  /-- It is little-endian. -/
  little : Bool
  /-- The type of its numbers. -/
  number : NumberType

/-- The configuration of a transport. -/
structure Transport where
  locLittle : Bool
  netLittle : Bool
  lnumBytes : Nat
  locIntnum : Bool
  netIntnum : Bool
  deriving DecidableEq

/-- The last three bytes of a header; those before are the same in both directions. -/
structure Header where
  little : Bool
  lnumBytes : Nat
  intnum : Bool

/-- The header that the client sends in `client_negotiate`. -/
def clientHeader (m : Machine) : Header := ⟨m.little, m.number.size, m.number.integral⟩

/-- `server_negotiate`: the transport, and the header for the client. -/
def serverNegotiate (m : Machine) (header : Header) : Transport × Header :=
  -- if the byte order differs, use big endian
  let differs := header.little != m.little
  -- the lowest common denominator
  let lnumBytes := min header.lnumBytes m.number.size
  -- an integer on either side
  let mixed := header.intnum != m.number.integral
  let tpt : Transport := {
    locLittle := m.little
    netLittle := if differs then false else m.little
    lnumBytes := lnumBytes
    locIntnum := m.number.integral
    netIntnum := if mixed then true else m.number.integral }
  (tpt, {
    little := if differs then false else header.little
    lnumBytes := lnumBytes
    intnum := if mixed then true else header.intnum })

/-- `client_negotiate`, with the server's response. -/
def clientNegotiate (m : Machine) (response : Header) : Transport where
  locLittle := m.little
  netLittle := response.little
  lnumBytes := response.lnumBytes
  locIntnum := m.number.integral
  netIntnum := response.intnum

/-- The transports of both, after the header and the response. -/
def negotiate (client server : Machine) : Transport × Transport :=
  let s := serverNegotiate server (clientHeader client)
  (clientNegotiate client s.2, s.1)

/-! ### Numbers -/

/-- `swap_bytes`, when the byte order of the machine is not that of the line. -/
def swapBytes (tpt : Transport) (bs : List UInt8) : List UInt8 :=
  if tpt.netLittle ≠ tpt.locLittle then bs.reverse else bs

/-- Bytes as they stand in memory, from the least significant first and back. -/
def inMemory (little : Bool) (bs : List UInt8) : List UInt8 := if little then bs else bs.reverse

/-- `transport_write_number`: the bytes that are sent. -/
def transportWriteNumber (tpt : Transport) (T : NumberType) (x : T.Carrier) :
    Option (List UInt8) :=
  if tpt.netIntnum then
    if tpt.lnumBytes = 1 then some (bytesIn tpt.locLittle 1 (bits 1 (T.toInt x)))
    else if tpt.lnumBytes = 2 ∨ tpt.lnumBytes = 4 ∨ tpt.lnumBytes = 8 then
      some (swapBytes tpt
        (bytesIn tpt.locLittle tpt.lnumBytes (bits tpt.lnumBytes (T.toInt x))))
    else some []
  else if T.size < 8 then
    -- eight bytes are taken of a number that has less
    none
  else some (swapBytes tpt ((inMemory tpt.locLittle (T.pattern x)).take 8))

/-- `transport_read_number`, of the bytes that were sent: the number, and the bytes left over. The
inner `none` is the exception for too few bytes. -/
def transportReadNumber (tpt : Transport) (T : NumberType) (bs : List UInt8) :
    Option (Option (T.Carrier × List UInt8)) :=
  if bs.length < tpt.lnumBytes then some none
  else
    let b := swapBytes tpt (bs.take tpt.lnumBytes)
    let rest := bs.drop tpt.lnumBytes
    if tpt.netIntnum ≠ tpt.locIntnum then
      if tpt.lnumBytes = 1 ∨ tpt.lnumBytes = 2 ∨ tpt.lnumBytes = 4 ∨ tpt.lnumBytes = 8 then
        some (some (T.ofInt (wrap tpt.lnumBytes (valIn tpt.locLittle b)), rest))
      else some (some (T.ofInt 0, rest))
    else if tpt.lnumBytes < T.size then
      -- the number has more bytes than the buffer
      none
    else some (some (T.ofPattern (inMemory tpt.locLittle (b.take T.size)), rest))

end Alcor.Luarpc

/-!
## Values on the line

`read_variable` and `write_variable` of `src/modules/luarpc.c`. The
reader works on the stack of Lua, whose top is the head of the list
here. A marker for the end of a table or of a function is read where a
value may stand, and then nothing is pushed.

Every call of `read_variable` is checked when it returns: a result of 1
with anything but one value pushed is `broken`, and so is an access
below the stack of the caller.

The stack has slots for so many values. `lua_checkstack` is never
called, so what is pushed behind the last slot is stored outside of the
stack: `broken` in the reader, and `none` in the writer, which walks
through a table with two slots of its own for each level.
-/

namespace Alcor.Luarpc

open Lib (bytesIn valIn)

/-! ### Values -/

mutual

/-- A Lua value. A table is a tree here, so it is acyclic. -/
inductive Value (N : Type) where
  | nil
  | boolean (b : Bool)
  | number (x : N)
  | string (s : List UInt8)
  | table (entries : Entries N)
  /-- A function, or anything else that is only referred to. -/
  | object (id : Nat)

/-- The entries of a table, in the order of `lua_next`. -/
inductive Entries (N : Type) where
  | done
  | entry (key value : Value N) (rest : Entries N)

end

/-- What the reader needs of Lua. -/
structure LuaState (N : Type) where
  /-- Equality of numbers. -/
  numEq : N → N → Bool
  /-- `luaL_loadbuffer`: the function, or the text of an error. -/
  loadbuffer : List UInt8 → Value N
  /-- The text of a number. -/
  tostring : N → List UInt8
  /-- A global, and fields from there; `none` is an error. -/
  fields : List (List UInt8) → Option (Value N)
  /-- How many values the stack has slots for when so many bytes are left to read. It is never asked
  for more, but the collector and what Lua itself calls may change it. -/
  slots : Nat → Nat
  /-- How many it has slots for after `luaL_loadbuffer`. -/
  slotsLoaded : Nat → Nat

/-- The stack above so many other values. -/
def LuaState.above {N : Type} (lua : LuaState N) (k : Nat) : LuaState N :=
  { lua with slots := fun m => lua.slots m - k, slotsLoaded := fun m => lua.slotsLoaded m - k }

/-! ### Lua types -/

def RPC_NIL : UInt8 := 0
def RPC_NUMBER : UInt8 := 1
def RPC_BOOLEAN : UInt8 := 2
def RPC_STRING : UInt8 := 3
def RPC_TABLE : UInt8 := 4
def RPC_TABLE_END : UInt8 := 5
def RPC_FUNCTION : UInt8 := 6
def RPC_FUNCTION_END : UInt8 := 7
def RPC_REMOTE : UInt8 := 8

section Words
variable (tpt : Transport)

/-- `transport_write_u32`. -/
def transportWriteU32 (x : Nat) : List UInt8 := swapBytes tpt (bytesIn tpt.locLittle 4 x)

/-- `transport_read_u32`; `none` is an exception. -/
def transportReadU32 (bs : List UInt8) : Option (Nat × List UInt8) :=
  if bs.length < 4 then none
  else some (valIn tpt.locLittle (swapBytes tpt (bs.take 4)), bs.drop 4)

/-- A length as an `int`, in the loops of `transport_read_buffer` and `transport_write_buffer`: a
negative one is as good as 0. -/
def loopLength (len : Nat) : Nat := if len < 2 ^ 31 then len else 0

/-- A length, and as many bytes into the memory of `alloca( len + 1 )`, with a 0 behind them. The
inner `none` is an exception. -/
def readString (bs : List UInt8) : Option (Option (List UInt8 × List UInt8)) :=
  match transportReadU32 tpt bs with
  | none           => some none
  | some (len, bs) =>
    if 2 ^ 31 ≤ len then
      -- the `int` is negative, so nothing is read of the bytes that are used; with all bits set
      -- `alloca( 0 )` has no room for the 0 either
      none
    else if bs.length < len then some none
    else some (some (bs.take len, bs.drop len))

end Words

/-! ### Helpers -/

def NUM_FUNCNAME_CHARS : Nat := 20

/-- `funcname` of a helper, without its NUL. -/
@[ext]
structure FuncName where
  chars : List UInt8
  noNul : 0 ∉ chars
  length_lt : chars.length < NUM_FUNCNAME_CHARS

instance : DecidableEq FuncName :=
  fun a b => decidable_of_iff (a.chars = b.chars) FuncName.ext_iff.symm

/-- What stands before the first NUL has none. -/
theorem noNul_takeWhile (key : List UInt8) : 0 ∉ key.takeWhile (· ≠ 0) := fun hmem => by
  simpa using List.mem_takeWhile_imp hmem

/-- The test of `handle_index` and `helper_index`. A longer name is an error, and there is no
helper. -/
def FuncName.ofKey (key : List UInt8) : Option FuncName :=
  if h : (key.takeWhile (· ≠ 0)).length < NUM_FUNCNAME_CHARS then
    some ⟨key.takeWhile (· ≠ 0), noNul_takeWhile key, h⟩
  else none

/-- A helper, with its `parent`, the parent of this and so on: the outermost comes first. -/
structure Helper where
  parents : List FuncName
  funcname : FuncName

/-- `parent`, which is `NULL` for an entry of the handle. -/
def Helper.parent (h : Helper) : Option Helper := h.parents.getLast?.map (⟨h.parents.dropLast, ·⟩)

/-- `nparents`, which is an `u8`. -/
def Helper.nparents (h : Helper) : Nat := h.parents.length % 2 ^ 8

/-- Some names, each with a dot behind it, and a last one. -/
def dotted (parents : List FuncName) (funcname : FuncName) : List UInt8 :=
  parents.flatMap (fun name => name.chars ++ [0x2E]) ++ funcname.chars

/-- The names of a helper, with dots between them. -/
def Helper.path (h : Helper) : List UInt8 := dotted h.parents h.funcname

/-- The names that `helper_remote_index` sends: those of so many parents, and its own. -/
def Helper.sentPath (h : Helper) : List UInt8 :=
  dotted (h.parents.drop (h.parents.length - h.nparents)) h.funcname

/-- `helper_remote_index`. -/
def helperRemoteIndex (tpt : Transport) (h : Helper) : List UInt8 :=
  transportWriteU32 tpt h.sentPath.length ++ h.sentPath

/-! ### Tables -/

section Tables
variable {N : Type} (numEq : N → N → Bool)

/-- Equality of keys. A table that was just read is no other one. -/
def sameKey : Value N → Value N → Bool
  | .boolean a, .boolean b => a == b
  | .number a,  .number b  => numEq a b
  | .string a,  .string b  => a == b
  | .object a,  .object b  => a == b
  | _,          _          => false

/-- A value that is a key: neither `nil` nor a number that is not equal to itself. -/
def isKey : Value N → Bool
  | .nil      => false
  | .number x => numEq x x
  | _         => true

def Value.isNil : Value N → Bool
  | .nil => true
  | _    => false

/-- The entries with the value of a key set. An entry whose value is `nil` is none. -/
def Entries.set (key value : Value N) : Entries N → Entries N
  | .done           => if value.isNil then .done else .entry key value .done
  | .entry k v rest =>
    if sameKey numEq k key then if value.isNil then rest else .entry k value rest
    else .entry k v (rest.set key value)

/-- `lua_rawset` on the table at an index, counted from the bottom. The outer `none` is a stack on
which the key or the value is the table itself or below, the inner `none` is an error. -/
def rawset (index : Nat) : List (Value N) → Option (Option (List (Value N)))
  | value :: key :: stack =>
    if stack.length < index then none
    else if !isKey numEq key then some none
    else
      match stack[stack.length - index]? with
      | some (.table entries) =>
        some (some (stack.set (stack.length - index) (.table (entries.set numEq key value))))
      | _ => none
  | _ => none

end Tables

/-! ### Reading -/

/-- How a call of `read_variable` ends. -/
inductive Outcome (N : Type) where
  /-- An exception of the transport or the protocol. -/
  | threw
  /-- An error of Lua. -/
  | raised
  /-- It is not what it reports, not on its own part of the stack, or of bytes that were not read. -/
  | broken
  /-- It returns 1 or 0; the bytes that are left, and the stack. -/
  | ok (pushed : Bool) (bytes : List UInt8) (stack : List (Value N))

/-- The check of a call that returns to a stack. -/
def Outcome.checked {N : Type} (stack : List (Value N)) : Outcome N → Outcome N
  | .ok pushed bytes stack' =>
    if stack'.length = stack.length + pushed.toNat then .ok pushed bytes stack' else .broken
  | out                     => out

section Reading
variable {T : NumberType} (tpt : Transport) (lua : LuaState T.Carrier)

/-- The names in a path, as `strtok` finds them. -/
def tokens (path : List UInt8) : List (List UInt8) :=
  ((path.takeWhile (· ≠ 0)).splitOn 0x2E).filter (· ≠ [])

/-- A value is pushed; `bs` is left to read. -/
def push (bs : List UInt8) (v : Value T.Carrier) (stack : List (Value T.Carrier)) :
    Outcome T.Carrier :=
  if stack.length < lua.slots bs.length then .ok true bs (v :: stack) else .broken

/-- The slots for what `read_index` finds on its way: a field stands above what it is taken from. -/
def indexSlots (names : List (List UInt8)) : Nat := min names.length 2

/-- `read_index`. Without a name `lua_getglobal` gets `NULL`. -/
def readIndex (bs : List UInt8) (stack : List (Value T.Carrier)) : Outcome T.Carrier :=
  match readString tpt bs with
  | none                   => .broken
  | some none              => .threw
  | some (some (path, bs)) =>
    if tokens path = [] ∨ lua.slots bs.length < stack.length + indexSlots (tokens path) then
      .broken
    else
      match lua.fields (tokens path) with
      | none   => .raised
      | some v => .ok true bs (v :: stack)

/-- The string on top of so many values can be loaded above itself, and `lua_insert` has a slot to
move it. -/
def LuaState.canLoad {N : Type} (lua : LuaState N) (bs : List UInt8) (height : Nat) : Prop :=
  height + 1 < lua.slots bs.length ∧ height + 2 < lua.slotsLoaded bs.length

instance {N : Type} (lua : LuaState N) (bs : List UInt8) (height : Nat) :
    Decidable (lua.canLoad bs height) :=
  inferInstanceAs (Decidable (_ ∧ _))

/-- What `luaL_checklstring` gets of a value: a string, or the text of a number. -/
def checkString : Value T.Carrier → Option (List UInt8)
  | .string s => some s
  | .number x => some (lua.tostring x)
  | _         => none

/-- `luaL_checklstring` of the top, `luaL_loadbuffer` and the removal of the string; `base` is the
height of the caller's stack. -/
def loadTop (base : Nat) (bs : List UInt8) :
    List (Value T.Carrier) → Option (Option (List (Value T.Carrier)))
  | []         => none
  | v :: stack =>
    if stack.length < base then none
    else
      match checkString lua v with
      | none   => some none
      | some s => if lua.canLoad bs stack.length then some (some (lua.loadbuffer s :: stack)) else none

mutual

/-- `read_variable`, with at most so many calls and passes inside of each other. -/
def readVariable : Nat → List UInt8 → List (Value T.Carrier) → Outcome T.Carrier
  | 0,     _,  _     => .broken
  | n + 1, bs, stack =>
    Outcome.checked stack <|
      match bs with
      | []        => .threw
      | tag :: bs =>
        if tag = RPC_NIL then push lua bs .nil stack
        else if tag = RPC_BOOLEAN then
          match bs with
          | []      => .threw
          | b :: bs => push lua bs (.boolean (b != 0)) stack
        else if tag = RPC_NUMBER then
          match transportReadNumber tpt T bs with
          | none                => .broken
          | some none           => .threw
          | some (some (x, bs)) => push lua bs (.number x) stack
        else if tag = RPC_STRING then
          match readString tpt bs with
          | none                => .broken
          | some none           => .threw
          | some (some (s, bs)) => push lua bs (.string s) stack
        else if tag = RPC_TABLE then
          if stack.length < lua.slots bs.length then
            readTable n (stack.length + 1) bs (.table .done :: stack)
          else .broken
        else if tag = RPC_TABLE_END then .ok false bs stack
        else if tag = RPC_FUNCTION then readFunction n stack.length bs stack
        else if tag = RPC_FUNCTION_END then .ok false bs stack
        else if tag = RPC_REMOTE then readIndex tpt lua bs stack
        else .threw

/-- The loop of `read_table`. -/
def readTable : Nat → Nat → List UInt8 → List (Value T.Carrier) → Outcome T.Carrier
  | 0,     _,     _,  _     => .broken
  | n + 1, index, bs, stack =>
    match readVariable n bs stack with
    | .ok false bs stack => .ok true bs stack
    | .ok true bs stack  =>
      -- whether there is a value is not looked at
      match readVariable n bs stack with
      | .ok _ bs stack =>
        match rawset lua.numEq index stack with
        | none              => .broken
        | some none         => .raised
        | some (some stack) => readTable n index bs stack
      | out            => out
    | out                => out

/-- The loop of `read_function`. -/
def readFunction : Nat → Nat → List UInt8 → List (Value T.Carrier) → Outcome T.Carrier
  | 0,     _,    _,  _     => .broken
  | n + 1, base, bs, stack =>
    match readVariable n bs stack with
    | .ok false bs stack => .ok true bs stack
    | .ok true bs stack  =>
      match loadTop lua base bs stack with
      | none              => .broken
      | some none         => .raised
      | some (some stack) => readFunction n base bs stack
    | out                => out

end

/-- `read_variable`. Every call and every pass reads a byte. -/
def readVariableAll (bs : List UInt8) (stack : List (Value T.Carrier)) : Outcome T.Carrier :=
  readVariable tpt lua (2 * bs.length + 2) bs stack

/-- The arguments of a call: so many calls, whose results are not looked at. -/
def readArguments : Nat → List UInt8 → List (Value T.Carrier) → Outcome T.Carrier
  | 0,     bs, stack => .ok true bs stack
  | n + 1, bs, stack =>
    match readVariableAll tpt lua bs stack with
    | .ok _ bs stack => readArguments n bs stack
    | out            => out

end Reading

/-! ### Writing -/

/-- What `write_variable` makes of an object. -/
inductive Written where
  /-- A function: what `luaU_dump` makes of it, and the slots for the function and the pieces of its
  code while they are collected. -/
  | function (code : List UInt8) (slots : Nat)
  /-- A helper, of this connection or of another one. -/
  | helper (here : Bool) (h : Helper)

section Writing
variable {T : NumberType} (tpt : Transport) (dump : Nat → Option Written)

/-- The tag, the length and the bytes of a string. -/
def writeString (s : List UInt8) : List UInt8 :=
  RPC_STRING :: transportWriteU32 tpt s.length ++ s.take (loopLength s.length)

mutual

/-- `write_variable`, with so many slots above the value; `none` is an error, or a slot too many. -/
def writeVariable (room : Nat) : Value T.Carrier → Option (List UInt8)
  | .nil           => some [RPC_NIL]
  | .boolean b     => some [RPC_BOOLEAN, if b then 1 else 0]
  | .number x      => (transportWriteNumber tpt T x).map fun bs => RPC_NUMBER :: bs
  | .string s      => some (writeString tpt s)
  | .table entries =>
    -- the first key is `nil`
    if room < 1 then none
    else (writeTable room entries).map fun bs => RPC_TABLE :: bs ++ [RPC_TABLE_END]
  | .object id     =>
    match dump id with
    | none                       => none
    | some (.function code slots) =>
      if room < slots then none
      else some (RPC_FUNCTION :: writeString tpt code ++ [RPC_FUNCTION_END])
    | some (.helper here h)      =>
      -- `ismetatable_type` has two metatables on the stack; the path goes to the transport of
      -- the helper
      if room < 2 then none
      else some (RPC_REMOTE :: if here then helperRemoteIndex tpt h else [])

/-- `write_table`, with a slot for the key and one for the value. -/
def writeTable (room : Nat) : Entries T.Carrier → Option (List UInt8)
  | .done                 => some []
  | .entry key value rest =>
    if room < 2 then none
    else
      (writeVariable (room - 2) key).bind fun k =>
        (writeVariable (room - 2) value).bind fun v =>
          (writeTable room rest).map fun bs => k ++ v ++ bs

end

end Writing

end Alcor.Luarpc
