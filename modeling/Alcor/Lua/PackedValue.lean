import Alcor.Lib.Memory
import Alcor.Lua.Dump
import Mathlib.Logic.Function.Basic

/-!
# `Alcor.Lua.PackedValue`: values with `LUA_PACK_VALUE`

A `TValue` of `src/lua/lobject.h` is eight bytes, on machines with
pointers of four. A number takes all of them. Everything else has its
payload in the bytes of the lower half of a number, and in those of the
upper half its type and the signature that says that it is no number.
-/

set_option autoImplicit false

namespace Alcor.Lua

open Lib (Mem)

/-- The types, in the order of their tags. -/
inductive LuaType where
  | nil
  | boolean
  | rotable
  | lightfunction
  | lightuserdata
  | number
  | string
  | table
  | function
  | userdata
  | thread
  | proto
  deriving DecidableEq

/-- `LUA_TNIL` and the others. -/
def LuaType.tag : LuaType → Nat
  | .nil           => 0
  | .boolean       => 1
  | .rotable       => 2
  | .lightfunction => 3
  | .lightuserdata => 4
  | .number        => 5
  | .string        => 6
  | .table         => 7
  | .function      => 8
  | .userdata      => 9
  | .thread        => 10
  | .proto         => 11

/-- `LUA_NOTNUMBER_SIG`. -/
def LUA_NOTNUMBER_SIG : Int := -1

/-- `add_sig`. -/
def addSig (tt : Nat) : Nat := 0xffff0000 ||| tt

section Layout
variable (little : Bool) (o : Mem)

/-! ### The fields -/

/-- Where `_ts.tt_sig` is. -/
def ttSigAt : Nat := if little then 4 else 0

/-- Where `_t.tt` is. -/
def ttAt : Nat := if little then 4 else 2

/-- Where `_t.sig` is. -/
def sigAt : Nat := if little then 6 else 0

/-- Where `value.gc`, `value.p` and `value.b` are. -/
def payloadAt : Nat := if little then 0 else 4

/-- `ttype_sig`. -/
def ttypeSig : Nat := o.load little (ttSigAt little) 4

/-- `_t.sig`, a `short`. -/
def sig : Int := signed 2 (o.load little (sigAt little) 2)

/-- `_t.tt`, a `short`. -/
def tt : Int := signed 2 (o.load little (ttAt little) 2)

/-- `ttype`. -/
def ttype : Int := if sig little o = LUA_NOTNUMBER_SIG then tt little o else LuaType.number.tag

/-! ### The tests -/

/-- The tag with the signature is there. -/
def hasSig (t : LuaType) : Bool := ttypeSig little o == addSig t.tag

def ttisnil : Bool := hasSig little o .nil
def ttisnumber : Bool := sig little o != LUA_NOTNUMBER_SIG
def ttisstring : Bool := hasSig little o .string
def ttistable : Bool := hasSig little o .table
def ttisfunction : Bool := hasSig little o .function
def ttisboolean : Bool := hasSig little o .boolean
def ttisuserdata : Bool := hasSig little o .userdata
def ttisthread : Bool := hasSig little o .thread
def ttislightuserdata : Bool := hasSig little o .lightuserdata
def ttisrotable : Bool := hasSig little o .rotable
def ttislightfunction : Bool := hasSig little o .lightfunction

/-- The tests, with the types they test for. -/
def ttis : List (LuaType × Bool) :=
  [(.nil, ttisnil little o), (.number, ttisnumber little o), (.string, ttisstring little o),
    (.table, ttistable little o), (.function, ttisfunction little o),
    (.boolean, ttisboolean little o), (.userdata, ttisuserdata little o),
    (.thread, ttisthread little o), (.lightuserdata, ttislightuserdata little o),
    (.rotable, ttisrotable little o), (.lightfunction, ttislightfunction little o)]

/-! ### The accessors -/

/-- The payload, as four bytes. -/
def payload : BitVec 32 := BitVec.ofNat 32 (o.load little (payloadAt little) 4)

/-- `nvalue`. -/
def nvalue : BitVec 64 := BitVec.ofNat 64 (o.load little 0 8)

/-- `bvalue`. -/
def bvalue : BitVec 32 := payload little o

/-- `pvalue`, `rvalue` and `fvalue`. -/
def pvalue : BitVec 32 := payload little o

/-- `gcvalue`, and `rawtsvalue` and the others, which point to the same object. -/
def gcvalue : BitVec 32 := payload little o

/-! ### The setters -/

/-- `ttype_sig(obj) = add_sig(tt)`. -/
def setTtypeSig (t : LuaType) : Mem := o.put little (ttSigAt little) 4 (addSig t.tag)

/-- The payload is stored, and then the tag. -/
def setTagged (t : LuaType) (x : BitVec 32) : Mem :=
  setTtypeSig little (o.put little (payloadAt little) 4 x.toNat) t

def setnilvalue : Mem := setTtypeSig little o .nil
def setnvalue (x : BitVec 64) : Mem := o.put little 0 8 x.toNat
def setpvalue (x : BitVec 32) : Mem := setTagged little o .lightuserdata x
def setrvalue (x : BitVec 32) : Mem := setTagged little o .rotable x
def setfvalue (x : BitVec 32) : Mem := setTagged little o .lightfunction x
def setbvalue (x : BitVec 32) : Mem := setTagged little o .boolean x
def setsvalue (x : BitVec 32) : Mem := setTagged little o .string x
def setuvalue (x : BitVec 32) : Mem := setTagged little o .userdata x
def setthvalue (x : BitVec 32) : Mem := setTagged little o .thread x
def setclvalue (x : BitVec 32) : Mem := setTagged little o .function x
def sethvalue (x : BitVec 32) : Mem := setTagged little o .table x
def setptvalue (x : BitVec 32) : Mem := setTagged little o .proto x

/-- `setobj`: the value is copied, with the tag in it. -/
def setobj (o2 : Mem) : Mem := o.store 0 (o2.read 0 8)

end Layout

/-! ### What is stored -/

/-- A value that one of the setters stores. -/
inductive Datum where
  | nil
  | number (x : BitVec 64)
  | lightuserdata (p : BitVec 32)
  | rotable (p : BitVec 32)
  | lightfunction (p : BitVec 32)
  | boolean (b : BitVec 32)
  | string (gc : BitVec 32)
  | userdata (gc : BitVec 32)
  | thread (gc : BitVec 32)
  | function (gc : BitVec 32)
  | table (gc : BitVec 32)
  | proto (gc : BitVec 32)

def Datum.type : Datum → LuaType
  | .nil             => .nil
  | .number _        => .number
  | .lightuserdata _ => .lightuserdata
  | .rotable _       => .rotable
  | .lightfunction _ => .lightfunction
  | .boolean _       => .boolean
  | .string _        => .string
  | .userdata _      => .userdata
  | .thread _        => .thread
  | .function _      => .function
  | .table _         => .table
  | .proto _         => .proto

/-- The cell with the value. -/
def Datum.set (little : Bool) (o : Mem) : Datum → Mem
  | .nil             => setnilvalue little o
  | .number x        => setnvalue little o x
  | .lightuserdata p => setpvalue little o p
  | .rotable p       => setrvalue little o p
  | .lightfunction p => setfvalue little o p
  | .boolean b       => setbvalue little o b
  | .string gc       => setsvalue little o gc
  | .userdata gc     => setuvalue little o gc
  | .thread gc       => setthvalue little o gc
  | .function gc     => setclvalue little o gc
  | .table gc        => sethvalue little o gc
  | .proto gc        => setptvalue little o gc

/-- The accessor of the type returns the payload. -/
def Datum.Accessed (little : Bool) (o : Mem) : Datum → Prop
  | .nil             => True
  | .number x        => nvalue little o = x
  | .boolean b       => bvalue little o = b
  | .lightuserdata p | .rotable p | .lightfunction p => pvalue little o = p
  | .string gc | .userdata gc | .thread gc | .function gc | .table gc | .proto gc =>
    gcvalue little o = gc

/-- The cell is seen as this value: `ttype` and all tests report its type, and the accessor its
payload. -/
structure Seen (little : Bool) (o : Mem) (d : Datum) : Prop where
  ttype : ttype little o = d.type.tag
  ttis : ∀ test ∈ ttis little o, test.2 = true ↔ d.type = test.1
  accessed : d.Accessed little o

/-! ### Many values -/

/-- What is written to values at places of the stack, of a table or of
the constants: a setter stores a datum, or `setobj` copies the value
at another place. -/
inductive Write where
  | set (i : Nat) (d : Datum)
  | copy (i j : Nat)

/-- The values after a write. Only the one that is written changes. -/
def Write.apply (little : Bool) (cells : Nat → Mem) : Write → Nat → Mem
  | .set i d  => Function.update cells i (d.set little (cells i))
  | .copy i j => Function.update cells i (setobj (cells i) (cells j))

/-- What the program means to have at each place: the datum that was
stored there, or copied there from another place. A value that was
never written holds no datum. -/
def Write.given (vals : Nat → Option Datum) : Write → Nat → Option Datum
  | .set i d  => Function.update vals i (some d)
  | .copy i j => Function.update vals i (vals j)

/-- The pattern has the signature that says that it is no number. -/
def LooksTagged (x : BitVec 64) : Prop := x.toNat / 2 ^ 48 = 0xffff

end Alcor.Lua
