import Alcor.Lib.Memory
import Mathlib.Data.List.TakeWhile

/-!
# `Alcor.Lua.Rotable`: read-only tables

`src/lua/lrotable.c`, and the lookups of `src/lua/ltable.c`. A rotable is
an array of entries in front of one with a nil key. `luaR_next` has the
position of the key it was given in a variable without an initial value,
so it takes as an argument what is in it.

A read of an entry behind the terminator is `none`.
-/

set_option autoImplicit false

namespace Alcor.Lua

open Lib (CStr)

/-- `LUA_MAX_ROTABLE_NAME`. -/
def LUA_MAX_ROTABLE_NAME : Nat := 32

/-- `luaR_key`, but for a nil key. A `luaR_numkey` is an `int`. -/
inductive RoKey where
  | strkey (s : CStr)
  | numkey (n : BitVec 32)
  deriving DecidableEq

/-- The entries in front of the terminator. -/
structure Rotable (V : Type) where
  entries : List (RoKey × V)
  distinct : entries.Pairwise fun a b => a.1 ≠ b.1
  /-- The maximum length of a string key. -/
  names : ∀ e ∈ entries, ∀ s, e.1 = .strkey s → s.bytes.length ≤ LUA_MAX_ROTABLE_NAME
  /-- An array in memory. -/
  fits : entries.length < 2 ^ 31

/-- `lua_Number`, as a rotable needs it. -/
structure KeyNumbers (N : Type) where
  /-- `( luaR_numkey )n`. -/
  toKey : N → BitVec 32
  /-- `( lua_Number )k`. -/
  ofKey : BitVec 32 → N
  /-- Every `int` is a number. -/
  toKey_ofKey : ∀ k, toKey (ofKey k) = k

/-- A value that is given as a key. -/
inductive LuaKey (N : Type) where
  | nil
  | string (bytes : List UInt8)
  | number (n : N)
  /-- Any other type. -/
  | other

section Find
variable {V : Type}

/-- `luaR_auxfind`, from the entry at the position `i` on. -/
def luaRAuxfind (strkey : Option CStr) (numkey : BitVec 32) : List (RoKey × V) → Nat → Option (V × Nat)
  | [],                   _ => none
  | (key, value) :: rest, i =>
    let found :=
      match strkey, key with
      | some s, .strkey k => k.bytes == s.bytes
      | none,   .numkey k => k == numkey
      | _,      _         => false
    if found then some (value, i) else luaRAuxfind strkey numkey rest (i + 1)

/-- `luaR_findentry`, with the position of the entry. -/
def luaRFindentry (t : Rotable V) (strkey : Option CStr) (numkey : BitVec 32) : Option (V × Nat) :=
  luaRAuxfind strkey numkey t.entries 0

/-- The string up to its first NUL. -/
def upToNul (bytes : List UInt8) : CStr :=
  ⟨bytes.takeWhile (· ≠ 0), fun hmem => by simpa using List.mem_takeWhile_imp hmem⟩

/-- `luaR_getcstr`. -/
def luaRGetcstr (src : List UInt8) (maxsize : Nat) : CStr :=
  if src.length + 1 > maxsize then upToNul [] else upToNul src

/-- `luaH_getstr_ro`. -/
def luaHGetstrRo (t : Rotable V) (key : List UInt8) : Option V :=
  (luaRFindentry t (some (luaRGetcstr key LUA_MAX_ROTABLE_NAME)) 0).map Prod.fst

/-- `luaH_getnum_ro`. -/
def luaHGetnumRo (t : Rotable V) (key : BitVec 32) : Option V :=
  (luaRFindentry t none key).map Prod.fst

end Find

section Next
variable {N V : Type} (num : KeyNumbers N) (t : Rotable V)

/-- A key of a rotable as a value. -/
def RoKey.value : RoKey → LuaKey N
  | .strkey s => .string s.bytes
  | .numkey n => .number (num.ofKey n)

/-- `luaR_next_helper`. -/
def luaRNextHelper (pos : Nat) : Option (LuaKey N × Option V) :=
  match t.entries[pos]? with
  | some (key, value) => some (key.value num, some value)
  | none              => if pos = t.entries.length then some (.nil, none) else none

/-- The position behind the one that was found, or behind what was in `keypos`. As an `int` it is
an index of the array only below 2^31. -/
def luaRAdvance (found : Option (V × Nat)) (keypos : BitVec 32) : Nat :=
  (((found.map Prod.snd).getD keypos.toNat) + 1) % 2 ^ 32

/-- `luaR_next`. -/
def luaRNext (keypos : BitVec 32) (key : LuaKey N) (val : Option V) :
    Option (LuaKey N × Option V) :=
  match key with
  | .nil          => luaRNextHelper num t 0
  | .string bytes =>
    let strkey := luaRGetcstr bytes LUA_MAX_ROTABLE_NAME
    luaRNextHelper num t (luaRAdvance (luaRFindentry t (some strkey) 0) keypos)
  | .number n     =>
    luaRNextHelper num t (luaRAdvance (luaRFindentry t none (num.toKey n)) keypos)
  | .other        => some (.other, val)

/-- What an iteration visits from the key on, in at most `n` calls. `keypos` has anything in it in
each of them. -/
def luaRWalk (keypos : Nat → BitVec 32) : Nat → LuaKey N → Option (List (LuaKey N × Option V))
  | 0,     _   => none
  | n + 1, key =>
    match luaRNext num t (keypos n) key none with
    | none             => none
    | some (.nil, _)   => some []
    | some (key', val) => (luaRWalk keypos n key').map ((key', val) :: ·)

/-- The entries, as an iteration shows them. -/
def Rotable.shown : List (LuaKey N × Option V) :=
  t.entries.map fun e => (e.1.value num, some e.2)

/-- The rotable is a table: each key has its value, whether C code or the interpreter looks it up,
an iteration shows every entry once and in order, and with this key no entry behind the terminator
is read. -/
structure Behaves (key : LuaKey N) : Prop where
  finds : ∀ e ∈ t.entries, match e.1 with
    | .strkey s => (luaRFindentry t (some s) 0).map Prod.fst = some e.2
    | .numkey n => (luaRFindentry t none n).map Prod.fst = some e.2
  gets : ∀ e ∈ t.entries, match e.1 with
    | .strkey s => luaHGetstrRo t s.bytes = some e.2
    | .numkey n => luaHGetnumRo t n = some e.2
  iterates : ∀ keypos, luaRWalk num t keypos (t.entries.length + 1) .nil = some (t.shown num)
  inside : ∀ keypos val, luaRNext num t keypos key val ≠ none

/-- The string keys are shorter than the maximum. -/
def Rotable.ShortNames : Prop :=
  ∀ e ∈ t.entries, ∀ s, e.1 = .strkey s → s.bytes.length < LUA_MAX_ROTABLE_NAME

/-- The key that is looked for is in the table, if it is one that is looked for. -/
def Rotable.Known : LuaKey N → Prop
  | .nil          => True
  | .string bytes => ∃ e ∈ t.entries, e.1 = .strkey (luaRGetcstr bytes LUA_MAX_ROTABLE_NAME)
  | .number n     => ∃ e ∈ t.entries, e.1 = .numkey (num.toKey n)
  | .other        => True

end Next

end Alcor.Lua
