import Alcor.Lib.Compare
import Alcor.Lua.Dump

/-!
# `Alcor.Lua.Undump`: loading a dump

`src/lua/lundump.c`, from a buffer and in place, and the targets that a
dump is made for.

* `Machine`: the sizes and the byte order of the machine that loads.
* `Loader`: how blocks and words are had; `Loader.buffered` copies and
  swaps them, `Loader.directly` points into the image.
* `luaUUndump`: the loader, as a program over `LoadState`.
* `Machine.Matches`, `Proto.Fits`: the dumps that it is made for.
-/

set_option autoImplicit false

/-!
## Reading bytecode

`src/lua/lundump.c`, on a machine whose `int`, `size_t` and
`Instruction` have 4 bytes. `none` is a Lua error: the image is not
accepted, or memory for it cannot be had.

In direct mode the image stands in memory, and the instructions, the
line information and the strings are used where they are. What a
pointer into the image refers to are the bytes not yet read. A vector
that does not fit into the address space has no place in an image
either.

`luaG_checkcode` is a parameter.
-/

namespace Alcor.Lua

open Lib
open Lib.Lockstep (times)

def MAX_SIZET : Nat := 2 ^ 32 - 3
def LUAI_MAXCCALLS : Nat := 200
def SIZEOF_POINTER : Nat := 4
def SIZEOF_LOCVAR : Nat := 12

/-- A machine that loads bytecode. -/
structure Machine where
  littleEndian : Bool
  /-- `char` is signed. -/
  signedChar : Bool
  /-- `sizeof( lua_Number )`. -/
  sizeofLuaNumber : Nat
  /-- `lua_Number` is an integer. -/
  luaNumberIntegral : Bool
  /-- `sizeof( TValue )`. -/
  sizeofTValue : Nat
  deriving DecidableEq

/-- What stays the same in a `LoadState`. -/
structure Loader where
  machine : Machine
  /-- `luaZ_direct_mode`. -/
  direct : Bool
  /-- `luaG_checkcode`. -/
  checkcode : Proto → Bool
  swap : Bool := false
  numsize : Nat := 0
  toflt : Bool := false

/-- The loader in buffered mode. -/
def Loader.buffered (S : Loader) : Loader := { S with direct := false }

/-- The loader in direct mode. -/
def Loader.directly (S : Loader) : Loader := { S with direct := true }

/-- What changes in a `LoadState` and in its `ZIO`. -/
structure LoadState where
  /-- The bytes not yet read. -/
  rest : List UInt8
  /-- The offset in the image. -/
  i : Nat := 0
  total : Nat := 0
  /-- Where `Align4` read a byte. -/
  skipped : List Nat := []
  deriving DecidableEq

abbrev LoadM := StateT LoadState Option

/-- A Lua error. -/
def loadError {α : Type} : LoadM α := fun _ => none

variable (S : Loader)

def loadBlock (size : Nat) : LoadM (List UInt8) := fun s =>
  if size ≤ s.rest.length then
    some (s.rest.take size,
      { s with rest := s.rest.drop size, i := s.i + size, total := s.total + size })
  else none

/-- The swap in `LoadMem`, for one element. -/
def swapElement (b : List UInt8) : LoadM (List UInt8) :=
  if S.swap then
    if b.length = 1 ∨ b.length = 2 ∨ b.length = 4 ∨ b.length = 8 then pure b.reverse
    else loadError
  else pure b

/-- `LoadVar`: the bytes of a variable of `size` bytes. -/
def loadVar (size : Nat) : LoadM (List UInt8) := do
  let b ← loadBlock size
  swapElement S b

def loadChar : LoadM UInt8 := do
  let b ← loadVar S 1
  pure (UInt8.ofNat (leVal b))

/-- The loop of `Align4`. Four rounds are always enough. -/
def loadAlign4 : Nat → LoadM Unit
  | 0     => loadError
  | n + 1 => do
      if (← get).total % 4 ≠ 0 then
        modify fun s => { s with skipped := s.skipped ++ [s.i] }
        let _ ← loadChar S
        loadAlign4 n

/-- The value of the bytes of a variable. -/
def Loader.val (b : List UInt8) : Nat := valIn S.machine.littleEndian b

def loadInt : LoadM Int32 := do
  let b ← loadVar S 4
  let x := (UInt32.ofNat (S.val b)).toInt32
  if x < 0 then loadError else pure x

/-- The value of `char` on the machine. -/
def Machine.char (m : Machine) (c : UInt8) : Int := if m.signedChar then signed 1 c.toNat else c.toNat

def loadNumber : LoadM Number :=
  let w := S.machine.sizeofLuaNumber
  if S.toflt then do
    if S.numsize = 1 ∨ S.numsize = 2 ∨ S.numsize = 4 ∨ S.numsize = 8 then
      let b ← loadVar S S.numsize
      let y := signed S.numsize (S.val b)
      pure (if S.machine.luaNumberIntegral then .int (signed w (unsigned w y))
        else .float (floatBits w y))
    else loadError
  else do
    let b ← loadVar S w
    pure (if S.machine.luaNumberIntegral then .int (signed w (S.val b)) else .float (S.val b))

def loadString : LoadM (Option TString) := do
  let b ← loadVar S 4
  let size := (UInt32.ofNat (S.val b)).toInt32
  if size = 0 then pure none
  -- for a negative size there is no room for a copy beside the image
  else if ¬ S.direct ∧ size < 0 then loadError
  else
    let s ← loadBlock size.toUInt32.toNat
    pure (some (s.take (size.toUInt32.toNat - 1)))

/-- The elements of `size` bytes in a block. -/
def elements (size : Nat) : Nat → List UInt8 → List (List UInt8)
  | 0,     _ => []
  | n + 1, b => b.take size :: elements size n (b.drop size)

/-- `luaM_newvector`; memory that fits into the address space can be had. -/
def newVector (n size : Nat) : LoadM Unit :=
  if n + 1 ≤ MAX_SIZET / size then pure () else loadError

/-- A vector of words, copied or used where it is. -/
def loadWords (n : Nat) : LoadM (List UInt32) :=
  if S.direct then
    if n * 4 < 2 ^ 32 then do
      let b ← loadBlock (n * 4)
      pure ((elements 4 n b).map fun e => UInt32.ofNat (S.val e))
    else loadError
  else do
    newVector n 4
    let b ← loadBlock (n * 4)
    let es ← (elements 4 n b).mapM (swapElement S)
    pure (es.map fun e => UInt32.ofNat (S.val e))

def loadCode : LoadM (List Instruction) := do
  let n ← loadInt S
  loadAlign4 S 4
  loadWords S n.toNatClampNeg

def loadConstant : LoadM TValue := do
  let t ← loadChar S
  if t = LUA_TNIL then pure .nil
  else if t = LUA_TBOOLEAN then do
    let c ← loadChar S
    pure (.boolean (c ≠ 0))
  else if t = LUA_TNUMBER then do
    let x ← loadNumber S
    pure (.number x)
  else if t = LUA_TSTRING then do
    let s ← loadString S
    pure (.string s)
  else loadError

/-- `LoadConstants`: the constants and the functions inside; `function` loads one of these. -/
def loadConstants (function : LoadM Proto) : LoadM (List TValue × List Proto) := do
  let n ← loadInt S
  newVector n.toNatClampNeg S.machine.sizeofTValue
  let k ← times (loadConstant S) n.toNatClampNeg
  let n ← loadInt S
  newVector n.toNatClampNeg SIZEOF_POINTER
  let p ← times function n.toNatClampNeg
  pure (k, p)

def loadLocVar : LoadM LocVar := do
  let varname ← loadString S
  let startpc ← loadInt S
  let endpc ← loadInt S
  pure ⟨varname, startpc, endpc⟩

/-- `LoadDebug`: line information, local variables and names of upvalues. -/
def loadDebug : LoadM (List Int32 × List LocVar × List (Option TString)) := do
  let n ← loadInt S
  loadAlign4 S 4
  let lineinfo ← loadWords S n.toNatClampNeg
  let n ← loadInt S
  newVector n.toNatClampNeg SIZEOF_LOCVAR
  let locvars ← times (loadLocVar S) n.toNatClampNeg
  let n ← loadInt S
  newVector n.toNatClampNeg SIZEOF_POINTER
  let upvalues ← times (loadString S) n.toNatClampNeg
  pure (lineinfo.map UInt32.toInt32, locvars, upvalues)

/-- `LoadFunction`, with the number of calls left before the code is too deep. -/
def loadFunction : Nat → Option TString → LoadM Proto
  | 0,         _ => loadError
  | calls + 1, p => do
      let name ← loadString S
      let source := if name = none then p else name
      let linedefined ← loadInt S
      let lastlinedefined ← loadInt S
      let nups ← loadChar S
      let numparams ← loadChar S
      let isVararg ← loadChar S
      let maxstacksize ← loadChar S
      let code ← loadCode S
      let (k, inner) ← loadConstants S (loadFunction calls source)
      let (lineinfo, locvars, upvalues) ← loadDebug S
      let f : Proto := ⟨source, linedefined, lastlinedefined, nups, numparams, isVararg,
        maxstacksize, code, k, inner, lineinfo, locvars, upvalues⟩
      if S.checkcode f then pure f else loadError

def luaUHeader (m : Machine) : List UInt8 :=
  LUA_SIGNATURE ++ [LUAC_VERSION, LUAC_FORMAT, flag m.littleEndian, 4, 4, 4,
    UInt8.ofNat m.sizeofLuaNumber, flag m.luaNumberIntegral]

/-- What `LoadHeader` finds in a header, if it accepts it: whether bytes are swapped, the size of
numbers, and whether these are converted. -/
def checkHeader (m : Machine) (s : List UInt8) : Option (Bool × Nat × Bool) :=
  let h := luaUHeader m
  let intck : Int := if m.luaNumberIntegral then 1 else 0
  let swap := s.getD 6 0 ≠ h.getD 6 0
  let s := s.set 6 (h.getD 6 0)
  let h := h.set 10 (s.getD 10 0)
  let toflt := m.char (s.getD 11 0) > intck
  let s := if toflt then s.set 11 (h.getD 11 0) else s
  if h = s then some (swap, (s.getD 10 0).toNat, toflt) else none

/-- `LoadHeader`. -/
def loadHeader : LoadM Loader := do
  let s ← loadBlock LUAC_HEADERSIZE
  match checkHeader S.machine s with
  | some (swap, numsize, toflt) =>
    pure { S with swap := swap, numsize := numsize, toflt := toflt }
  | none                        => loadError

/-- `luaU_undump` of an image, with `nCcalls` calls made before. -/
def luaUUndump (nCcalls : Nat) (image : List UInt8) : Option (Proto × LoadState) :=
  StateT.run
    (do
      let S ← loadHeader S
      modify fun s => { s with total := 0 }
      loadFunction S (LUAI_MAXCCALLS - nCcalls) (some [0x3D, 0x3F]))
    { rest := image }

end Alcor.Lua

/-!
## What can be dumped for a machine

The values of a function have to be ones of the target, and the
vectors have to fit into its memory.

The words of an image with the other byte order are different ones when
they are not swapped, except for those that are the same when their
bytes are reversed (`Proto.Symmetric`).
-/

namespace Alcor.Lua

/-- The targets this is about. -/
structure Supported (t : DumpTargetInfo) : Prop where
  sizeofInt : t.sizeofInt = 4
  sizeofStrsizeT : t.sizeofStrsizeT = 4
  isArmFpa : t.isArmFpa = false
  integral : t.luaNumberIntegral = true →
    t.sizeofLuaNumber = 1 ∨ t.sizeofLuaNumber = 2 ∨ t.sizeofLuaNumber = 4
  floating : t.luaNumberIntegral = false → t.sizeofLuaNumber = 4 ∨ t.sizeofLuaNumber = 8

/-- The machine is like the target. -/
structure Machine.Matches (m : Machine) (t : DumpTargetInfo) : Prop where
  littleEndian : m.littleEndian = t.littleEndian
  sizeofLuaNumber : m.sizeofLuaNumber = t.sizeofLuaNumber
  luaNumberIntegral : m.luaNumberIntegral = t.luaNumberIntegral

/-- A number that the target can represent. -/
def Number.Representable (t : DumpTargetInfo) : Number → Prop
  | .int x      => t.luaNumberIntegral = true ∧
      -2 ^ (8 * t.sizeofLuaNumber - 1) ≤ x ∧ x < 2 ^ (8 * t.sizeofLuaNumber - 1)
  | .float bits => t.luaNumberIntegral = false ∧ bits < 256 ^ t.sizeofLuaNumber

/-- A number that the dumper takes for one of the target: an integer that does not change as a
`float`, and is not the least of 4 bytes. -/
def Number.Accepted : Number → Prop
  | .int x   => toFloat x = x ∧ x ≠ -0x80000000
  | .float _ => True

/-- A string whose size is an `int32_t`, zero included. -/
def StringFits (s : Option TString) : Prop := ∀ t, s = some t → (t.length : Int) < INT_MAX

/-- A vector whose size is an `int`, and which fits into memory. -/
def VectorFits (size n : Nat) : Prop := (n : Int) < INT_MAX ∧ n + 1 ≤ MAX_SIZET / size

/-- An `int` that is not negative and not the greatest. -/
def IntFits (x : Int32) : Prop := 0 ≤ x.toInt ∧ x.toInt < INT_MAX

/-- A constant that can be dumped for the target. -/
def TValue.Fits (t : DumpTargetInfo) : TValue → Prop
  | .number x => Number.Representable t x ∧ Number.Accepted x
  | .string s => StringFits s
  | _         => True

/-- A local variable that can be dumped. -/
structure LocVar.Fits (v : LocVar) : Prop where
  varname : StringFits v.varname
  startpc : IntFits v.startpc
  endpc : IntFits v.endpc

/-- A function that can be dumped for the target and loaded by the machine, but for the functions
inside. -/
structure Proto.Fits (t : DumpTargetInfo) (m : Machine) (f : Proto) : Prop where
  source : f.source ≠ none
  sourceFits : StringFits f.source
  linedefined : IntFits f.linedefined
  lastlinedefined : IntFits f.lastlinedefined
  code : VectorFits 4 f.code.length
  k : VectorFits m.sizeofTValue f.k.length
  consts : ∀ o ∈ f.k, TValue.Fits t o
  p : VectorFits SIZEOF_POINTER f.p.length
  lineinfo : VectorFits 4 f.lineinfo.length
  lines : ∀ x ∈ f.lineinfo, IntFits x
  locvars : VectorFits SIZEOF_LOCVAR f.locvars.length
  vars : ∀ v ∈ f.locvars, LocVar.Fits v
  upvalues : VectorFits SIZEOF_POINTER f.upvalues.length
  names : ∀ s ∈ f.upvalues, StringFits s

/-! ### Words in the two byte orders -/

/-- A word with its bytes reversed. -/
def byteSwap (w : UInt32) : UInt32 := UInt32.ofNat (Lib.leVal (Lib.leBytes 4 w.toNat).reverse)

/-- The image has the other byte order than the machine. -/
def OtherByteOrder (m : Machine) (image : List UInt8) : Prop :=
  image.getD 6 0 ≠ (luaUHeader m).getD 6 0

/-- The instructions and lines of the function are the same with their bytes reversed. -/
def Proto.Symmetric (f : Proto) : Prop :=
  (∀ i ∈ f.code, byteSwap i = i) ∧ ∀ line ∈ f.lineinfo, byteSwap line.toUInt32 = line.toUInt32

/-! ### Tests of these -/

instance (s : Option TString) : Decidable (StringFits s) :=
  match s with
  | none   => .isTrue fun _ h => nomatch h
  | some t => decidable_of_iff ((t.length : Int) < INT_MAX)
      ⟨fun h _ ht => Option.some.inj ht ▸ h, fun h => h t rfl⟩

instance (size n : Nat) : Decidable (VectorFits size n) := inferInstanceAs (Decidable (_ ∧ _))

instance (x : Int32) : Decidable (IntFits x) := inferInstanceAs (Decidable (_ ∧ _))

instance (t : DumpTargetInfo) (x : Number) : Decidable (x.Representable t) := by
  cases x <;> exact inferInstanceAs (Decidable (_ ∧ _))

instance (x : Number) : Decidable x.Accepted := by
  cases x with
  | int x   => exact inferInstanceAs (Decidable (_ ∧ _))
  | float _ => exact .isTrue trivial

instance (t : DumpTargetInfo) (o : TValue) : Decidable (o.Fits t) :=
  match o with
  | .number x            => inferInstanceAs (Decidable (x.Representable t ∧ x.Accepted))
  | .string s            => inferInstanceAs (Decidable (StringFits s))
  | .nil | .boolean _    => .isTrue trivial

instance (v : LocVar) : Decidable v.Fits :=
  decidable_of_iff (StringFits v.varname ∧ IntFits v.startpc ∧ IntFits v.endpc)
    ⟨fun ⟨h1, h2, h3⟩ => ⟨h1, h2, h3⟩, fun ⟨h1, h2, h3⟩ => ⟨h1, h2, h3⟩⟩

end Alcor.Lua
