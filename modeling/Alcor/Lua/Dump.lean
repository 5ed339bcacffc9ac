import Mathlib.Algebra.Group.Int.Defs
import Alcor.Lib.Memory

/-!
# `Alcor.Lua.Dump`: functions and their dumps

The functions of a chunk as `src/lua/ldump.c` writes them for a target,
whose words, floats and byte order may be different from those of the
machine. The first error of a dump is recorded, and nothing is written
behind it.

* `Proto`: a function, with the functions in it.
* `luaUDumpCrosscompile`: the dump, as a program over `DumpState`.
* `dumpPlan`: the same dump as a list of steps that are known
  beforehand: blocks, alignments, errors and overflows.
* `EndsAndReports`: what a dump is to do about errors.
-/

set_option autoImplicit false

/-!
## Function prototypes and numbers

`src/lua/lobject.h`: a `Proto` is a compiled function with the functions
nested in it. A name that may be missing is an `Option`. `int` has 32
bits, as on every target and in the cross compiler. A `lua_Number` is
an integer or a floating number, depending on the machine; a floating
number is carried as its bit pattern.
-/

namespace Alcor.Lua

open Lib

/-! ### Numbers -/

/-- The greatest `int`. -/
def INT_MAX : Int := 0x7FFFFFFF

/-- The value of `w` bytes that hold a signed integer, from the unsigned one. -/
def signed (w n : Nat) : Int := if n < 2 ^ (8 * w - 1) then n else (n : Int) - 2 ^ (8 * w)

/-- The `w` bytes of an integer. -/
def unsigned (w : Nat) (x : Int) : Nat := (x % 2 ^ (8 * w)).toNat

/-- A `lua_Number`. -/
inductive Number where
  /-- An integer. -/
  | int (x : Int)
  /-- A number that is not an integer, or any number of a machine with floating numbers: its bit
  pattern in the format of the machine that loads it. -/
  | float (bits : Nat)
  deriving DecidableEq

/-- `n` rounded to `bits` binary digits, ties to even. -/
def roundTo (bits n : Nat) : Nat :=
  let unit := 2 ^ (n.log2 + 1 - bits)
  let down := n / unit
  let rest := n % unit
  if 2 * rest < unit ∨ (2 * rest = unit ∧ down % 2 = 0) then down * unit else (down + 1) * unit

/-- `(float)(int)x`. -/
def toFloat (x : Int) : Int := x.sign * roundTo 24 x.natAbs

/-- The bit pattern of an integer as a floating number of `w` bytes, in the IEEE format. -/
def floatBits (w : Nat) (x : Int) : Nat :=
  let digits := if w = 4 then 24 else 53
  let n := roundTo digits x.natAbs
  let bias := 2 ^ (8 * w - digits - 1) - 1
  let sign := if x < 0 then 2 ^ (8 * w - 1) else 0
  if n = 0 then 0
  else sign + (n.log2 + bias) * 2 ^ (digits - 1) +
    (n * 2 ^ (digits - 1) / 2 ^ n.log2 - 2 ^ (digits - 1))

/-! ### Functions -/

/-- An `Instruction`. -/
abbrev Instruction := UInt32

/-- A string, without the zero behind it. -/
abbrev TString := List UInt8

/-- A constant. The compiler makes no others. A string without a text comes from an image with a
size of 0 for it. -/
inductive TValue where
  | nil
  | boolean (b : Bool)
  | number (x : Number)
  | string (s : Option TString)
  deriving DecidableEq

def LUA_TNIL : UInt8 := 0
def LUA_TBOOLEAN : UInt8 := 1
def LUA_TNUMBER : UInt8 := 5
def LUA_TSTRING : UInt8 := 6

/-- A local variable. -/
structure LocVar where
  varname : Option TString
  startpc : Int32
  endpc : Int32
  deriving DecidableEq

/-- A function. The sizes of the vectors are the lengths of the lists. -/
structure Proto where
  source : Option TString
  linedefined : Int32
  lastlinedefined : Int32
  nups : UInt8
  numparams : UInt8
  isVararg : UInt8
  maxstacksize : UInt8
  code : List Instruction
  k : List TValue
  /-- The functions inside. -/
  p : List Proto
  lineinfo : List Int32
  locvars : List LocVar
  upvalues : List (Option TString)

/-- `P` holds of a function and of all functions inside. -/
inductive Proto.Everywhere (P : Proto → Prop) : Proto → Prop where
  | intro {f : Proto} (self : P f) (inner : ∀ g ∈ f.p, Proto.Everywhere P g) : Everywhere P f

/-- Functions are nested at most `n` deep. -/
inductive Proto.Depth : Nat → Proto → Prop where
  | intro {n : Nat} {f : Proto} (inner : ∀ g ∈ f.p, Proto.Depth n g) : Depth (n + 1) f

end Alcor.Lua

/-!
## Writing bytecode

`src/lua/ldump.c`, as it is compiled into the cross compiler: numbers
are floating ones of the host, and a target description says how they
are written.

The writer is a parameter; it sees the blocks written before. Nothing
is written any more once the status is not 0. `none` means that
`Align4` does not end: it counts written bytes, and none are written
after an error.
-/

namespace Alcor.Lua

open Lib

def LUA_ERR_CC_INTOVERFLOW : Int := 101
def LUA_ERR_CC_NOTINTEGER : Int := 102

/-- `DumpTargetInfo`. -/
structure DumpTargetInfo where
  littleEndian : Bool
  sizeofInt : Nat
  sizeofStrsizeT : Nat
  sizeofLuaNumber : Nat
  luaNumberIntegral : Bool
  isArmFpa : Bool
  deriving DecidableEq

/-- What stays the same in a `DumpState`, and the byte order of the host. -/
structure Dumper where
  /-- The status for a block, with the blocks written before. -/
  writer : List (List UInt8) → List UInt8 → Int
  strip : Bool
  target : DumpTargetInfo
  platformLittleEndian : Bool

/-- What changes in a `DumpState`, the blocks written, and where the padding is. -/
structure DumpState where
  status : Int := 0
  wrote : Nat := 0
  blocks : List (List UInt8) := []
  /-- Where `Align4` wrote a byte. -/
  padded : List Nat := []

abbrev DumpM := StateT DumpState Option

variable (D : Dumper)

def dumpBlock (b : List UInt8) : DumpM Unit :=
  modify fun s =>
    if s.status = 0 then
      { s with
        status := D.writer s.blocks b
        wrote := s.wrote + b.length
        blocks := s.blocks ++ [b] }
    else s

/-- `D->status=status`. -/
def setStatus (status : Int) : DumpM Unit := modify fun s => { s with status := status }

def dumpChar (y : UInt8) : DumpM Unit := dumpBlock D [y]

/-- A byte of padding. -/
def dumpPadding : DumpM Unit := do
  modify fun s => { s with padded := if s.status = 0 then s.padded ++ [s.wrote] else s.padded }
  dumpChar D 0

/-- The loop of `Align4`. Four rounds are enough if it ends at all. -/
def dumpAlign4 : Nat → DumpM Unit
  | 0     => fun _ => none
  | n + 1 => do
      if (← get).wrote % 4 ≠ 0 then
        dumpPadding D
        dumpAlign4 n

/-- `MaybeByteSwap`, for a number of the host. -/
def maybeByteSwap (number : List UInt8) : List UInt8 :=
  if D.platformLittleEndian ≠ D.target.littleEndian then number.reverse else number

/-- A number of `w` bytes on the host, in the byte order of the target. -/
def dumpWord (w n : Nat) : DumpM Unit :=
  dumpBlock D (maybeByteSwap D (bytesIn D.platformLittleEndian w n))

def dumpIntWithSize (x : Int) (sizeofInt : Nat) : DumpM Unit :=
  match sizeofInt with
  | 1 => do
      if x > 0x7F ∨ x < -0x80 then setStatus LUA_ERR_CC_INTOVERFLOW
      dumpChar D (UInt8.ofNat (unsigned 1 x))
  | 2 => do
      if x > 0x7FFF ∨ x < -0x8000 then setStatus LUA_ERR_CC_INTOVERFLOW
      dumpWord D 2 (unsigned 2 x)
  | 4 => do
      -- the bounds are reduced by 1
      if x > 0x7FFFFFFE ∨ x < -0x7FFFFFFF then setStatus LUA_ERR_CC_INTOVERFLOW
      dumpWord D 4 (unsigned 4 x)
  | _ => pure ()

def dumpInt (x : Int) : DumpM Unit := dumpIntWithSize D x D.target.sizeofInt

def dumpSize (x : Nat) : DumpM Unit :=
  match D.target.sizeofStrsizeT with
  | 1 => do
      if x > 0xFF then setStatus LUA_ERR_CC_INTOVERFLOW
      dumpChar D (UInt8.ofNat x)
  | 2 => do
      if x > 0xFFFF then setStatus LUA_ERR_CC_INTOVERFLOW
      dumpWord D 2 x
  | 4 => do
      -- the bound is reduced by 1
      if x > 0xFFFFFFFE then setStatus LUA_ERR_CC_INTOVERFLOW
      dumpWord D 4 x
  | _ => pure ()

/-- The bit pattern of a number in a floating format of `w` bytes. -/
def Number.bits (w : Nat) : Number → Nat
  | .int x      => floatBits w x
  | .float bits => bits

def dumpNumber (x : Number) : DumpM Unit :=
  if D.target.luaNumberIntegral then
    match x with
    | .int x   => do
        if toFloat x ≠ x then setStatus LUA_ERR_CC_NOTINTEGER
        dumpIntWithSize D x D.target.sizeofLuaNumber
    | .float _ => setStatus LUA_ERR_CC_NOTINTEGER
  else
    match D.target.sizeofLuaNumber with
    | 4 => dumpWord D 4 (x.bits 4)
    | 8 =>
      let y := bytesIn D.platformLittleEndian 8 (x.bits 8)
      let y := if D.target.isArmFpa then y.drop 4 ++ y.take 4 else y
      dumpBlock D (maybeByteSwap D y)
    | _ => pure ()

def dumpCode (f : Proto) : DumpM Unit := do
  dumpInt D f.code.length
  dumpAlign4 D 4
  f.code.forM fun i => dumpWord D 4 i.toNat

def dumpString (s : Option TString) : DumpM Unit :=
  match s with
  | none   => dumpSize D 0
  | some s => do
      -- the size is a `strsize_t`, and the zero behind the string is written, too
      let size := (s.length % 2 ^ 32 + 1) % 2 ^ 32
      dumpSize D size
      dumpBlock D ((s ++ [0]).take size)

def dumpConstant (o : TValue) : DumpM Unit :=
  match o with
  | .nil       => dumpChar D LUA_TNIL
  | .boolean b => do
      dumpChar D LUA_TBOOLEAN
      dumpChar D (if b then 1 else 0)
  | .number x  => do
      dumpChar D LUA_TNUMBER
      dumpNumber D x
  | .string s  => do
      dumpChar D LUA_TSTRING
      dumpString D s

/-- `DumpConstants`; `functions` writes the functions inside. -/
def dumpConstants (f : Proto) (functions : DumpM Unit) : DumpM Unit := do
  dumpInt D f.k.length
  f.k.forM (dumpConstant D)
  dumpInt D f.p.length
  functions

def dumpLocVar (v : LocVar) : DumpM Unit := do
  dumpString D v.varname
  dumpInt D v.startpc.toInt
  dumpInt D v.endpc.toInt

def dumpDebug (f : Proto) : DumpM Unit := do
  let lineinfo := if D.strip then [] else f.lineinfo
  dumpInt D lineinfo.length
  dumpAlign4 D 4
  lineinfo.forM fun line => dumpInt D line.toInt
  let locvars := if D.strip then [] else f.locvars
  dumpInt D locvars.length
  locvars.forM (dumpLocVar D)
  let upvalues := if D.strip then [] else f.upvalues
  dumpInt D upvalues.length
  upvalues.forM (dumpString D)

mutual

/-- `DumpFunction`. Strings are interned, so that equal pointers are equal strings. -/
def dumpFunction : Proto → Option TString → DumpM Unit
  | f@⟨_, _, _, _, _, _, _, _, _, inner, _, _, _⟩, p => do
      dumpString D (if f.source = p ∨ D.strip then none else f.source)
      dumpInt D f.linedefined.toInt
      dumpInt D f.lastlinedefined.toInt
      dumpChar D f.nups
      dumpChar D f.numparams
      dumpChar D f.isVararg
      dumpChar D f.maxstacksize
      dumpCode D f
      dumpConstants D f (dumpFunctions inner f.source)
      dumpDebug D f

/-- The functions inside another one. -/
def dumpFunctions : List Proto → Option TString → DumpM Unit
  | [],      _ => pure ()
  | f :: fs, p => do
      dumpFunction f p
      dumpFunctions fs p

end

def LUA_SIGNATURE : List UInt8 := [0x1B, 0x4C, 0x75, 0x61]
def LUAC_VERSION : UInt8 := 0x51
def LUAC_FORMAT : UInt8 := 0
def LUAC_HEADERSIZE : Nat := 12

/-- A truth value as a byte. -/
def flag (b : Bool) : UInt8 := if b then 1 else 0

def dumpHeader : DumpM Unit :=
  dumpBlock D (LUA_SIGNATURE ++ [LUAC_VERSION, LUAC_FORMAT, flag D.target.littleEndian,
    UInt8.ofNat D.target.sizeofInt, UInt8.ofNat D.target.sizeofStrsizeT, 4,
    UInt8.ofNat D.target.sizeofLuaNumber, flag D.target.luaNumberIntegral])

/-- `luaU_dump_crosscompile`: the state at the end, with the status that is returned. -/
def luaUDumpCrosscompile (f : Proto) : Option DumpState :=
  ((do dumpHeader D; dumpFunction D f none : DumpM Unit).run {}).map (·.2)

end Alcor.Lua

/-!
## What a dump goes through

The functions of `src/lua/ldump.c` do four things: they give a block to
the writer, pad with `Align4`, record an error status, and convert
values, sometimes to ones that do not fit. `dumpPlan` lists these in
their order, from the function that is dumped and the target alone. It
does not ask the writer, and an error does not end it.

`laidOut` replaces each padding by its bytes, for a dump that has not
failed. What is left at an `align` is then only that `Align4` does not
end if the number of bytes is not right.
-/

namespace Alcor.Lua

open Lib

/-- A step of a dump. -/
inductive Step where
  /-- `DumpBlock` -/
  | block (b : List UInt8)
  /-- `Align4` -/
  | align
  /-- `D->status=status` -/
  | error (status : Int) (ne_zero : status ≠ 0)
  /-- A value does not fit into its type on the target, and nothing is recorded. -/
  | overflow

/-- `D->status=LUA_ERR_CC_INTOVERFLOW` if the value is out of bounds. -/
def boundsSteps (outside : Bool) : List Step :=
  if outside then [.error LUA_ERR_CC_INTOVERFLOW (by decide)] else []

section Plan
variable (D : Dumper)

/-- A number of `w` bytes on the host, in the byte order of the target. -/
def wordStep (w n : Nat) : Step :=
  .block (maybeByteSwap D (bytesIn D.platformLittleEndian w n))

def intSteps (x : Int) (sizeofInt : Nat) : List Step :=
  match sizeofInt with
  | 1 => boundsSteps (x > 0x7F ∨ x < -0x80) ++ [.block [UInt8.ofNat (unsigned 1 x)]]
  | 2 => boundsSteps (x > 0x7FFF ∨ x < -0x8000) ++ [wordStep D 2 (unsigned 2 x)]
  | 4 => boundsSteps (x > 0x7FFFFFFE ∨ x < -0x7FFFFFFF) ++ [wordStep D 4 (unsigned 4 x)]
  | _ => []

def sizeSteps (x : Nat) : List Step :=
  match D.target.sizeofStrsizeT with
  | 1 => boundsSteps (x > 0xFF) ++ [.block [UInt8.ofNat x]]
  | 2 => boundsSteps (x > 0xFFFF) ++ [wordStep D 2 x]
  | 4 => boundsSteps (x > 0xFFFFFFFE) ++ [wordStep D 4 x]
  | _ => []

/-- The number is too large for a `float`. -/
def Number.overflowsFloat : Number → Bool
  | .int x   => 2 ^ 128 ≤ roundTo 24 x.natAbs
  | .float _ => false

def numberSteps (x : Number) : List Step :=
  if D.target.luaNumberIntegral then
    match x with
    | .int x   =>
      (if toFloat x ≠ x then [.error LUA_ERR_CC_NOTINTEGER (by decide)] else []) ++
        intSteps D x D.target.sizeofLuaNumber
    | .float _ => [.error LUA_ERR_CC_NOTINTEGER (by decide)]
  else
    match D.target.sizeofLuaNumber with
    | 4 => (if x.overflowsFloat then [.overflow] else []) ++ [wordStep D 4 (x.bits 4)]
    | 8 =>
      let y := bytesIn D.platformLittleEndian 8 (x.bits 8)
      let y := if D.target.isArmFpa then y.drop 4 ++ y.take 4 else y
      [.block (maybeByteSwap D y)]
    | _ => []

/-- The size of the string does not fit into a `strsize_t`, and not into that of the target. -/
def sizeOverflows (s : TString) : Bool :=
  2 ^ 32 ≤ s.length + 1 ∧ 256 ^ D.target.sizeofStrsizeT ≤ s.length + 1

def stringSteps (s : Option TString) : List Step :=
  match s with
  | none   => sizeSteps D 0
  | some s =>
    let size := (s.length % 2 ^ 32 + 1) % 2 ^ 32
    (if sizeOverflows D s then [.overflow] else []) ++ sizeSteps D size ++
      [.block ((s ++ [0]).take size)]

def constantSteps (o : TValue) : List Step :=
  match o with
  | .nil       => [.block [LUA_TNIL]]
  | .boolean b => [.block [LUA_TBOOLEAN], .block [if b then 1 else 0]]
  | .number x  => .block [LUA_TNUMBER] :: numberSteps D x
  | .string s  => .block [LUA_TSTRING] :: stringSteps D s

/-- A length or another `int` in front of what follows. -/
def countSteps (x : Int) : List Step := intSteps D x D.target.sizeofInt

def codeSteps (f : Proto) : List Step :=
  countSteps D f.code.length ++ .align :: f.code.flatMap fun i => [wordStep D 4 i.toNat]

def locVarSteps (v : LocVar) : List Step :=
  stringSteps D v.varname ++ countSteps D v.startpc.toInt ++ countSteps D v.endpc.toInt

def debugSteps (f : Proto) : List Step :=
  let lineinfo := if D.strip then [] else f.lineinfo
  let locvars := if D.strip then [] else f.locvars
  let upvalues := if D.strip then [] else f.upvalues
  countSteps D lineinfo.length ++ .align ::
    (lineinfo.flatMap fun line => countSteps D line.toInt) ++
    countSteps D locvars.length ++ locvars.flatMap (locVarSteps D) ++
    countSteps D upvalues.length ++ upvalues.flatMap (stringSteps D)

mutual

/-- The steps of `DumpFunction`. -/
def functionSteps : Proto → Option TString → List Step
  | f@⟨_, _, _, _, _, _, _, _, _, inner, _, _, _⟩, p =>
    stringSteps D (if f.source = p ∨ D.strip then none else f.source) ++
      countSteps D f.linedefined.toInt ++ countSteps D f.lastlinedefined.toInt ++
      [.block [f.nups], .block [f.numparams], .block [f.isVararg], .block [f.maxstacksize]] ++
      codeSteps D f ++
      (countSteps D f.k.length ++ f.k.flatMap (constantSteps D) ++ countSteps D f.p.length ++
        functionsSteps inner f.source) ++
      debugSteps D f

def functionsSteps : List Proto → Option TString → List Step
  | [],      _ => []
  | f :: fs, p => functionSteps f p ++ functionsSteps fs p

end

/-- The block of `DumpHeader`. -/
def headerStep : Step :=
  .block (LUA_SIGNATURE ++ [LUAC_VERSION, LUAC_FORMAT, flag D.target.littleEndian,
    UInt8.ofNat D.target.sizeofInt, UInt8.ofNat D.target.sizeofStrsizeT, 4,
    UInt8.ofNat D.target.sizeofLuaNumber, flag D.target.luaNumberIntegral])

end Plan

/-- The padding behind `n` bytes, and where it ends. -/
def paddingSteps (n : Nat) : List Step :=
  List.replicate ((4 - n % 4) % 4) (.block [0]) ++ [.align]

/-- The steps behind `n` bytes, with the bytes of the padding. -/
def laidOut : Nat → List Step → List Step
  | _, []                     => []
  | n, .block b :: steps      => .block b :: laidOut (n + b.length) steps
  | n, .align :: steps        => paddingSteps n ++ laidOut (n + (4 - n % 4) % 4) steps
  | n, .error status h :: steps => .error status h :: laidOut n steps
  | n, .overflow :: steps     => .overflow :: laidOut n steps

/-- What `luaU_dump_crosscompile` goes through for `f`, in order. -/
def dumpPlan (D : Dumper) (f : Proto) : List Step :=
  laidOut 0 (headerStep D :: functionSteps D f none)

/-! ### Errors in a plan -/

/-- The blocks of the steps. -/
def blocksOf : List Step → List (List UInt8)
  | []                   => []
  | .block b :: steps    => b :: blocksOf steps
  | .align :: steps      => blocksOf steps
  | .error _ _ :: steps  => blocksOf steps
  | .overflow :: steps   => blocksOf steps

/-- The number of bytes of the steps. -/
def bytesOf (steps : List Step) : Nat := (blocksOf steps).flatten.length

/-- The step is an error that is recorded: the writer fails for the block, or a value is refused.
The steps `pre` come before. -/
def Records (writer : List (List UInt8) → List UInt8 → Int) (pre : List Step) : Step → Prop
  | .block b   => writer (blocksOf pre) b ≠ 0
  | .error _ _ => True
  | .align     => False
  | .overflow  => False

/-- No error is recorded in these steps. -/
def Quiet (writer : List (List UInt8) → List UInt8 → Int) (steps : List Step) : Prop :=
  ∀ pre e post, steps = pre ++ e :: post → ¬ Records writer pre e

/-- The dump ends, and at its first error, recorded or not, it stops: the status is not 0 and the
writer is not called any more. -/
def EndsAndReports (D : Dumper) (f : Proto) : Prop :=
  ∃ s, luaUDumpCrosscompile D f = some s ∧
    ∀ pre e post, dumpPlan D f = pre ++ e :: post → Quiet D.writer pre →
      (Records D.writer pre e ∨ e = .overflow) →
      s.status ≠ 0 ∧ s.blocks = blocksOf (pre ++ [e])

/-- The bytes up to the first error that is recorded, the ones given to a writer that fails
included, are a multiple of 4, or nothing is aligned behind it. -/
def ErrorAligned (D : Dumper) (f : Proto) : Prop :=
  ∀ pre e post, dumpPlan D f = pre ++ e :: post → Quiet D.writer pre → Records D.writer pre e →
    bytesOf (pre ++ [e]) % 4 = 0 ∨ .align ∉ post

/-- A value that does not fit is followed by an error that is recorded, with no block between. -/
def OverflowNoticed (D : Dumper) (f : Proto) : Prop :=
  ∀ pre post, dumpPlan D f = pre ++ .overflow :: post → Quiet D.writer pre →
    ∃ mid status h post', post = mid ++ .error status h :: post' ∧ blocksOf mid = []

end Alcor.Lua
