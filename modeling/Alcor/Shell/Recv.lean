import Mathlib.Data.List.DropRight
import Alcor.Shell.Command
import Alcor.Xmodem.Receive

/-!
# `Alcor.Shell.Recv`: the command `recv`

`src/shell/shell_recv.c`, over the receiver of `Alcor.Xmodem.Receive`.
The padding behind the data is looked for backwards from the last byte.
What the file system and Lua do with the data is up to the `Target`.

* `stripPadding`: the scan for the padding, in the block.
* `shellRecv`: the command.
* `HandsOn`: what it is to hand on.
-/

set_option autoImplicit false

namespace Alcor.Shell

open Lib (Mem Buf)
open Alcor.Xmodem (Setup XMODEM_ERROR_OUTOFMEM xmodemReceive)

/-- The byte that fills the last packet. -/
def PADDING : UInt8 := 0x1A

/-- What `shell_recv` uses besides the receiver. -/
structure Target where
  lang : Lang
  /-- What is in the block of `malloc`, or `NULL`. -/
  malloc : Option Mem
  /-- Whether `fopen` gives a file. -/
  fopen : Bool
  /-- How many of the bytes `fwrite` takes. -/
  fwrite : List UInt8 → Nat
  /-- Whether `lua_open` gives a state. -/
  luaOpen : Bool
  /-- The error of `luaL_loadbuffer`. -/
  loadbuffer : List UInt8 → Option String
  /-- The error of `lua_pcall`. -/
  pcall : List UInt8 → Option String

/-- What is done with the data. -/
inductive Use where
  /-- `unable to open file`. -/
  | notOpened
  /-- `received and saved as`. -/
  | saved
  /-- `unable to save file`. -/
  | notSaved
  /-- `Unable to create Lua state`. -/
  | noState
  /-- Lua has run it; with its error. -/
  | ran (error : Option String)
  /-- Nothing: there is no file, and no Lua. -/
  | nothing
  deriving DecidableEq, Repr

/-- How a call of `shell_recv` ends. -/
inductive Recv where
  /-- It shows its help. -/
  | help
  /-- It gives up with a message. -/
  | failed (message : String)
  /-- It reads in front of the block. -/
  | front
  /-- It has received this file. -/
  | done (file : List UInt8) (use : Use)
  deriving DecidableEq, Repr

/-- The loop that eliminates the padding, from so many bytes on; `none` is a byte in front of the
block. -/
def stripPadding (prog : Buf) : Nat → Option Nat
  | 0     => none
  | n + 1 => (prog.get? n).bind fun b => if b = PADDING then stripPadding prog n else some (n + 1)

/-- The data that was received, saved or run. -/
def handOn (t : Target) (argc : Nat) (file : List UInt8) : Use :=
  if argc = 2 then
    if t.fopen then if t.fwrite file = file.length then .saved else .notSaved
    else .notOpened
  else if t.lang = .lua then
    if t.luaOpen then
      match t.loadbuffer file with
      | some error => .ran (some error)
      | none       => .ran (t.pcall file)
    else .noState
  else .nothing

/-- `shell_recv`; `none` when the reception has not ended within that many passes, or has written
outside of its block. -/
def shellRecv {σ : Type} (t : Target) (env : Setup σ) (passes argc : Nat) (s : σ) : Option Recv :=
  if 2 < argc ∨ t.lang = .picoc ∧ argc = 0 then some .help
  else
    match t.malloc with
    | none      => some (.failed "Unable to allocate memory")
    | some prog =>
      match xmodemReceive env passes prog s with
      | some (.returned actsize, r) =>
        if actsize < 0 then
          some (.failed
            (if actsize = XMODEM_ERROR_OUTOFMEM then "file too big" else "XMODEM error"))
        else
          match stripPadding r.dest actsize.toNat with
          | none   => some .front
          | some n =>
            let file := r.dest.mem.read 0 n
            some (.done file (handOn t argc file))
      | _ => none

/-- The data without the padding behind it. -/
def withoutPadding (data : List UInt8) : List UInt8 := data.rdropWhile (· = PADDING)

/-- The data is handed on without the padding. -/
def HandsOn (t : Target) (argc : Nat) (data : List UInt8) (result : Option Recv) : Prop :=
  result = some (.done (withoutPadding data) (handOn t argc (withoutPadding data)))

end Alcor.Shell
