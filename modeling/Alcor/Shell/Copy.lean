import Alcor.Lib.Memory
import Alcor.Lib.Run
import Alcor.Rfs.Remote
import Alcor.Romfs.Faults

/-!
# `Alcor.Shell.Copy`: copying a file

`shellh_cp_file` of `src/shell/shell.c`, with files of the internal file
systems (`romfs_read_r`, `romfs_write_r`) and files of the server
(`rfs_read_r`, `rfs_write_r`) on either side. What the calls of `open`
and `malloc` give and what the user answers is up to the `Console`.
Every access can fail: those to the server as `Fates` says, those to
the medium of an internal file system as its `Device` says.

The buffer is the one of a build with the remote file system.
-/

set_option autoImplicit false

namespace Alcor.Shell

open Lib (CStr lower)
open Lib
open Alcor.Eluarpc (ELUARPC_WRITE_REQUEST_EXTRA)
open Alcor.Romfs Alcor.Rfs

/-- An open file of the system. -/
inductive File where
  /-- A descriptor of an internal file system. -/
  | romfs (fs fd : Nat)
  /-- A descriptor of the remote file system. -/
  | rfs (fd : Nat)
  deriving DecidableEq

/-- The file systems. -/
structure Sys where
  /-- The internal ones. -/
  romfs : Nat → RomfsState
  /-- The number of reads of each of them so far. -/
  readfs : Nat → Nat
  /-- The files of the server. -/
  remote : Remotes

/-- A `u32` as an `_ssize_t`. -/
def ssize (n : Nat) : Int := if n < 2 ^ 31 then n else (n : Int) - 2 ^ 32

section Copy
variable (fates : Fates) (devices : Nat → Device) (rfsBufferSize : Nat)

/-- `SHELL_COPY_BUFSIZE`. -/
def SHELL_COPY_BUFSIZE (rfsBufferSize : Nat) : Nat :=
  2 ^ rfsBufferSize - ELUARPC_WRITE_REQUEST_EXTRA

/-- `read`: its result, and what it stores. -/
def read (f : File) (len : Nat) (s : Sys) : (Int × List UInt8) × Sys :=
  match f with
  | .romfs fs fd =>
    let r := romfsReadROn (devices fs) (s.readfs fs) fd len (s.romfs fs)
    let s := { s with
      romfs := Function.update s.romfs fs r.2
      readfs := Function.update s.readfs fs (s.readfs fs + 1) }
    match r.1 with
    | .error _ => ((-1, []), s)
    | .ok bs   => ((ssize bs.length, bs), s)
  | .rfs fd =>
    let r := rfsReadR fates rfsBufferSize fd len len s.remote
    ((ssize r.1.length, r.1), { s with remote := r.2 })

/-- `write`: its result. -/
def write (f : File) (ptr : List UInt8) (s : Sys) : Int × Sys :=
  match f with
  | .romfs fs fd =>
    let r := romfsWriteROn (devices fs) fd ptr (s.romfs fs)
    let s := { s with romfs := Function.update s.romfs fs r.2 }
    match r.1 with
    | .error _ => (-1, s)
    | .ok len  => (ssize len, s)
  | .rfs fd =>
    let r := rfsWriteR fates rfsBufferSize fd ptr.length ptr s.remote
    (ssize r.1, { s with remote := r.2 })

/-- `close`. -/
def close (f : File) (s : Sys) : Sys :=
  match f with
  | .romfs fs fd =>
    { s with romfs := Function.update s.romfs fs (romfsCloseROn (devices fs) fd (s.romfs fs)) }
  | .rfs _       => s

/-- One pass of the copy loop, with the result when it is the last. -/
def copyBody (fds fdd : File) (s : Sys) : Bool × Sys ⊕ Sys :=
  let r := read fates devices rfsBufferSize fds (SHELL_COPY_BUFSIZE rfsBufferSize) s
  if r.1.1 = -1 then .inl (false, r.2)
  else
    let w := write fates devices rfsBufferSize fdd r.1.2 r.2
    if w.1 = -1 then .inl (false, w.2)
    else if w.1 < r.1.1 then .inl (false, w.2)
    else if r.1.1 < SHELL_COPY_BUFSIZE rfsBufferSize then .inl (true, w.2)
    else .inr w.2

/-- The arguments of `shellh_cp_file`. -/
structure CopyArgs where
  psrcname : CStr
  pdestname : CStr
  /-- `SHELL_F_ASK_CONFIRMATION`. -/
  askConfirmation : Bool
  /-- `SHELL_F_FORCE_DESTINATION`. -/
  forceDestination : Bool
  /-- `SHELL_F_SIMULATE_ONLY`. -/
  simulateOnly : Bool

/-- What the copy meets before it starts. -/
structure Console where
  /-- The answer to the first question. -/
  confirm : Bool
  /-- The source file, `none` for −1. -/
  source : Option File
  /-- The destination can be opened for reading. -/
  existing : Bool
  /-- The answer to the second question. -/
  overwrite : Bool
  /-- There is memory for the buffer. -/
  malloc : Bool
  /-- The destination file, `none` for −1. -/
  dest : Option File
  /-- The file systems with both files open. -/
  sys : Sys

/-- The end of `shellh_cp_file`: the files that are open are closed. -/
def done (res : Bool) (fds fdd : Option File) (s : Sys) : Bool × Sys :=
  let s := (fds.map fun f => close devices f s).getD s
  (res, (fdd.map fun f => close devices f s).getD s)

/-- `shellh_cp_file`, with at most `n` passes of the loop: whether the result is 1. -/
def shellhCpFile (args : CopyArgs) (con : Console) (n : Nat) : Option (Bool × Sys) :=
  if lower args.psrcname.bytes = lower args.pdestname.bytes then
    -- a file cannot be copied into itself
    some (done devices false none none con.sys)
  else if args.askConfirmation && !con.confirm then some (done devices false none none con.sys)
  else
    match con.source with
    | none     => some (done devices false none none con.sys)
    | some fds =>
      if !args.forceDestination && con.existing && !con.overwrite then
        some (done devices false (some fds) none con.sys)
      else if !con.malloc then some (done devices false (some fds) none con.sys)
      else if args.simulateOnly then some (done devices true (some fds) none con.sys)
      else
        match con.dest with
        | none     => some (done devices false (some fds) none con.sys)
        | some fdd =>
          (Loop.run (copyBody fates devices rfsBufferSize fds fdd) n con.sys).map fun r =>
            done devices r.1 (some fds) (some fdd) r.2

end Copy

end Alcor.Shell
