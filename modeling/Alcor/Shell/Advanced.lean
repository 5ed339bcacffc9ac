import Alcor.Shell.Files

/-!
# `Alcor.Shell.Advanced`: the commands `cp`, `mv` and `rm`

`src/shell/shell_adv_cp_mv.c` and `src/shell/shell_adv_rm.c`, with
`shellh_cp_file` of `src/shell/shell.c`, over any file system. What is
printed is left out.

* `cpFile`, `cpOrMvFile`: one file.
* `cpWalkdirCb`, `rmWalkdirCb`: the callbacks of the walk.
* `cpMvCommon`, `advRm`: the commands with their arguments.
-/

set_option autoImplicit false

namespace Alcor.Shell

open Lib (CStr lower)

/-- The flags of a command, `SHELL_F_RECURSIVE` and the others. -/
structure Flags where
  recursive : Bool := false
  forceDestination : Bool := false
  askConfirmation : Bool := false
  simulateOnly : Bool := false
  move : Bool := false
  deriving DecidableEq

/-- The options `-R`, `-f`, `-c` and `-s`. -/
def optR : Path := [45, 82]
def optF : Path := [45, 102]
def optC : Path := [45, 99]
def optS : Path := [45, 115]

section
variable {S D : Type} (env : Env S D)

/-! ### Files -/

/-- The copy loop of `shellh_cp_file`, with a buffer of `size` bytes. -/
def copyLoop (fds fdd size : Nat) : Nat → Cmd S Bool
  | 0     => unfinished
  | n + 1 => do
      let (datalen, data) ← look (env.read fds size)
      if datalen = -1 then return false
      else
        let datawrote ← change (.write fdd data) (env.write fdd data)
        if datawrote = -1 then return false
        else if datawrote < datalen then return false
        else if datalen < size then return true
        else copyLoop fds fdd size n

/-- `close`. -/
def closeFile (fd : Nat) : Cmd S Unit := look fun s => ((), env.close fd s)

/-- The question whether to do it, for the commands that have been told to ask. -/
def askConfirmation (flags : Flags) : Cmd S Bool :=
  if flags.askConfirmation then look env.ask else pure true

/-- The test of `shellh_cp_file` for a destination that is there. -/
def existingFile (pdestname : Path) (flags : Flags) : Cmd S (Option Nat) :=
  if flags.forceDestination then pure none else look (env.openRead pdestname)

/-- The question whether a destination that is there is overwritten. -/
def askOverwrite (existing : Option Nat) : Cmd S Bool :=
  match existing with
  | none     => pure true
  | some fdd => do
      closeFile env fdd
      look env.ask

/-- `shellh_cp_file`: whether it returns 1. -/
def cpFile (size n : Nat) (psrcname pdestname : Path) (flags : Flags) : Cmd S Bool := do
  if lower psrcname = lower pdestname then return false
  else
    let confirmed ← askConfirmation env flags
    if !confirmed then return false
    else
      let fds ← look (env.openRead psrcname)
      match fds with
      | none     => return false
      | some fds =>
        let existing ← existingFile env pdestname flags
        let overwrite ← askOverwrite env existing
        if !overwrite then
          closeFile env fds
          return false
        else
          let buf ← look env.malloc
          if !buf then
            closeFile env fds
            return false
          else if flags.simulateOnly then
            closeFile env fds
            return true
          else
            let fdd ← change (.openWrite pdestname) (env.openWrite pdestname)
            match fdd with
            | none     =>
              closeFile env fds
              return false
            | some fdd =>
              let res ← copyLoop env fds fdd size n
              closeFile env fds
              closeFile env fdd
              return res

/-- The `rename` of `shellh_cp_or_mv_file`; a copy goes on as if it were to another device. -/
def tryRename (psrc pdest : Path) (flags : Flags) : Cmd S RenameResult :=
  if flags.move then change (.rename psrc pdest) (env.rename psrc pdest) else pure .exdev

/-- `shellh_cp_or_mv_file`: whether it returns 1. -/
def cpOrMvFile (size n : Nat) (psrc pdest : Path) (flags : Flags) : Cmd S Bool := do
  let renamed ← tryRename env psrc pdest flags
  match renamed with
  | .error => return false
  | .ok    => return true
  | .exdev =>
    let copied ← cpFile env size n psrc pdest flags
    if !copied then return false
    else if flags.move then
      let res ← change (.unlink psrc) (env.unlink psrc)
      return res ≠ -1
    else return true

/-! ### `cp` and `mv` -/

/-- `SHELL_CP_STATE`; `dloc` is a part of the source directory, from its last slash on. -/
structure CpState where
  pdestdir : Path
  psrcdir : Path
  dloc : Path
  flags : Flags

/-- `path + strlen( ps->psrcdir ) - strlen( ps->dloc )`. -/
def CpState.relative (ps : CpState) (path : Path) : Path :=
  path.drop (ps.psrcdir.length - ps.dloc.length)

/-- `shellh_cp_walkdir_cb`. -/
def cpWalkdirCb (size n : Nat) (ps : CpState) : Callback S := fun path pent info => do
  match info with
  | .BEFORE_READDIR =>
    if !ps.psrcdir.isPrefixOf path then return false
    else
      let tmp ← cmnFsPathJoin env [ps.pdestdir, ps.relative path]
      match tmp with
      | none     => return false
      | some tmp =>
        let there ← canOpendir env tmp
        if there then return true
        else if ps.flags.simulateOnly then return true
        else
          let res ← change (.mkdir tmp) (env.mkdir tmp)
          return res ≠ -1
  | .INSIDE_READDIR =>
    match pent with
    | none      => return true
    | some pent =>
      if pent.isDir then return true
      else if !ps.psrcdir.isPrefixOf path then return false
      else
        let tmp ← cmnFsPathJoin env [path, pent.fname]
        match tmp with
        | none     => return false
        | some tmp =>
          let tmp2 ← cmnFsPathJoin env [ps.pdestdir, ps.relative path, pent.fname]
          match tmp2 with
          | none      => return false
          | some tmp2 =>
            let _ ← cpOrMvFile env size n tmp tmp2 ps.flags
            return true
  | .OPENDIR_FAILED => return false
  | .AFTER_CLOSEDIR | .MEMORY_ERROR | .DIRECTORY_DONE => return true

/-- The flags and the paths among the arguments of `cp` and `mv`. -/
def cpArgs (isMove : Bool) (args : List Path) : Flags × Option Path × Option Path :=
  args.foldl (fun (flags, src, dst) arg =>
    if arg = optR then ({ flags with recursive := true }, src, dst)
    else if arg = optF then ({ flags with forceDestination := true }, src, dst)
    else if arg = optC then ({ flags with askConfirmation := true }, src, dst)
    else if arg = optS then ({ flags with simulateOnly := true }, src, dst)
    else if arg.head? = some SLASH then
      match src, dst with
      | none,   _    => (flags, some arg, dst)
      | some _, none => (flags, src, some arg)
      | some _, some _ => (flags, src, dst)
    else (flags, src, dst)) ({ move := isMove }, none, none)

/-- The types that are no source and no destination. -/
def invalidTypes (srctype dsttype : FsType) : Bool :=
  srctype = .ERROR || srctype = .FILE_NOT_FOUND || srctype = .DIR_NOT_FOUND ||
    srctype = .UNKNOWN_NOT_FOUND || dsttype = .ERROR || dsttype = .DIR_NOT_FOUND

/-- The part of `shellh_adv_cp_mv_common` after the arguments. Where the code uses a directory for
which there was no memory, a null pointer, nothing more is done. -/
def cpMvPaths (size n : Nat) (flags : Flags) (srcpath dstpath : Path) : Cmd S Unit := do
  let srctype ← cmnFsGetType env srcpath
  let dsttype ← cmnFsGetType env dstpath
  if dsttype = .PATTERN then return
  else if invalidTypes srctype dsttype then return
  else
    let src ← cmnFsSplitPath env srcpath
    let dst ← cmnFsSplitPath env dstpath
    if srctype = .FILE then
      if dsttype = .FILE ∨ dsttype = .FILE_NOT_FOUND ∨ dsttype = .UNKNOWN_NOT_FOUND then
        let _ ← cpOrMvFile env size n srcpath dstpath flags
        return
      else if dsttype = .DIR then
        match src, dst with
        | some (_, srcfile), some (dstdir, _) =>
          let tmp ← cmnFsPathJoin env [dstdir, srcfile]
          match tmp with
          | none     => return
          | some tmp =>
            let _ ← cpOrMvFile env size n srcpath tmp flags
            return
        | _, _ => return
      else return
    else if dsttype = .FILE ∨ dsttype = .FILE_NOT_FOUND then return
    else
      match src, dst with
      | some (srcdir, _), some (dstdir, _) =>
        let dloc := if flags.recursive then SLASH :: lastName srcdir else []
        let _ ← cmnFsWalkdir env n srcpath
          (cpWalkdirCb env size n { pdestdir := dstdir, psrcdir := srcdir, dloc, flags })
          flags.recursive
        return
      | _, _ => return

/-- `shellh_adv_cp_mv_common`, with the arguments behind the name of the command. -/
def cpMvCommon (size n : Nat) (isMove : Bool) (args : List Path) : Cmd S Unit := do
  if args.length < 2 then return
  else
    match cpArgs isMove args with
    | (flags, some srcpath, some dstpath) => cpMvPaths env size n flags srcpath dstpath
    | _                                   => return

/-! ### `rm` -/

/-- `shellh_rm_one`. -/
def rmOne (path : Path) (flags : Flags) : Cmd S Unit := do
  let ftype ← cmnFsGetType env path
  let confirmed ← askConfirmation env flags
  if !confirmed then return
  else if flags.simulateOnly then return
  else if ftype = .FILE then
    let _ ← change (.unlink path) (env.unlink path)
    return
  else if ftype = .DIR then
    let _ ← change (.rmdir path) (env.rmdir path)
    return
  else return

/-- The flags that the callback of `rm` reads: a byte at the address of an `unsigned`, which is
the one with the flags on a little-endian machine, and 0 on a big-endian one. -/
def byteFlags (littleEndian : Bool) (flags : Flags) : Flags := if littleEndian then flags else {}

/-- `shellh_rm_walkdir_cb`. -/
def rmWalkdirCb (pflags : Flags) : Callback S := fun path pent info => do
  match info with
  | .INSIDE_READDIR =>
    match pent with
    | none      => return true
    | some pent =>
      let tmp ← cmnFsPathJoin env [path, pent.fname]
      match tmp with
      | none     => return false
      | some tmp =>
        let ftype ← cmnFsGetType env tmp
        if ftype = .FILE then
          rmOne env tmp pflags
          return true
        else return true
  | .OPENDIR_FAILED => return false
  | .DIRECTORY_DONE =>
    if pflags.recursive && !cmnFsIsRootDir path then
      rmOne env path pflags
      return true
    else return true
  | .BEFORE_READDIR | .AFTER_CLOSEDIR | .MEMORY_ERROR => return true

/-- The flags and the path among the arguments of `rm`. -/
def rmArgs (args : List Path) : Flags × Option Path :=
  args.foldl (fun (flags, fmask) arg =>
    if arg.head? = some SLASH then (flags, some (fmask.getD arg))
    else if arg = optR then ({ flags with recursive := true }, fmask)
    else if arg = optC then ({ flags with askConfirmation := true }, fmask)
    else if arg = optS then ({ flags with simulateOnly := true }, fmask)
    else (flags, fmask)) ({}, none)

/-- `shell_adv_rm`. -/
def advRm (n : Nat) (littleEndian : Bool) (args : List Path) : Cmd S Unit := do
  match rmArgs args with
  | (_,     none)       => return
  | (flags, some fmask) =>
    let masktype ← cmnFsGetType env fmask
    if masktype = .FILE then rmOne env fmask flags
    else if masktype = .ERROR ∨ masktype = .FILE_NOT_FOUND ∨ masktype = .DIR_NOT_FOUND ∨
        masktype = .UNKNOWN_NOT_FOUND then return
    else if masktype = .DIR ∧ flags.recursive = false then return
    else
      let _ ← cmnFsWalkdir env n fmask (rmWalkdirCb env (byteFlags littleEndian flags))
        flags.recursive
      return

end

/-- The commands. -/
inductive Command where
  | cp
  | mv
  | rm
  deriving DecidableEq

/-- A command on a machine: the arguments, the size of the copy buffer, and the steps it may
take. -/
def Command.run {S D : Type} (cmd : Command) (env : Env S D) (littleEndian : Bool) (size n : Nat)
    (args : List Path) : Cmd S Unit :=
  match cmd with
  | .cp => cpMvCommon env size n false args
  | .mv => cpMvCommon env size n true args
  | .rm => advRm env n littleEndian args

end Alcor.Shell
