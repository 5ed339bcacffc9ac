import Alcor.Lib.Resources
import Alcor.Shell.Tree
import Mathlib.Control.Monad.Basic

/-!
# `Alcor.Shell.Walker`: the walker with its directory handles

`cmn_fs_actual_walkdir` of `src/common_fs.c` once more, this time with
the variable `d`, its label `abort` and every handle that it opens. A
handle is the number of the call of `dm_opendir` that returned it. The
`Around` of a walk answers the calls of `dm_opendir`, of the callback
and of `malloc` in whatever way. The walker that the commands call,
`Alcor.Shell.cmnFsActualWalkdir`, is this one with its handles erased
(`Alcor.Proofs.Shell.Walker.actualWalkdir_erases`).
-/

set_option autoImplicit false

namespace Alcor.Shell.Walker

open Alcor.Shell

/-- What a walk does. -/
inductive Event where
  /-- `dm_opendir` returns a handle. -/
  | opened (d : Nat)
  /-- `dm_readdir`. -/
  | read (d : Nat)
  /-- `dm_closedir`. -/
  | closed (d : Nat)
  /-- The callback, and whether it returns 1. -/
  | called (c : Call) (go : Bool)
  /-- A call of the walker returns 1 or 0. -/
  | returned (r : Bool)
  deriving DecidableEq

/-- What a walk finds. -/
structure Around (S : Type) where
  /-- `dm_opendir`: `NULL`, or the entries that `dm_readdir` is going to give. -/
  opendir : Path → S → Option (List Dirent) × S
  /-- The callback: whether it returns 1. -/
  callback : Call → S → Bool × S
  /-- Whether there is memory. -/
  malloc : S → Bool × S
  /-- What is in the variable `hasdirs` of a new call. -/
  hasdirs : Path → S → Bool × S

/-- The state of a walk. -/
structure State (S : Type) where
  sys : S
  /-- The number of handles so far. -/
  opened : Nat := 0
  /-- What is left to read from a handle. -/
  left : Nat → List Dirent := fun _ => []
  events : List Event := []

/-- A part of a walk; it may take more steps than it was given. -/
abbrev Walk (S : Type) := StateT (State S) Option

/-- Where the statements of the function lead. -/
inductive Flow (α : Type) where
  | next (x : α)
  /-- `goto abort` with this handle in `d`. -/
  | abort (d : Option Nat)
  /-- `return`. -/
  | ret (r : Bool)

section Operations
variable {S : Type} (env : Around S)

/-- More steps are needed. -/
def unfinished {α : Type} : Walk S α := fun _ => none

/-- `dm_opendir`. -/
def dmOpendir (path : Path) : Walk S (Option Nat) := fun s =>
  match env.opendir path s.sys with
  | (none, sys)         => some (none, { s with sys })
  | (some entries, sys) =>
    some (some s.opened,
      { sys, opened := s.opened + 1, left := Function.update s.left s.opened entries,
        events := s.events ++ [.opened s.opened] })

/-- `dm_readdir`. -/
def dmReaddir (d : Nat) : Walk S (Option Dirent) := fun s =>
  some ((s.left d).head?,
    { s with
      left := Function.update s.left d (s.left d).tail, events := s.events ++ [.read d] })

/-- `dm_closedir`. -/
def dmClosedir (d : Nat) : Walk S Unit := fun s =>
  some ((), { s with events := s.events ++ [.closed d] })

/-- The callback. -/
def cb (path : Path) (ent : Option Dirent) (info : FsInfo) : Walk S Bool := fun s =>
  let c : Call := { path, ent, info }
  let (go, sys) := env.callback c s.sys
  some (go, { s with sys, events := s.events ++ [.called c go] })

/-- What is in `hasdirs`. -/
def hasdirsOf (path : Path) : Walk S Bool := fun s =>
  let (hasdirs, sys) := env.hasdirs path s.sys
  some (hasdirs, { s with sys })

/-- `cmn_fs_path_join`. -/
def cmnFsPathJoin (parts : List Path) : Walk S (Option Path) := fun s =>
  if joinTotal parts = 0 then some (none, s)
  else
    let (ok, sys) := env.malloc s.sys
    some (if ok then some (joined parts) else none, { s with sys })

/-- The call returns. -/
def leave (r : Bool) : Walk S Bool := fun s =>
  some (r, { s with events := s.events ++ [.returned r] })

end Operations

section Walker
variable {S : Type} (env : Around S) (pattern : Path) (recursive : Bool)

/-- The first loop: `hasdirs`. -/
def readLoop (path : Path) : Nat → Nat → Bool → Walk S (Flow Bool)
  | 0,     _, _       => unfinished
  | n + 1, d, hasdirs => do
      match ← dmReaddir d with
      | none     => return .next hasdirs
      | some ent =>
        if !cmnPatternMatches ent.fname pattern then readLoop path n d hasdirs
        else
          let go ← cb env path (some ent) .INSIDE_READDIR
          if !go then return .abort (some d)
          else readLoop path n d (if ent.isDir then true else hasdirs)

/-- The body of the second loop, for a directory. -/
def walkEntry (walk : Path → Walk S Bool) (path : Path) (d : Nat) (ent : Dirent) :
    Walk S (Flow Unit) := do
  match ← cmnFsPathJoin env [path, ent.fname] with
  | some fullname =>
    let hasdirs ← walk fullname
    if !hasdirs then return .abort (some d) else return .next ()
  | none          =>
    let go ← cb env path none .MEMORY_ERROR
    if !go then return .abort (some d) else return .next ()

/-- The second loop. -/
def walkLoop (walk : Path → Walk S Bool) (path : Path) : Nat → Nat → Walk S (Flow Unit)
  | 0,     _ => unfinished
  | n + 1, d => do
      match ← dmReaddir d with
      | none     => return .next ()
      | some ent =>
        if ent.isDir then
          match ← walkEntry env walk path d ent with
          | .next _  => walkLoop walk path n d
          | .abort d => return .abort d
          | .ret r   => return .ret r
        else walkLoop walk path n d

/-- The directory is opened again for the second loop; `d` is `NULL` behind it. -/
def walkAgain (walk : Path → Walk S Bool) (n : Nat) (path : Path) : Walk S (Flow Unit) := do
  match ← dmOpendir env path with
  | some d =>
    match ← walkLoop env walk path n d with
    | .next _  =>
      dmClosedir d
      return .next ()
    | .abort d => return .abort d
    | .ret r   => return .ret r
  | none   =>
    let go ← cb env path none .OPENDIR_FAILED
    if !go then return .ret false else return .next ()

/-- `DIRECTORY_DONE`, with `d = NULL`. -/
def directoryDone (path : Path) : Walk S (Flow Unit) := do
  let go ← cb env path none .DIRECTORY_DONE
  if !go then return .abort none else return .next ()

/-- From `SAFE_CLOSEDIR` behind the first loop on. -/
def closeAndDescend (walk : Path → Walk S Bool) (n : Nat) (path : Path) (d : Nat)
    (hasdirs : Bool) : Walk S (Flow Unit) := do
  dmClosedir d
  let go ← cb env path none .AFTER_CLOSEDIR
  if !go then return .abort none
  else if recursive && hasdirs then
    match ← walkAgain env walk n path with
    | .next _  => directoryDone env path
    | .abort d => return .abort d
    | .ret r   => return .ret r
  else directoryDone env path

/-- With an open directory. -/
def walkOpened (walk : Path → Walk S Bool) (n : Nat) (path : Path) (d : Nat) (hasdirs : Bool) :
    Walk S (Flow Unit) := do
  let go ← cb env path none .BEFORE_READDIR
  if !go then return .abort (some d)
  else
    match ← readLoop env pattern path n d hasdirs with
    | .next hasdirs => closeAndDescend env recursive walk n path d hasdirs
    | .abort d      => return .abort d
    | .ret r        => return .ret r

/-- The function up to the label `abort`. -/
def walkBody (walk : Path → Walk S Bool) (n : Nat) (path : Path) : Walk S (Flow Unit) := do
  let hasdirs ← hasdirsOf env path
  match ← dmOpendir env path with
  | some d => walkOpened env pattern recursive walk n path d hasdirs
  | none   =>
    let go ← cb env path none .OPENDIR_FAILED
    if !go then return .ret false else return .next ()

/-- The label `abort`, and the ways past it. -/
def atAbort : Flow Unit → Walk S Bool
  | .next _         => leave true
  | .ret r          => leave r
  | .abort none     => leave false
  | .abort (some d) => do
      dmClosedir d
      leave false

/-- `cmn_fs_actual_walkdir`: whether it returns 1. -/
def cmnFsActualWalkdir : Nat → Path → Walk S Bool
  | 0,     _    => unfinished
  | n + 1, path => do
      -- the call for a directory below has `recursive = 1`, as this one had to get there
      let flow ← walkBody env pattern recursive (cmnFsActualWalkdir n) n path
      atAbort flow

end Walker

end Alcor.Shell.Walker
