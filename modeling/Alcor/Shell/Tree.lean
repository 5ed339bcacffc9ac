import Mathlib.Logic.Function.Basic
import Alcor.Shell.Files

/-!
# `Alcor.Shell.Tree`: directory trees and disks

What the commands of the shell are said about: a directory tree, and a
file system that is written to.

* `Dir`: a tree, with `here`, `deeper` and `entries` for what is in it.
* `walkCalls`: the calls of the callback in a walk of a tree.
* `Place`: a tree at the path that a command is given, with what the
  command finds there.
* `Disk`, `diskEnv`: a disk in use, some of whose operations may fail.
-/

set_option autoImplicit false

/-!
## Directory trees, and what a walk of them is

A tree of directories and the files below it, a file system that has it
at some path, and the walker's calls of its callback: those that a walk
makes (`dirCalls`), one after the other until one is refused
(`offerAll`). The callbacks here keep a log of the calls.
-/

namespace Alcor.Shell

/-- A name in a directory. -/
structure Name where
  path : Path
  ne_nil : path ≠ []
  no_slash : SLASH ∉ path

/-- A directory: its entries in the order of `dm_readdir`, with what is in the directories
among them. -/
inductive Dir where
  | empty
  | file (name : Name) (rest : Dir)
  | sub (name : Name) (inner rest : Dir)

namespace Dir

/-- The entries of the directory. -/
def entries : Dir → List Dirent
  | empty             => []
  | file name rest    => { fname := name.path, isDir := false } :: rest.entries
  | sub name _ rest   => { fname := name.path, isDir := true } :: rest.entries

/-- How many entries there are at any depth. -/
def size : Dir → Nat
  | empty             => 0
  | file _ rest       => rest.size + 1
  | sub _ inner rest  => inner.size + rest.size + 1

/-- The path of a directory in the one at a path. -/
def inside (path : Path) (name : Name) : Path := joined [path, name.path]

/-- The entries of a directory, each with the path of the directory. -/
def here (path : Path) (dir : Dir) : List (Path × Dirent) := dir.entries.map (path, ·)

/-- The entries in the directories below, at any depth. -/
def deeper (path : Path) : Dir → List (Path × Dirent)
  | empty               => []
  | file _ rest         => rest.deeper path
  | sub name inner rest =>
    inner.here (inside path name) ++ inner.deeper (inside path name) ++ rest.deeper path

/-- The directories in a directory. -/
def subs : Dir → List (Name × Dir)
  | empty               => []
  | file _ rest         => rest.subs
  | sub name inner rest => (name, inner) :: rest.subs

/-- The names in each directory are different. -/
def Distinct : Dir → Prop
  | empty               => True
  | file name rest      => name.path ∉ rest.entries.map Dirent.fname ∧ rest.Distinct
  | sub name inner rest =>
    name.path ∉ rest.entries.map Dirent.fname ∧ inner.Distinct ∧ rest.Distinct

/-- A file system has the directories below at their paths. -/
def HasBelow (dirAt : Path → Option (List Dirent)) (path : Path) : Dir → Prop
  | empty               => True
  | file _ rest         => rest.HasBelow dirAt path
  | sub name inner rest =>
    dirAt (inside path name) = some inner.entries ∧
      inner.HasBelow dirAt (inside path name) ∧ rest.HasBelow dirAt path

end Dir

/-- The entry matches the pattern. -/
def matchesPattern (pattern : Path) (entry : Path × Dirent) : Bool :=
  cmnPatternMatches entry.2.fname pattern

/-! ### The calls of a walk -/

/-- A call of the callback. -/
structure Call where
  path : Path
  ent : Option Dirent
  info : FsInfo
  deriving DecidableEq

section
variable (pattern : Path) (recursive : Bool) (hasdirs : Path → Bool)

/-- The condition of the second loop: it was so before, or a directory has matched. -/
def goesDown (path : Path) (dir : Dir) : Bool :=
  recursive && (hasdirs path ||
    dir.entries.any fun ent => cmnPatternMatches ent.fname pattern && ent.isDir)

/-- The calls for the entries of a directory. -/
def entryCalls (path : Path) (entries : List Dirent) : List Call :=
  (entries.filter fun ent => cmnPatternMatches ent.fname pattern).map
    fun ent => { path, ent := some ent, info := .INSIDE_READDIR }

/-- The calls for a directory, given those for the directories in it. -/
def dirCalls (path : Path) (dir : Dir) (below : List Call) : List Call :=
  [{ path, ent := none, info := .BEFORE_READDIR }] ++ entryCalls pattern path dir.entries ++
    [{ path, ent := none, info := .AFTER_CLOSEDIR }] ++
    (if goesDown pattern recursive hasdirs path dir then below else []) ++
    [{ path, ent := none, info := .DIRECTORY_DONE }]

/-- The calls for the directories below. -/
def belowCalls (path : Path) : Dir → List Call
  | .empty               => []
  | .file _ rest         => belowCalls path rest
  | .sub name inner rest =>
    dirCalls pattern recursive hasdirs (Dir.inside path name) inner
      (belowCalls (Dir.inside path name) inner) ++ belowCalls path rest

/-- The calls of a walk. -/
def walkCalls (path : Path) (dir : Dir) : List Call :=
  dirCalls pattern recursive hasdirs path dir (belowCalls pattern recursive hasdirs path dir)

/-- Every directory with something wanted below is entered. -/
def EntersBelow (wants : Path × Dirent → Bool) (path : Path) : Dir → Prop
  | .empty               => True
  | .file _ rest         => EntersBelow wants path rest
  | .sub name inner rest =>
    (if goesDown pattern recursive hasdirs (Dir.inside path name) inner
      then EntersBelow wants (Dir.inside path name) inner
      else (inner.deeper (Dir.inside path name)).all fun e => !wants e) ∧
    EntersBelow wants path rest

/-- A walk misses nothing wanted: where it does not go down there is nothing of it below. -/
def Enters (wants : Path × Dirent → Bool) (path : Path) (dir : Dir) : Prop :=
  if goesDown pattern recursive hasdirs path dir
    then EntersBelow pattern recursive hasdirs wants path dir
  else (dir.deeper path).all fun e => !wants e

end

/-- Calls one after the other, until the callback returns 0. -/
def offerAll {S : Type} (cb : Callback S) : List Call → Cmd S Bool
  | []         => return true
  | c :: calls => do
      let go ← cb c.path c.ent c.info
      if !go then return false
      else offerAll cb calls

/-! ### Runs -/

/-- What a callback has seen, each call with whether it returned 1, and its own data. -/
structure Log (σ : Type) where
  data : σ
  calls : List (Call × Bool)

/-- A callback on data of its own. -/
abbrev Answer (σ : Type) := Call → σ → Bool × σ

/-- The state after a call. -/
def Log.call {σ : Type} (answer : Answer σ) (c : Call) (s : Log σ) : Log σ :=
  { data := (answer c s.data).2, calls := s.calls ++ [(c, (answer c s.data).1)] }

/-- The callback that keeps the log. -/
def logged {σ : Type} (answer : Answer σ) : Callback (Log σ) := fun path ent info =>
  look fun s => ((answer ⟨path, ent, info⟩ s.data).1, s.call answer ⟨path, ent, info⟩)

/-- A file system for the walker: the directories, whether a path can be opened as a file, and
what is in `hasdirs`. There is memory. -/
def walkEnv {S : Type} (dirAt : Path → Option (List Dirent)) (isFile : Path → Bool)
    (hasdirs : Path → Bool) : Env S (List Dirent) where
  openRead _ s := (none, s)
  openWrite _ s := (none, s)
  fopen path s := (isFile path, s)
  read _ _ s := ((-1, []), s)
  write _ _ s := (-1, s)
  close _ s := s
  opendir path s := (dirAt path, s)
  readdir d s := ((d.head?, d.tail), s)
  closedir _ s := s
  mkdir _ s := (-1, s)
  unlink _ s := (-1, s)
  rmdir _ s := (-1, s)
  rename _ _ s := (.error, s)
  ask s := (false, s)
  malloc s := (true, s)
  hasdirs path s := (hasdirs path, s)

/-- `cmn_fs_split_path` where there is memory. -/
def splitOf (isFile : Path → Bool) (path : Path) : Option (Path × Path) :=
  if isInvalid path then none
  else if SLASH ∉ path.drop 1 then some (path, allMask)
  else if path.getLast? = some SLASH then some (path.dropLast, allMask)
  else if isPattern path then some (parent path, lastName path)
  else if isFile path then some (parent path, lastName path)
  else some (path, allMask)

/-- The entry that the callback is called for with `INSIDE_READDIR`. -/
def Call.entry (c : Call) : Option (Path × Dirent) :=
  if c.info = .INSIDE_READDIR then c.ent.map (c.path, ·) else none

/-- The entries that the calls are for. -/
def visited (calls : List Call) : List (Path × Dirent) := calls.filterMap Call.entry

/-- The callback returns 1 for every call of the list. -/
def accepts {σ : Type} (answer : Answer σ) : List Call → σ → Bool
  | [],         _ => true
  | c :: calls, x => (answer c x).1 && accepts answer calls (answer c x).2

/-- A path that `cmn_fs_walkdir` may be given, with what is there: a tree if the path is valid. -/
structure Place where
  path : Path
  isFile : Path → Bool
  hasdirs : Path → Bool
  dirAt : Path → Option (List Dirent)
  tree : Dir
  at_dir : ∀ dir pattern, splitOf isFile path = some (dir, pattern) →
    dirAt dir = some tree.entries ∧ tree.HasBelow dirAt dir

namespace Place

/-- `cmn_fs_walkdir` on the path, from no calls. -/
def walk {σ : Type} (p : Place) (recursive : Bool) (answer : Answer σ) (n : Nat) (x : σ) :
    Option Bool × Host (Log σ) :=
  (cmnFsWalkdir (walkEnv p.dirAt p.isFile p.hasdirs) n p.path (logged answer) recursive).run
    { sys := { data := x, calls := [] } }

/-- The entries to visit: those that match, at every depth or at the top. -/
def wanted (p : Place) (recursive : Bool) : List (Path × Dirent) :=
  match splitOf p.isFile p.path with
  | none                => []
  | some (dir, pattern) =>
    (p.tree.here dir ++ if recursive then p.tree.deeper dir else []).filter
      (matchesPattern pattern)

/-- The calls if the callback returns 1 for each of them. -/
def calls (p : Place) (recursive : Bool) : List Call :=
  match splitOf p.isFile p.path with
  | none                => []
  | some (dir, pattern) => walkCalls pattern recursive p.hasdirs dir p.tree

/-- A recursive walk enters every directory with a matching entry below. -/
def EntersAll (p : Place) : Prop :=
  match splitOf p.isFile p.path with
  | none                => True
  | some (dir, pattern) => Enters pattern true p.hasdirs (matchesPattern pattern) dir p.tree

/-- The file system `E` with the directories and files of the place, and with memory. What `E`
says to the other operations, those that change something among them, may be anything. -/
def env {S : Type} (p : Place) (E : Env S (List Dirent)) : Env S (List Dirent) :=
  { E with
    fopen := (walkEnv p.dirAt p.isFile p.hasdirs).fopen
    opendir := (walkEnv p.dirAt p.isFile p.hasdirs).opendir
    readdir := (walkEnv p.dirAt p.isFile p.hasdirs).readdir
    closedir := (walkEnv p.dirAt p.isFile p.hasdirs).closedir
    malloc := (walkEnv p.dirAt p.isFile p.hasdirs).malloc
    hasdirs := (walkEnv p.dirAt p.isFile p.hasdirs).hasdirs }

/-- What `cmn_fs_get_type` finds at a path. -/
def typeOf (p : Place) (path : Path) : FsType :=
  if isInvalid path then .ERROR
  else if SLASH ∉ path.drop 1 then .DIR
  else if path.getLast? = some SLASH then if (p.dirAt path).isSome then .DIR else .DIR_NOT_FOUND
  else if isPattern path then .PATTERN
  else if p.isFile path then .FILE
  else if (p.dirAt path).isSome then .DIR else .UNKNOWN_NOT_FOUND

/-- A `mv` of the path finds a file to move: the path is one and the destination can take it, or
the destination is or becomes a directory and a walk visits something that is no directory. -/
def Moves (p : Place) (recursive : Bool) (dst : Path) : Prop :=
  p.typeOf p.path = .FILE ∧
      (p.typeOf dst = .FILE ∨ p.typeOf dst = .DIR ∨ p.typeOf dst = .UNKNOWN_NOT_FOUND) ∨
    (p.typeOf p.path = .DIR ∨ p.typeOf p.path = .PATTERN) ∧
      (p.typeOf dst = .DIR ∨ p.typeOf dst = .UNKNOWN_NOT_FOUND) ∧
      ∃ e ∈ visited (p.calls recursive), e.2.isDir = false

/-- A `rm` of the path comes to a file by a walk. -/
def Removes (p : Place) (recursive : Bool) : Prop :=
  (p.typeOf p.path = .DIR ∧ recursive = true ∨ p.typeOf p.path = .PATTERN) ∧
    ∃ e ∈ visited (p.calls recursive), p.typeOf (joined [e.1, e.2.fname]) = .FILE

end Place

end Alcor.Shell

/-!
## A file system that is written to

Directories are lists of entries, files are bytes, both by their paths.
An operation fails that would put a file where there is a directory, or
the other way round. `fails` says which of the others fail, whatever the
reason: those on a path with no parent may be among them. There is
memory. What `opendir` returns are the entries at that time.
-/

namespace Alcor.Shell

/-- The directories, the files, the open files with their positions, and how many operations
there have been. Numbers of open files are not used again. -/
structure Disk where
  dir : Path → Option (List Dirent)
  file : Path → Option (List UInt8)
  fds : List (Path × Nat) := []
  steps : Nat := 0

namespace Disk

/-- An operation more. -/
def tick (s : Disk) : Disk := { s with steps := s.steps + 1 }

def setFile (s : Disk) (path : Path) (c : Option (List UInt8)) : Disk :=
  { s with file := Function.update s.file path c }

/-- The entries of the directory that a path is in. -/
def modifyParent (s : Disk) (path : Path) (f : List Dirent → List Dirent) : Disk :=
  { s with dir := Function.update s.dir (parent path) ((s.dir (parent path)).map f) }

/-- An entry for a path. -/
def list (s : Disk) (path : Path) (isDir : Bool) : Disk :=
  s.modifyParent path (· ++ [{ fname := lastName path, isDir }])

/-- An empty file at the path, also if there was one. -/
def create (s : Disk) (path : Path) : Disk :=
  if (s.file path).isSome then s.setFile path (some [])
  else (s.list path false).setFile path (some [])

/-- No file at the path. -/
def remove (s : Disk) (path : Path) : Disk :=
  (s.modifyParent path fun l => l.filter fun e => e.isDir || e.fname ≠ lastName path).setFile
    path none

/-- An empty directory at the path. -/
def make (s : Disk) (path : Path) : Disk :=
  { s.list path true with dir := Function.update (s.list path true).dir path (some []) }

/-- One more file is open. -/
def push (s : Disk) (path : Path) : Disk := { s with fds := s.fds ++ [(path, 0)] }

/-- The position of an open file moves. -/
def seek (s : Disk) (fd : Nat) (path : Path) (pos : Nat) : Disk :=
  { s with fds := s.fds.set fd (path, pos) }

/-- The bytes of a file. -/
def bytes (s : Disk) (path : Path) : List UInt8 := (s.file path).getD []

end Disk

/-- The device of a path: its first name. -/
def device (path : Path) : Path := (path.drop 1).takeWhile (· ≠ SLASH)

/-- A path without a slash at its end. -/
def plain (path : Path) : Path := if path.getLast? = some SLASH then path.dropLast else path

/-- The operations on such a file system. `rmdir` is not used by `cp` and `mv`. -/
def diskEnv (fails : Nat → Bool) (hasdirs : Path → Bool) : Env Disk (List Dirent) where
  openRead path s :=
    if fails s.steps || (s.file path).isNone then (none, s.tick)
    else (some s.fds.length, s.tick.push path)
  openWrite path s :=
    if fails s.steps || (s.dir path).isSome then (none, s.tick)
    else (some s.fds.length, (s.tick.create path).push path)
  fopen path s := ((s.file path).isSome, s)
  read fd len s :=
    match s.fds[fd]? with
    | none             => ((-1, []), s.tick)
    | some (path, pos) =>
      if fails s.steps then ((-1, []), s.tick)
      else
        let data := ((s.bytes path).drop pos).take len
        ((data.length, data), s.tick.seek fd path (pos + data.length))
  write fd data s :=
    match s.fds[fd]? with
    | none             => (-1, s.tick)
    | some (path, pos) =>
      if fails s.steps then (-1, s.tick)
      else
        let c := (s.bytes path).take pos ++ data ++ (s.bytes path).drop (pos + data.length)
        (data.length, (s.tick.setFile path (some c)).seek fd path (pos + data.length))
  close _ s := s
  opendir path s := (if fails s.steps then none else s.dir (plain path), s.tick)
  readdir d s := ((d.head?, d.tail), s)
  closedir _ s := s
  mkdir path s :=
    if fails s.steps || (s.dir path).isSome || (s.file path).isSome then (-1, s.tick)
    else (0, s.tick.make path)
  unlink path s :=
    if fails s.steps || (s.file path).isNone then (-1, s.tick) else (0, s.tick.remove path)
  rmdir _ s := (-1, s.tick)
  rename src dst s :=
    if fails s.steps then (.error, s.tick)
    else if device src ≠ device dst then (.exdev, s.tick)
    else
      match s.file src with
      | none   => (.error, s.tick)
      | some c =>
        if (s.dir dst).isSome then (.error, s.tick)
        -- a file that is renamed to itself stays as it is
        else if src = dst then (.ok, s.tick)
        else (.ok, ((s.tick.remove src).create dst).setFile dst (some c))
  ask s := (!fails s.steps, s.tick)
  malloc s := (true, s)
  hasdirs path s := (hasdirs path, s)

end Alcor.Shell
