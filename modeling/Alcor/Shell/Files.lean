import Mathlib.Algebra.Ring.Int.Defs
import Mathlib.Control.Monad.Basic
import Alcor.Lib.Memory
import Alcor.Lib.Str

/-!
# `Alcor.Shell.Files`: the file functions of the shell

`src/common_fs.c` over any file system, and its paths over memory.

* `cmnPatternMatches`: file masks, with `MatchesShortest` for what they
  mean.
* `cmnFsSplitPath`, `cmnFsGetType`: what a path is.
* `cmnFsActualWalkdir`, `cmnFsWalkdir`: the walker, as the commands see
  it.
* `cmnFsPathJoinAt`: the joined path in a block of memory.
-/

set_option autoImplicit false

/-!
## The file functions of the shell

`src/common_fs.c`, over any file system: an `Env` gives the answer of
each operation and the state after it. A command is a program in `Cmd`,
which keeps a trace of the operations that change files or directories.
It may take more steps than it was given, then its result is `none`, and
the state is the one at that point.
-/

namespace Alcor.Shell

/-- A path or a name: the bytes of a C string. -/
abbrev Path := List UInt8

/-- `/`. -/
def SLASH : UInt8 := 47
/-- `*`. -/
def STAR : UInt8 := 42
/-- `?`. -/
def QUESTION : UInt8 := 63

/-- `struct dm_dirent`, as far as the shell looks at it. -/
structure Dirent where
  fname : Path
  /-- `DM_DIRENT_IS_DIR`. -/
  isDir : Bool
  deriving DecidableEq

/-- What changes files or directories. -/
inductive Mutation where
  /-- `open` for writing, which creates or truncates. -/
  | openWrite (path : Path)
  | write (fd : Nat) (data : List UInt8)
  | mkdir (path : Path)
  | unlink (path : Path)
  | rmdir (path : Path)
  | rename (src dst : Path)
  deriving DecidableEq

/-- The outcome of `rename`. -/
inductive RenameResult where
  | ok
  /-- −1 with `EXDEV`. -/
  | exdev
  /-- −1 with another error. -/
  | error
  deriving DecidableEq

/-- What the operations answer in each state, and the state after them. `S` is the state of the
file systems, the memory and the user, `D` that of an open directory. -/
structure Env (S D : Type) where
  /-- `open( name, O_RDONLY, 0 )`. -/
  openRead : Path → S → Option Nat × S
  /-- `open( name, O_WRONLY | O_CREAT | O_TRUNC, 0 )`. -/
  openWrite : Path → S → Option Nat × S
  /-- `fopen( name, "r" )`, closed again by `fclose` if it was opened. -/
  fopen : Path → S → Bool × S
  /-- The result, and what is stored. -/
  read : Nat → Nat → S → (Int × List UInt8) × S
  write : Nat → List UInt8 → S → Int × S
  close : Nat → S → S
  opendir : Path → S → Option D × S
  readdir : D → S → (Option Dirent × D) × S
  closedir : D → S → S
  mkdir : Path → S → Int × S
  unlink : Path → S → Int × S
  rmdir : Path → S → Int × S
  rename : Path → Path → S → RenameResult × S
  /-- `shellh_ask_yes_no`. -/
  ask : S → Bool × S
  /-- Whether there is memory. -/
  malloc : S → Bool × S
  /-- What is in the variable `hasdirs` of a call of `cmn_fs_actual_walkdir` for a path, which
  sets it to 1 for some entries and never to 0. -/
  hasdirs : Path → S → Bool × S

/-- The state of the system, and what has been changed. -/
structure Host (S : Type) where
  sys : S
  trace : List Mutation := []

/-- A program of the shell. -/
abbrev Cmd (S : Type) := OptionT (StateM (Host S))

section
variable {S D α : Type}

/-- An operation that changes nothing. -/
def look (f : S → α × S) : Cmd S α :=
  OptionT.mk fun s => (some (f s.sys).1, { s with sys := (f s.sys).2 })

/-- An operation that changes something. -/
def change (m : Mutation) (f : S → α × S) : Cmd S α :=
  OptionT.mk fun s => (some (f s.sys).1, { sys := (f s.sys).2, trace := s.trace ++ [m] })

/-- The program needs more steps than it was given. -/
def unfinished : Cmd S α := OptionT.mk fun s => (none, s)

end

/-! ### Patterns and paths -/

/-- `cmn_pattern_matches`; each pass of the outer loop takes something from the pattern. -/
def patternMatchesLoop : Nat → Path → Path → Bool
  | _,     str, []      => str.isEmpty
  | 0,     _,   _ :: _  => false
  | n + 1, str, p :: ps =>
    if p = STAR then
      match ps.dropWhile (· = QUESTION) with
      | []      => true
      | c :: ps =>
        match str.dropWhile (· ≠ c) with
        | []       => false
        | _ :: str => patternMatchesLoop n str ps
    else
      match str with
      | []     => false
      | c :: str => if p = QUESTION ∨ p = c then patternMatchesLoop n str ps else false

/-- `cmn_pattern_matches`. -/
def cmnPatternMatches (str pattern : Path) : Bool :=
  patternMatchesLoop pattern.length str pattern

/-- The mask `*`. -/
def allMask : Path := [STAR]

/-- The path has a wildcard. -/
def isPattern (path : Path) : Bool := path.any fun c => c = STAR || c = QUESTION

/-- The name after the last slash. -/
def lastName (path : Path) : Path := (path.reverse.takeWhile (· ≠ SLASH)).reverse

/-- The part before the last slash. -/
def parent (path : Path) : Path := path.take (path.length - (lastName path).length - 1)

/-- The length that `cmn_fs_path_join` allocates for. -/
def joinTotal (parts : List Path) : Int :=
  (parts.map fun p =>
    if p = [] then 0
    else (p.length : Int) + (if p.getLast? = some SLASH then 0 else 1) -
      (if p.head? = some SLASH then 1 else 0)).sum

/-- The path that `cmn_fs_path_join` builds. -/
def joined (parts : List Path) : Path :=
  (parts.foldl (fun res p =>
    if p = [] then res
    else
      let res := res ++ (if p.head? = some SLASH then p.drop 1 else p)
      if res.getLast? = some SLASH then res else res ++ [SLASH]) [SLASH]).dropLast

/-- `CMN_FS_TYPE_DIR` and the others; `CMN_FS_TYPE_FILE_NOT_FOUND` is never a result. -/
inductive FsType where
  | DIR
  | FILE
  | PATTERN
  | ERROR
  | FILE_NOT_FOUND
  | DIR_NOT_FOUND
  | UNKNOWN_NOT_FOUND
  deriving DecidableEq

/-- `CMN_FS_INFO_BEFORE_READDIR` and the others. -/
inductive FsInfo where
  | BEFORE_READDIR
  | INSIDE_READDIR
  | AFTER_CLOSEDIR
  | MEMORY_ERROR
  | OPENDIR_FAILED
  | DIRECTORY_DONE
  deriving DecidableEq

/-- A callback of the walker: whether it returns 1. -/
abbrev Callback (S : Type) := Path → Option Dirent → FsInfo → Cmd S Bool

section Files
variable {S D : Type} (env : Env S D)

/-- The memory for a string. -/
def strdup (path : Path) : Cmd S (Option Path) := do
  let ok ← look env.malloc
  return if ok then some path else none

/-- The path is not one that the shell takes. -/
def isInvalid (path : Path) : Bool := decide (path.length < 2) || path.head? ≠ some SLASH

/-- `cmn_fs_split_path`: the directory and the mask. -/
def cmnFsSplitPath (path : Path) : Cmd S (Option (Path × Path)) := do
  if isInvalid path then return none
  else if SLASH ∉ path.drop 1 then
    let d ← strdup env path
    return d.map (·, allMask)
  else if path.getLast? = some SLASH then
    let d ← strdup env path.dropLast
    return d.map (·, allMask)
  else if isPattern path then
    let d ← strdup env (parent path)
    return d.map (·, lastName path)
  else
    let file ← look (env.fopen path)
    if file then
      let d ← strdup env (parent path)
      return d.map (·, lastName path)
    else
      let d ← strdup env path
      return d.map (·, allMask)

/-- A directory can be opened; it is closed again. -/
def canOpendir (path : Path) : Cmd S Bool := do
  let d ← look (env.opendir path)
  match d with
  | none   => return false
  | some d =>
    look fun s => ((), env.closedir d s)
    return true

/-- `cmn_fs_get_type`. -/
def cmnFsGetType (path : Path) : Cmd S FsType := do
  if isInvalid path then return .ERROR
  else if SLASH ∉ path.drop 1 then return .DIR
  else if path.getLast? = some SLASH then
    let dir ← canOpendir env path
    return if dir then .DIR else .DIR_NOT_FOUND
  else if isPattern path then return .PATTERN
  else
    let file ← look (env.fopen path)
    if file then return .FILE
    else
      let dir ← canOpendir env path
      return if dir then .DIR else .UNKNOWN_NOT_FOUND

/-- `cmn_fs_path_join`. -/
def cmnFsPathJoin (parts : List Path) : Cmd S (Option Path) := do
  if joinTotal parts = 0 then return none
  else strdup env (joined parts)

/-- `cmn_fs_is_root_dir`. -/
def cmnFsIsRootDir (path : Path) : Bool :=
  match path with
  | []        => false
  | c :: rest => decide (c = SLASH) && (rest.dropWhile (· ≠ SLASH)).length ≤ 1

/-! ### The walker -/

/-- The first loop of `cmn_fs_actual_walkdir`: the directory, and `hasdirs` unless a callback
returned 0. -/
def walkEntries (cb : Callback S) (pattern path : Path) : Nat → D → Bool → Cmd S (D × Option Bool)
  | 0,     _, _       => unfinished
  | n + 1, d, hasdirs => do
      let (ent, d) ← look (env.readdir d)
      match ent with
      | none     => return (d, some hasdirs)
      | some ent =>
        if !cmnPatternMatches ent.fname pattern then walkEntries cb pattern path n d hasdirs
        else
          let go ← cb path (some ent) .INSIDE_READDIR
          if !go then return (d, none)
          else walkEntries cb pattern path n d (hasdirs || ent.isDir)

/-- The body of the second loop, for a directory: it is walked if there is memory for its path. -/
def walkNamed (cb : Callback S) (walk : Path → Cmd S Bool) (path fname : Path) : Cmd S Bool := do
  let fullname ← cmnFsPathJoin env [path, fname]
  match fullname with
  | some fullname => walk fullname
  | none          => cb path none .MEMORY_ERROR

/-- The second loop: the directories are walked. It says whether every call returned 1. -/
def walkDirs (cb : Callback S) (walk : Path → Cmd S Bool) (path : Path) :
    Nat → D → Cmd S (D × Bool)
  | 0,     _ => unfinished
  | n + 1, d => do
      let (ent, d) ← look (env.readdir d)
      match ent with
      | none     => return (d, true)
      | some ent =>
        if !ent.isDir then walkDirs cb walk path n d
        else
          let go ← walkNamed env cb walk path ent.fname
          if !go then return (d, false)
          else walkDirs cb walk path n d

/-- The part of `cmn_fs_actual_walkdir` that reads the directory again. -/
def walkAgain (cb : Callback S) (walk : Path → Cmd S Bool) (n : Nat) (path : Path) :
    Cmd S Bool := do
  let d ← look (env.opendir path)
  match d with
  | none   => cb path none .OPENDIR_FAILED
  | some d =>
    let (d, go) ← walkDirs env cb walk path n d
    look fun s => ((), env.closedir d s)
    return go

/-- The part of `cmn_fs_actual_walkdir` after the first loop: if it has found directories, they
are walked. -/
def walkDown (cb : Callback S) (walk : Path → Cmd S Bool) (n : Nat) (path : Path) (down : Bool) :
    Cmd S Bool := do
  let go ← cb path none .AFTER_CLOSEDIR
  if !go then return false
  else if down then
    let go ← walkAgain env cb walk n path
    if !go then return false
    else cb path none .DIRECTORY_DONE
  else cb path none .DIRECTORY_DONE

/-- `cmn_fs_actual_walkdir`: whether it returns 1. -/
def cmnFsActualWalkdir (cb : Callback S) (pattern : Path) (recursive : Bool) :
    Nat → Path → Cmd S Bool
  | 0,     _    => unfinished
  | n + 1, path => do
      let hasdirs ← look (env.hasdirs path)
      let d ← look (env.opendir path)
      match d with
      | none   => cb path none .OPENDIR_FAILED
      | some d =>
        let go ← cb path none .BEFORE_READDIR
        if !go then
          look fun s => ((), env.closedir d s)
          return false
        else
          let (d, hasdirs) ← walkEntries env cb pattern path n d hasdirs
          look fun s => ((), env.closedir d s)
          match hasdirs with
          | none         => return false
          | some hasdirs =>
            walkDown env cb (cmnFsActualWalkdir cb pattern recursive n) n path
              (recursive && hasdirs)

/-- `cmn_fs_walkdir`: whether it returns 1. -/
def cmnFsWalkdir (n : Nat) (path : Path) (cb : Callback S) (recursive : Bool) : Cmd S Bool := do
  let split ← cmnFsSplitPath env path
  match split with
  | none                => return false
  | some (dir, pattern) =>
    let _ ← cmnFsActualWalkdir env cb pattern recursive n dir
    return true

end Files

/-! ### What file masks mean

Abstract: the strings that match a mask when an asterisk may take any
sequence of characters (`Matches`), and the strings that match one of
the shell, where it takes the shortest one (`MatchesShortest`).
-/

section Masks
/-- The string can be cut into pieces that match the characters of the mask in order; `*` matches
any sequence. -/
inductive Matches : Path → Path → Prop where
  | nil : Matches [] []
  | star {ps s : Path} (u : Path) : Matches ps s → Matches (STAR :: ps) (u ++ s)
  | question {ps s : Path} (c : UInt8) : Matches ps s → Matches (QUESTION :: ps) (c :: s)
  | char {ps s : Path} {c : UInt8} : c ≠ STAR → c ≠ QUESTION → Matches ps s →
      Matches (c :: ps) (c :: s)

/-- The masks of the shell: `*`, with the question marks behind it, matches the sequence up to
the first place of the character behind them, or anything when there is none. -/
inductive MatchesShortest : Path → Path → Prop where
  | nil : MatchesShortest [] []
  | last {qs : Path} (s : Path) : (∀ q ∈ qs, q = QUESTION) → MatchesShortest (STAR :: qs) s
  | star {qs ps u s : Path} {c : UInt8} : (∀ q ∈ qs, q = QUESTION) → c ≠ QUESTION → c ≠ STAR →
      c ∉ u → MatchesShortest ps s → MatchesShortest (STAR :: (qs ++ c :: ps)) (u ++ c :: s)
  | question {ps s : Path} (c : UInt8) : MatchesShortest ps s →
      MatchesShortest (QUESTION :: ps) (c :: s)
  | char {ps s : Path} {c : UInt8} : c ≠ STAR → c ≠ QUESTION → MatchesShortest ps s →
      MatchesShortest (c :: ps) (c :: s)

/-- No asterisk follows another with only question marks between them. -/
def starsApart : Path → Bool
  | []      => true
  | p :: ps => (p ≠ STAR || (ps.dropWhile (· = QUESTION)).head? ≠ some STAR) && starsApart ps

end Masks

end Alcor.Shell

/-!
## Joining paths in memory

`cmn_fs_path_join` of `src/common_fs.c`, with the block that it
allocates. The length is a 32-bit number, and a byte that falls outside
of the block is seen. `joined` is the path itself.
-/

namespace Alcor.Shell

open Lib (Mem Buf CStr u32 sub32)

/-- `lastchar`. -/
def lastchar (s : List UInt8) : UInt8 := s.getLast?.getD 0

/-- `firstchar`. -/
def firstchar (s : List UInt8) : UInt8 := s.head?.getD 0

/-- The first loop of `cmn_fs_path_join`: the length. -/
def pathJoinTotal : List CStr → Nat → Nat
  | [],         total => total
  | tmp :: tmps, total =>
    if 0 < tmp.bytes.length then
      let total := u32 (total +
        u32 (tmp.bytes.length + (if lastchar tmp.bytes = SLASH then 0 else 1)))
      pathJoinTotal tmps (if firstchar tmp.bytes = SLASH then sub32 total 1 else total)
    else pathJoinTotal tmps total

/-- `lastchar` of the string in the block. -/
def lastcharOf (res : Buf) : Option UInt8 :=
  (res.strlen? 0).bind fun len => if len = 0 then some 0 else res.get? (len - 1)

/-- The second loop: the elements are appended. `none` is an access outside of the block. -/
def pathJoinLoop : List CStr → Buf → Option Buf
  | [],          res => some res
  | tmp :: tmps, res =>
    if 0 < tmp.bytes.length then do
      let res ← res.strcat? 0
        (if firstchar tmp.bytes = SLASH then tmp.bytes.drop 1 else tmp.bytes)
      let last ← lastcharOf res
      let res ← if last = SLASH then some res else res.strcat? 0 [SLASH]
      pathJoinLoop tmps res
    else pathJoinLoop tmps res

/-- What `cmn_fs_path_join` does. -/
inductive PathJoin where
  /-- It returns `NULL`. -/
  | null
  /-- It returns a block. -/
  | path (res : Buf)
  /-- It accesses memory outside of the block. -/
  | outside

/-- `cmn_fs_path_join`; `malloc` gives what is in a block of so many bytes, or `NULL`. -/
def cmnFsPathJoinAt (malloc : Nat → Option Mem) (parts : List CStr) : PathJoin :=
  let total := pathJoinTotal parts 0
  if total = 0 then .null
  else
    match malloc (u32 (total + 2)) with
    | none     => .null
    | some mem =>
      let joined : Option Buf := do
        let res ← Buf.strcpy? ⟨mem, u32 (total + 2)⟩ 0 [SLASH]
        let res ← pathJoinLoop parts res
        let len ← res.strlen? 0
        if len = 0 then none else res.put? (len - 1) [0]
      match joined with
      | none     => .outside
      | some res => .path res

/-- The function stays inside of its block and returns the joined path. -/
def Joins (mem : Nat → Mem) (parts : List CStr) : Prop :=
  ∃ res, cmnFsPathJoinAt (fun size => some (mem size)) parts = .path res ∧
    res.Str 0 (joined (parts.map CStr.bytes))

end Alcor.Shell
