import Alcor.Lib.Run

/-!
# `Alcor.Newlib.Volumes`: the drivers of two file systems

`src/semifs.c`, whose files are on the host that debugs the board, and
`src/mmcfs.c`, whose files are on a memory card. Each has a table of the
files that are open and a count of them, and turns the flags of `open`
into those of the system below it.

What the host answers is an argument. The card is one file with the name
that is opened; FatFs opens it, truncates it and writes to it as its
`FA_xxx` modes are documented.
-/

set_option autoImplicit false

namespace Alcor.Newlib

/-- The errors of the two drivers. -/
inductive VolumeErrno where
  | ENFILE | EIO | ENOENT | EINVAL | ENOMEM
  deriving DecidableEq, Repr

open VolumeErrno

/-! ### The flags of `open`, as Newlib numbers them -/

def O_RDONLY  : BitVec 32 := 0x000
def O_WRONLY  : BitVec 32 := 0x001
def O_RDWR    : BitVec 32 := 0x002
def O_ACCMODE : BitVec 32 := 0x003
def O_APPEND  : BitVec 32 := 0x008
def O_CREAT   : BitVec 32 := 0x200
def O_TRUNC   : BitVec 32 := 0x400
def O_EXCL    : BitVec 32 := 0x800

namespace Semifs

/-- `SEMIFS_MAX_FDS`. -/
def SEMIFS_MAX_FDS : Nat := 4

/-- An entry of `semifs_fd_table`. -/
structure Poslog where
  handle : Int
  pos : Int
  deriving DecidableEq, Repr

/-- The driver, after `semifs_init`. -/
structure Volume where
  semifsFdTable : Nat → Poslog := fun _ => ⟨-1, 0⟩
  semifsNumFd : Int := 0

/-- What the host is asked for. -/
inductive Semihost where
  | sysOpen (aflags : BitVec 32)
  | sysClose (fh : Int)
  | sysWrite (fh : Int) (len : Nat)
  | sysRead (fh : Int) (len : Nat)
  deriving DecidableEq

/-- `semifs_find_empty_fd`. -/
def semifsFindEmptyFd (v : Volume) : Option Nat :=
  (List.range SEMIFS_MAX_FDS).find? fun i => (v.semifsFdTable i).handle == -1

/-- The flags for `SYS_OPEN`. -/
def aflags (flags : BitVec 32) : BitVec 32 :=
  let aflags : BitVec 32 := 0
  let aflags := if flags &&& O_RDWR ≠ 0 then aflags ||| 2 else aflags
  let aflags := if flags &&& O_CREAT ≠ 0 then aflags ||| 4 else aflags
  let aflags := if flags &&& O_TRUNC ≠ 0 then aflags ||| 4 else aflags
  -- not both of w and a
  if flags &&& O_APPEND ≠ 0 then (aflags &&& ~~~4) ||| 8 else aflags

/-- A call of the driver: what it returns, what it asked the host for, and the driver after it. -/
structure Outcome where
  result : Except VolumeErrno Int
  asked : List Semihost
  volume : Volume

/-- `semifs_open_r`, where `SYS_OPEN` gives `fh`. `none` is a store outside of the table. -/
def semifsOpenR (flags : BitVec 32) (fh : Int) (v : Volume) : Option Outcome :=
  if v.semifsNumFd = SEMIFS_MAX_FDS then some ⟨.error .ENFILE, [], v⟩
  else
    let fd := semifsFindEmptyFd v
    let v := { v with semifsNumFd := v.semifsNumFd + 1 }
    let asked := [.sysOpen (aflags flags)]
    if fh ≥ 0 then
      fd.map fun (fd : Nat) =>
        ⟨.ok fd, asked,
          { v with semifsFdTable := Function.update v.semifsFdTable fd ⟨fh, 0⟩ }⟩
    else some ⟨.ok (fd.elim (-1) Int.ofNat), asked, v⟩

/-- `semifs_close_r`, where `SYS_CLOSE` gives `res`. -/
def semifsCloseR (fd : Nat) (res : Int) (v : Volume) : Outcome :=
  let fh := (v.semifsFdTable fd).handle
  let table :=
    if fd ≠ SEMIFS_MAX_FDS then
      Function.update v.semifsFdTable fd { v.semifsFdTable fd with handle := -1 }
    else v.semifsFdTable
  ⟨.ok res, [.sysClose fh], ⟨table, v.semifsNumFd - 1⟩⟩

/-- The position of a file, behind the bytes that were read or written. -/
def advance (fd : Nat) (n : Int) (v : Volume) : Volume :=
  if fd ≠ SEMIFS_MAX_FDS then
    let log := v.semifsFdTable fd
    { v with semifsFdTable := Function.update v.semifsFdTable fd { log with pos := log.pos + n } }
  else v

/-- `semifs_write_r`, where `SYS_WRITE` gives `x`. -/
def semifsWriteR (fd len : Nat) (x : Int) (v : Volume) : Outcome :=
  let fh := (v.semifsFdTable fd).handle
  if x = -1 ∨ x = len then ⟨.error EIO, [.sysWrite fh len], v⟩
  else ⟨.ok (len - x), [.sysWrite fh len], advance fd (len - x) v⟩

/-- `semifs_read_r`, where `SYS_READ` gives `x`. -/
def semifsReadR (fd len : Nat) (x : Int) (v : Volume) : Outcome :=
  let fh := (v.semifsFdTable fd).handle
  if x < 0 then ⟨.error EIO, [.sysRead fh len], v⟩
  else ⟨.ok (len - x), [.sysRead fh len], advance fd (len - x) v⟩

/-! ### Programs that open and close files -/

/-- The driver, and the descriptors that are open with the handle that the host gave for each. -/
structure Session where
  volume : Volume := {}
  opened : List (Nat × Int) := []

inductive Event where
  | openR (flags : BitVec 32) (fh : Int)
  | closeR (fd : Nat) (res : Int)
  | writeR (fd len : Nat) (x : Int)
  | readR (fd len : Nat) (x : Int)

/-- The descriptors that are open. -/
def Session.fds (s : Session) : List Nat := s.opened.map Prod.fst

/-- A file is open when the host has opened it. -/
def Session.obtain (s : Session) (fh : Int) (out : Outcome) : Session :=
  match out.result, out.asked with
  | .ok (.ofNat fd), _ :: _ =>
    { volume := out.volume, opened := if fh ≥ 0 then s.opened ++ [(fd, fh)] else s.opened }
  | _, _                    => { s with volume := out.volume }

/-- One call. Only descriptors that are open are closed, read and written. -/
def step (s : Session) : Event → Option Session
  | .openR flags fh  => (semifsOpenR flags fh s.volume).map (s.obtain fh)
  | .closeR fd res   =>
    if fd ∈ s.fds then
      some ⟨(semifsCloseR fd res s.volume).volume, s.opened.filter fun o => o.1 ≠ fd⟩
    else none
  | .writeR fd len x =>
    if fd ∈ s.fds then some { s with volume := (semifsWriteR fd len x s.volume).volume }
    else none
  | .readR fd len x  =>
    if fd ∈ s.fds then some { s with volume := (semifsReadR fd len x s.volume).volume }
    else none

/-- The calls on a descriptor ask for this handle. -/
structure Uses (v : Volume) (fd : Nat) (fh : Int) : Prop where
  close : ∀ res, (semifsCloseR fd res v).asked = [.sysClose fh]
  write : ∀ len x, (semifsWriteR fd len x v).asked = [.sysWrite fh len]
  read : ∀ len x, (semifsReadR fd len x v).asked = [.sysRead fh len]

/-- What is right about the descriptors that are open. -/
structure Session.Sound (s : Session) : Prop where
  /-- No two share a slot. -/
  nodup : s.fds.Nodup
  inTable : ∀ fd ∈ s.fds, fd < SEMIFS_MAX_FDS
  /-- Each uses the handle that its own open has obtained. -/
  uses : ∀ o ∈ s.opened, Uses s.volume o.1 o.2

/-- What is right about a call of `semifs_open_r`. -/
structure OpensRight (s : Session) (flags : BitVec 32) (fh : Int) : Prop where
  /-- An open that fails on the host returns `-1`, and leaves the table and the count. -/
  failed : s.volume.semifsNumFd ≠ SEMIFS_MAX_FDS → fh < 0 →
    semifsOpenR flags fh s.volume = some ⟨.ok (-1), [.sysOpen (aflags flags)], s.volume⟩
  /-- It is refused only when so many files are open. -/
  refused : ∀ out, semifsOpenR flags fh s.volume = some out → out.asked = [] →
    s.opened.length = SEMIFS_MAX_FDS
  /-- It stores nothing outside of the table. -/
  safe : (semifsOpenR flags fh s.volume).isSome

/-- A call is right, and the descriptors are after it. -/
def Right (s : Session) (e : Event) : Prop :=
  (∀ flags fh, e = .openR flags fh → OpensRight s flags fh) ∧ ∀ s', step s e = some s' → s'.Sound

/-- The host opens the file, if it is asked to. -/
def HostOpens (s : Session) : Event → Prop
  | .openR _ fh => s.volume.semifsNumFd = SEMIFS_MAX_FDS ∨ 0 ≤ fh
  | _           => True

end Semifs

namespace Mmcfs

/-! ### FatFs, on one file -/

def FA_READ          : BitVec 32 := 0x01
def FA_WRITE         : BitVec 32 := 0x02
def FA_OPEN_EXISTING : BitVec 32 := 0x00
def FA_CREATE_ALWAYS : BitVec 32 := 0x08
def FA_OPEN_ALWAYS   : BitVec 32 := 0x10

/-- `FIL`: the mode, and the file pointer. The size is that of the file. -/
structure Fil where
  mode : BitVec 32
  fptr : Nat
  deriving DecidableEq, Repr

/-- `f_open` of a file, which is absent or has this contents. `none` is an error. -/
def fOpen (mode : BitVec 32) (file : Option (List UInt8)) : Option Fil × Option (List UInt8) :=
  if mode &&& FA_CREATE_ALWAYS ≠ 0 then (some ⟨mode, 0⟩, some [])
  else if mode &&& FA_OPEN_ALWAYS ≠ 0 then (some ⟨mode, 0⟩, some (file.getD []))
  else
    match file with
    | none          => (none, none)
    | some contents => (some ⟨mode, 0⟩, some contents)

/-- The contents with these bytes at a position inside or at the end. -/
def overwrite (contents : List UInt8) (pos : Nat) (data : List UInt8) : List UInt8 :=
  contents.take pos ++ data ++ contents.drop (pos + data.length)

/-- `f_write`. `none` is an error, which a file that is not open for writing has. -/
def fWrite (fp : Fil) (data contents : List UInt8) : Option (Nat × Fil × List UInt8) :=
  if fp.mode &&& FA_WRITE = 0 then none
  else some (data.length, { fp with fptr := fp.fptr + data.length },
    overwrite contents fp.fptr data)

/-! ### The driver -/

/-- `MMCFS_MAX_FDS`. -/
def MMCFS_MAX_FDS : Nat := 4

/-- The mode for `f_open`, or none on `EINVAL`. -/
def mmcMode (flags : BitVec 32) : Option (BitVec 32) := do
  let mode ←
    if flags &&& (O_CREAT ||| O_TRUNC) = O_CREAT ||| O_TRUNC ∧
        flags &&& (O_RDWR ||| O_WRONLY) ≠ 0 then some FA_CREATE_ALWAYS
    else if flags &&& (O_CREAT ||| O_EXCL) = O_CREAT ||| O_EXCL then some FA_OPEN_EXISTING
    else if flags &&& O_CREAT = O_CREAT then some FA_OPEN_ALWAYS
    else if flags = O_RDONLY ∨ flags = O_WRONLY ∨ flags = O_RDWR then some FA_OPEN_EXISTING
    else none
  if flags &&& O_ACCMODE = O_RDONLY then some (mode ||| FA_READ)
  else if flags &&& O_ACCMODE = O_WRONLY then some (mode ||| FA_WRITE)
  else if flags &&& O_ACCMODE = O_RDWR then some (mode ||| (FA_READ ||| FA_WRITE))
  else none

/-- What an open finds besides the file. -/
structure Room where
  /-- `mmcfs_num_fd`. -/
  mmcfsNumFd : Nat
  /-- `asprintf` gets its memory. -/
  pathBuf : Bool
  deriving DecidableEq

/-- `mmcfs_open_r`: an error or the entry for the table, and the file. -/
def mmcfsOpenR (room : Room) (flags mode : BitVec 32) (file : Option (List UInt8)) :
    Except VolumeErrno Fil × Option (List UInt8) :=
  if room.mmcfsNumFd = MMCFS_MAX_FDS then (.error .ENFILE, file)
  else if !room.pathBuf then (.error .ENOMEM, file)
  else
    match mmcMode flags with
    | none         => (.error .EINVAL, file)
    | some mmcMode =>
      match fOpen mmcMode file with
      | (none, file)    => (.error .ENOENT, file)
      | (some fp, file) =>
        let fsize := (file.getD []).length
        (.ok (if mode &&& O_APPEND ≠ 0 then { fp with fptr := fsize } else fp), file)

/-- `open`, which gives mode 0 to the driver. -/
def «open» (room : Room) (flags _mode : BitVec 32) (file : Option (List UInt8)) :
    Except VolumeErrno Fil × Option (List UInt8) :=
  mmcfsOpenR room flags 0 file

/-- `mmcfs_write_r`. -/
def mmcfsWriteR (fp : Fil) (data contents : List UInt8) :
    Except VolumeErrno Nat × Fil × List UInt8 :=
  match fWrite fp data contents with
  | none                   => (.error EIO, fp, contents)
  | some (n, fp, contents) => (.ok n, fp, contents)

/-- Writes, one after the other: the result of each, and the contents in the end. -/
def writes (fp : Fil) (contents : List UInt8) : List (List UInt8) → List (Option Nat) × List UInt8
  | []            => ([], contents)
  | data :: datas =>
    let (res, fp, contents) := mmcfsWriteR fp data contents
    let (results, contents) := writes fp contents datas
    (res.toOption :: results, contents)

/-! ### What POSIX says -/

inductive AccessMode where
  | rdonly | wronly | rdwr
  deriving DecidableEq, Repr

/-- An access mode with any of the other flags. -/
structure Flags where
  access : AccessMode
  creat : Bool
  excl : Bool
  trunc : Bool
  append : Bool
  deriving DecidableEq, Repr

def AccessMode.bits : AccessMode → BitVec 32
  | .rdonly => O_RDONLY
  | .wronly => O_WRONLY
  | .rdwr   => O_RDWR

/-- The argument of `open`. -/
def Flags.bits (f : Flags) : BitVec 32 :=
  f.access.bits ||| (if f.creat then O_CREAT else 0) ||| (if f.excl then O_EXCL else 0) |||
    (if f.trunc then O_TRUNC else 0) ||| (if f.append then O_APPEND else 0)

/-- Write access. -/
def Flags.Writes (f : Flags) : Prop := f.access ≠ .rdonly

instance (f : Flags) : Decidable f.Writes := inferInstanceAs (Decidable (_ ≠ _))

/-- `O_EXCL` without `O_CREAT`, and `O_TRUNC` without write access where `O_CREAT` and `O_EXCL` do
not say more. -/
def Flags.Unspecified (f : Flags) : Prop :=
  (f.excl ∧ ¬ f.creat) ∨ (f.trunc ∧ ¬ f.Writes ∧ ¬ (f.creat ∧ f.excl))

instance (f : Flags) : Decidable f.Unspecified := inferInstanceAs (Decidable (_ ∨ _))

/-- There is a descriptor and memory for the open. -/
def Room.Free (room : Room) : Prop := room.mmcfsNumFd ≠ MMCFS_MAX_FDS ∧ room.pathBuf

instance (room : Room) : Decidable room.Free := inferInstanceAs (Decidable (_ ∧ _))

/-- What `open` does to the file; `none` if it fails. -/
def posixOpen (f : Flags) (file : Option (List UInt8)) : Option (List UInt8) :=
  match file with
  | none          => if f.creat then some [] else none
  | some contents =>
    if f.creat ∧ f.excl then none else some (if f.trunc ∧ f.Writes then [] else contents)

/-- What writes do behind it, from a position on: with `O_APPEND` each goes to the end. -/
def posixWrites (f : Flags) (pos : Nat) (contents : List UInt8) :
    List (List UInt8) → List (Option Nat) × List UInt8
  | []            => ([], contents)
  | data :: datas =>
    if f.Writes then
      let at' := if f.append then contents.length else pos
      let (results, contents) :=
        posixWrites f (at' + data.length) (overwrite contents at' data) datas
      (some data.length :: results, contents)
    else
      let (results, contents) := posixWrites f pos contents datas
      (none :: results, contents)

/-- The results of an open and the writes behind it, and the file in the end: none for an open that
fails. -/
abbrev Behaviour := Option (List (Option Nat)) × Option (List UInt8)

/-- As POSIX has it. -/
def posixBehaviour (room : Room) (f : Flags) (file : Option (List UInt8))
    (datas : List (List UInt8)) : Behaviour :=
  if room.Free then
    match posixOpen f file with
    | none          => (none, file)
    | some contents =>
      let (results, contents) := posixWrites f 0 contents datas
      (some results, some contents)
  else (none, file)

/-- As the driver has it. -/
def mmcfsBehaviour (room : Room) (f : Flags) (mode : BitVec 32) (file : Option (List UInt8))
    (datas : List (List UInt8)) : Behaviour :=
  match «open» room f.bits mode file with
  | (.error _, file) => (none, file)
  | (.ok fp, file)   =>
    let (results, contents) := writes fp (file.getD []) datas
    (some results, some contents)

/-- Where something is unspecified, anything is right. -/
def Conforms (room : Room) (f : Flags) (mode : BitVec 32) (file : Option (List UInt8))
    (datas : List (List UInt8)) : Prop :=
  f.Unspecified ∨ mmcfsBehaviour room f mode file datas = posixBehaviour room f file datas

/-- The condition on the flags, the file and what is written. With `O_CREAT` and `O_EXCL`, the file
is new and truncated. With `O_CREAT` only, nothing is appended to what a file has. Without both, the
file is absent, or neither truncated nor appended to. -/
def Supported (f : Flags) (file : Option (List UInt8)) (datas : List (List UInt8)) : Prop :=
  if f.creat then
    if f.excl then f.trunc ∧ f.Writes ∧ file = none
    else ¬ f.append ∨ f.trunc ∨ ¬ f.Writes ∨ file.getD [] = [] ∨ datas.flatten = []
  else (¬ f.trunc ∧ ¬ f.append) ∨ file = none

end Mmcfs

end Alcor.Newlib
