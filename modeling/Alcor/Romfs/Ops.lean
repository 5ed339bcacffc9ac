import Mathlib.Algebra.Group.Int.Defs
import Alcor.Lib.Memory
import Alcor.Lib.Run

/-!
# `Alcor.Romfs.Ops`: the medium and the file operations

The layout of `inc/romfs.h`, and the operations of `src/romfs.c` on it.

* `romfsOpenFile`, `romfsReaddirR`: the two scans over the records, each
  a loop over one pass.
* `romfsOpenR`: opening, replacing and creating a file.
* `romfsWriteR`, `romfsReadR`, `romfsLseekR`, `romfsCloseR`: operations
  on a descriptor.
* `FSDATA.writef`: every write to the medium goes through it.
-/

set_option autoImplicit false

/-!
## The data of the ROM and write-once file systems

The constants and structures of `inc/romfs.h`, with the file system
constants of `src/romfs.c` and `inc/newlib/devman.h`. A flag word is a
record of its bits. `FSDATA` is one file system instance: the medium
behind `pbase`, `readf` and `writef`, its flags and its size.

The medium keeps every `writef` call made on it. The code never reads
this list; a power cut is described with it.
-/

namespace Alcor.Romfs

open Lib

/-! ### Constants -/

/-- The longest file name on any file system. -/
def DM_MAX_FNAME_LENGTH : Nat := 30

/-- The number of file descriptors. -/
def TOTAL_MAX_FDS : Nat := 8

/-- The alignment of the size field, and of a record on WOFS. -/
def ROMFS_ALIGN : Nat := 4

/-- The first byte after the last record. -/
def WOFS_END_MARKER_CHAR : UInt8 := 0xFF

/-- The length of the "file deleted" field of WOFS. -/
def WOFS_DEL_FIELD_SIZE : Nat := ROMFS_ALIGN

/-- The first byte of that field in a deleted file. -/
def WOFS_FILE_DELETED : UInt8 := 0xAA

/-- The length of the file size field. -/
def ROMFS_SIZE_LEN : Nat := 4

/-- What a new file needs besides its name. -/
def WOFS_MIN_NEEDED_SIZE : Nat := 11

/-- The address fields of an unused descriptor. -/
def FD_UNUSED : Nat := 0xFFFFFFFF

/-! ### Flag words -/

/-- The bits of the `flags` argument of `open` that the file systems look at. -/
structure OpenFlags where
  /-- `O_WRONLY` -/
  wronly : Bool := false
  /-- `O_RDWR` -/
  rdwr : Bool := false
  /-- `O_APPEND` -/
  append : Bool := false
  /-- `O_CREAT` -/
  creat : Bool := false
  /-- `O_TRUNC` -/
  trunc : Bool := false
  /-- `O_EXCL` -/
  excl : Bool := false
  /-- `O_SYNC` -/
  sync : Bool := false
deriving DecidableEq

/-- The flags of a descriptor, `ROMFS_FILE_FLAG_*`. -/
structure FdFlags where
  /-- `ROMFS_FILE_FLAG_READ` -/
  read : Bool := false
  /-- `ROMFS_FILE_FLAG_WRITE` -/
  write : Bool := false
  /-- `ROMFS_FILE_FLAG_APPEND` -/
  append : Bool := false
deriving DecidableEq

/-- The flags of a file system instance, `ROMFS_FS_FLAG_*`. -/
structure FsFlags where
  /-- `ROMFS_FS_FLAG_DIRECT` -/
  direct : Bool := false
  /-- `ROMFS_FS_FLAG_WO` -/
  wo : Bool := false
  /-- `ROMFS_FS_FLAG_WRITING` -/
  writing : Bool := false
deriving DecidableEq

/-- The error codes the operations leave in `r->_errno`. -/
inductive Errno where
  | ENFILE | EEXIST | EROFS | EACCES | ENOSPC | ENOENT | EINVAL | EBADF
deriving DecidableEq

/-! ### Structures -/

/-- A file descriptor: where the contents start, the position, the size. -/
structure FD where
  /-- Address of the first byte of the contents. -/
  baseaddr : Nat
  /-- Position of the next access. -/
  offset : Nat
  /-- Number of bytes of the file. -/
  size : Nat
  /-- What the descriptor may do. -/
  flags : FdFlags
deriving DecidableEq

/-- An unused slot of the descriptor table, as `romfs_close_fd` leaves it. -/
def FD.unused : FD := ⟨FD_UNUSED, FD_UNUSED, FD_UNUSED, {}⟩

/-- The test of `romfs_find_empty_fd` for one slot. -/
def FD.isUnused (pfd : FD) : Bool :=
  pfd.baseaddr == FD_UNUSED && pfd.offset == FD_UNUSED && pfd.size == FD_UNUSED

/-- `flags & ( ROMFS_FILE_FLAG_WRITE | ROMFS_FILE_FLAG_APPEND )`: the descriptor may write. -/
def FdFlags.mayWrite (f : FdFlags) : Bool := f.write || f.append

/-- The bytes of a file system, with the `writef` calls made on it so far. -/
structure Medium where
  /-- The contents. -/
  bytes : Mem
  /-- The calls of `writef`, oldest first: address and bytes. -/
  writes : List (Nat × List UInt8)

/-- A file system instance. -/
structure FSDATA where
  /-- What `pbase`, `readf` and `writef` give access to. -/
  medium : Medium
  /-- The flags of the instance. -/
  flags : FsFlags
  /-- The size of the file system in bytes. -/
  maxSize : Nat
  /-- `max_size` is a 32-bit value. -/
  maxSize_lt : maxSize < 2 ^ 32

/-- A directory entry as `readdir` reports it; `ftime` and `flags` are always zero here. -/
structure DmDirent where
  /-- Name of the file. -/
  fname : List UInt8
  /-- Size of the file. -/
  fsize : Nat
deriving DecidableEq

/-- The state of the file system code: the descriptor table, the count
of open descriptors, the offset all directory iterations share, and
the instance that is used. -/
structure RomfsState where
  /-- `fd_table` -/
  fdTable : List FD
  /-- `romfs_num_fd` -/
  romfsNumFd : Nat
  /-- `romfs_dir_data` -/
  romfsDirData : Nat
  /-- The instance behind `pdata`. -/
  fsdata : FSDATA

/-- The state `romfs_init` leaves for an instance. -/
def romfsInit (fs : FSDATA) : RomfsState :=
  ⟨List.replicate TOTAL_MAX_FDS FD.unused, 0, 0, fs⟩

end Alcor.Romfs

/-!
## The operations of `src/romfs.c`

Every operation takes the state and returns its result with the state
after it. A result of `-1` is `Except.error` with the error code. The
scans of `romfs_open_file` and `romfs_readdir_r` are loops over a
32-bit offset: `none` is a scan that never ends
(`romfsOpenFile_eq_none_iff`). For `romfs_readdir_r` it is also a name
that runs over the end of `dm_shared_fname`.

`romfs_open_r` has a local variable, `firstfree`, that it may use
before anything is stored in it: when the path is found, and a file
named `"\1"` makes the second lookup stop early. The value it has then
is the argument `garbage`.
-/

namespace Alcor.Romfs

open Lib

/-! ### Descriptors -/

/-- The first unused slot of the descriptor table. -/
def romfsFindEmptyFd (st : RomfsState) : Option Nat := st.fdTable.findIdx? FD.isUnused

/-- Make a slot unused again. -/
def romfsCloseFd (fd : Nat) (st : RomfsState) : RomfsState :=
  { st with fdTable := st.fdTable.set fd FD.unused }

/-- The descriptor in a slot. -/
def RomfsState.fd (st : RomfsState) (fd : Nat) : FD := st.fdTable.getD fd FD.unused

/-! ### Access to the medium -/

/-- Read a byte from the file system. -/
def romfshRead8 (addr : Nat) (pfs : FSDATA) : UInt8 := pfs.medium.bytes addr

/-- The instance is a WOFS. -/
def romfshIsWofs (pfs : FSDATA) : Bool := pfs.flags.wo

/-- The `writef` of the instance: it stores exactly the bytes it is given. -/
def FSDATA.writef (pfs : FSDATA) (bs : List UInt8) (toaddr : Nat) : FSDATA :=
  { pfs with
      medium :=
        { bytes := pfs.medium.bytes.store toaddr bs
          writes := pfs.medium.writes ++ [(toaddr, bs)] } }

@[simp] theorem FSDATA.writef_bytes (pfs : FSDATA) (bs : List UInt8) (toaddr : Nat) :
    (pfs.writef bs toaddr).medium.bytes = pfs.medium.bytes.store toaddr bs := rfl

@[simp] theorem FSDATA.writef_flags (pfs : FSDATA) (bs : List UInt8) (toaddr : Nat) :
    (pfs.writef bs toaddr).flags = pfs.flags := rfl

@[simp] theorem FSDATA.writef_maxSize (pfs : FSDATA) (bs : List UInt8) (toaddr : Nat) :
    (pfs.writef bs toaddr).maxSize = pfs.maxSize := rfl

/-- `romfs_fs_set_flag` and `romfs_fs_clear_flag` for `ROMFS_FS_FLAG_WRITING`. -/
def FSDATA.setWriting (pfs : FSDATA) (writing : Bool) : FSDATA :=
  { pfs with flags := { pfs.flags with writing := writing } }

@[simp] theorem FSDATA.setWriting_medium (pfs : FSDATA) (writing : Bool) :
    (pfs.setWriting writing).medium = pfs.medium := rfl

@[simp] theorem FSDATA.setWriting_flags (pfs : FSDATA) (writing : Bool) :
    (pfs.setWriting writing).flags = { pfs.flags with writing := writing } := rfl

@[simp] theorem FSDATA.setWriting_maxSize (pfs : FSDATA) (writing : Bool) :
    (pfs.setWriting writing).maxSize = pfs.maxSize := rfl

/-- `( x + ROMFS_ALIGN - 1 ) & ~( ROMFS_ALIGN - 1 )` -/
def romfsAlign (x : Nat) : Nat := u32 (x + ROMFS_ALIGN - 1) / ROMFS_ALIGN * ROMFS_ALIGN

/-- The bytes of a name before its terminator, at most `k` of them. -/
def romfsReadName (pfs : FSDATA) : Nat → Nat → List UInt8
  | _,    0     => []
  | addr, k + 1 =>
    let c := romfshRead8 addr pfs
    if c = 0 then [] else c :: romfsReadName pfs (u32 (addr + 1)) k

/-- The 32-bit size field at `j`. -/
def romfsReadSize (pfs : FSDATA) (j : Nat) : Nat :=
  u32 (u32 ((romfshRead8 j pfs).toNat + (romfshRead8 (u32 (j + 1)) pfs).toNat <<< 8)
    + ((romfshRead8 (u32 (j + 2)) pfs).toNat <<< 16
      + (romfshRead8 (u32 (j + 3)) pfs).toNat <<< 24))

/-! ### Looking for a file -/

/-- What `romfs_open_file` reports: `plast` for a file that is not
found, else the fields of the descriptor and the address of the name. -/
inductive OpenFile where
  | notFound (plast : Nat)
  | ok (baseaddr size nameaddr : Nat)
deriving DecidableEq

/-- `FS_FILE_OK` -/
def OpenFile.isOk : OpenFile → Bool
  | .notFound _ => false
  | .ok _ _ _   => true

/-- The variable behind `plast` after the call: only a file that is not found changes it. -/
def OpenFile.plastOr (old : Nat) : OpenFile → Nat
  | .notFound plast => plast
  | .ok _ _ _       => old

/-- One pass of the scan, at the record at offset `i`. -/
def romfsOpenFileBody (fname : List UInt8) (pfs : FSDATA) (i : Nat) : OpenFile ⊕ Nat :=
  if romfshRead8 i pfs = WOFS_END_MARKER_CHAR then
    .inl (.notFound i)
  else
    let fsname := romfsReadName pfs i DM_MAX_FNAME_LENGTH
    let j := romfsAlign (u32 (i + fsname.length + 1))
    -- WOFS has the deletion field before the size.
    let isDeleted := romfshIsWofs pfs && romfshRead8 j pfs == WOFS_FILE_DELETED
    let j := if romfshIsWofs pfs then u32 (j + WOFS_DEL_FIELD_SIZE) else j
    let fsize := romfsReadSize pfs j
    let j := u32 (j + ROMFS_SIZE_LEN)
    if strncasecmpEq fname fsname DM_MAX_FNAME_LENGTH && !isDeleted then
      .inl (.ok j fsize i)
    else if romfshIsWofs pfs then
      .inr (romfsAlign (u32 (j + fsize)))
    else
      .inr (u32 (j + fsize))

/-- Look for a file. The scan offset is a 32-bit value, so a scan that has not
ended after `2 ^ 32` passes never ends. -/
def romfsOpenFile (fname : List UInt8) (pfs : FSDATA) : Option OpenFile :=
  Loop.run (romfsOpenFileBody fname pfs) (2 ^ 32) 0

/-! ### Opening -/

/-- `must_create`, from the open flags and whether the file exists. -/
def mustCreate (flags : OpenFlags) (fileExists : Bool) : Bool :=
  (flags.creat && !fileExists) || (flags.trunc && (flags.wronly || flags.rdwr) && fileExists)

/-- The access mode of the new descriptor. -/
def openFlagsToFdFlags (flags : OpenFlags) : FdFlags :=
  let lflags : FdFlags :=
    if flags.wronly then { write := true }
    else if flags.rdwr then { read := true, write := true }
    else { read := true }
  { lflags with append := flags.append }

/-- The end of `romfs_open_r`: put the descriptor in a free slot. -/
def romfsInstallFd (fd : FD) (st : RomfsState) : Option (Except Errno Nat × RomfsState) :=
  (romfsFindEmptyFd st).map fun i =>
    (.ok i, { st with fdTable := st.fdTable.set i fd, romfsNumFd := st.romfsNumFd + 1 })

/-- The mark that makes a file deleted: `WOFS_FILE_DELETED` and three blank bytes. -/
def deletedMark : List UInt8 := [WOFS_FILE_DELETED, 0xFF, 0xFF, 0xFF]

/-- The instance after an old version of the file, if there is one, is marked as deleted. -/
def romfsInvalidate (found : OpenFile) (pfs : FSDATA) : FSDATA :=
  match found with
  | .notFound _ => pfs
  | .ok baseaddr _ _ =>
    pfs.writef deletedMark (sub32 (sub32 baseaddr ROMFS_SIZE_LEN) WOFS_DEL_FIELD_SIZE)

theorem romfsInvalidate_ok (baseaddr size nameaddr : Nat) (pfs : FSDATA) :
    romfsInvalidate (.ok baseaddr size nameaddr) pfs
      = pfs.writef deletedMark (sub32 (sub32 baseaddr ROMFS_SIZE_LEN) WOFS_DEL_FIELD_SIZE) := rfl

@[simp] theorem romfsInvalidate_flags (found : OpenFile) (pfs : FSDATA) :
    (romfsInvalidate found pfs).flags = pfs.flags := by
  cases found with
  | notFound plast => rfl
  | ok baseaddr size nameaddr => rw [romfsInvalidate_ok, FSDATA.writef_flags]

@[simp] theorem romfsInvalidate_maxSize (found : OpenFile) (pfs : FSDATA) :
    (romfsInvalidate found pfs).maxSize = pfs.maxSize := by
  cases found with
  | notFound plast => rfl
  | ok baseaddr size nameaddr => rw [romfsInvalidate_ok, FSDATA.writef_maxSize]

/-- The space check of `romfs_open_r` fails: no room for another file at `firstfree`. -/
def noSpace (path : CStr) (firstfree : Nat) (pfs : FSDATA) : Bool :=
  u32 (sub32 pfs.maxSize firstfree + 1)
    < path.bytes.length + 1 + WOFS_MIN_NEEDED_SIZE + WOFS_DEL_FIELD_SIZE

/-- The instance after the name of a new file is written: one file is open in write mode now. -/
def romfsWriteName (path : CStr) (firstfree : Nat) (pfs : FSDATA) : FSDATA :=
  (pfs.writef (path.bytes ++ [0]) firstfree).setWriting true

/-- Where the contents of the new file start: skip over the name, align, and skip over the
deletion and size fields. -/
def romfsNewBase (path : CStr) (firstfree : Nat) : Nat :=
  u32 (romfsAlign (u32 (firstfree + (path.bytes.length + 1)))
    + (ROMFS_SIZE_LEN + WOFS_DEL_FIELD_SIZE))

/-- The branch of `romfs_open_r` that creates a file: mark the old
version, look for the end of the directory by asking for a file with an
invalid name, check the space and write the name. -/
def romfsCreate (firstfree : Nat) (path : CStr) (lflags : FdFlags) (found : OpenFile)
    (st : RomfsState) : Option (Except Errno Nat × RomfsState) :=
  let pfs := romfsInvalidate found st.fsdata
  (romfsOpenFile [1] pfs).bind fun free =>
    let firstfree := free.plastOr firstfree
    if noSpace path firstfree pfs then
      some (.error .ENOSPC, { st with fsdata := pfs })
    else
      romfsInstallFd ⟨romfsNewBase path firstfree, 0, 0, lflags⟩
        { st with fsdata := romfsWriteName path firstfree pfs }

/-- Open a file. -/
def romfsOpenR (garbage : Nat) (path : CStr) (flags : OpenFlags) (st : RomfsState) :
    Option (Except Errno Nat × RomfsState) :=
  if st.romfsNumFd = TOTAL_MAX_FDS then
    some (.error .ENFILE, st)
  else
    (romfsOpenFile path.bytes st.fsdata).bind fun found =>
      let create := mustCreate flags found.isOk
      let lflags := openFlagsToFdFlags flags
      let firstfree := found.plastOr garbage
      if flags.creat && flags.excl && found.isOk then
        some (.error .EEXIST, st)
      else if create && !st.fsdata.flags.wo then
        -- ROMFS can't create files.
        some (.error .EROFS, st)
      else if lflags.mayWrite && !create then
        -- Write access to a file that must not be created is an error.
        some (.error .EACCES, st)
      else if lflags.mayWrite && st.fsdata.flags.writing then
        -- At most one file can be opened in write mode at any given time on WOFS.
        some (.error .EROFS, st)
      else if create then
        romfsCreate firstfree path lflags found st
      else
        match found with
        | .notFound _ => some (.error .ENOENT, st)
        | .ok baseaddr size _ => romfsInstallFd ⟨baseaddr, 0, size, lflags⟩ st

/-! ### Closing, writing, reading, seeking -/

/-- Write back the size, and allow other files to be opened in write mode. -/
def romfsWriteSize (pfd : FD) (pfs : FSDATA) : FSDATA :=
  (pfs.writef (leBytes ROMFS_SIZE_LEN pfd.size)
    (sub32 pfd.baseaddr ROMFS_SIZE_LEN)).setWriting false

/-- Close a descriptor. -/
def romfsCloseR (fd : Nat) (st : RomfsState) : RomfsState :=
  let pfd := st.fd fd
  let pfs := if pfd.flags.mayWrite then romfsWriteSize pfd st.fsdata else st.fsdata
  let st := romfsCloseFd fd { st with fsdata := pfs }
  { st with romfsNumFd := st.romfsNumFd - 1 }

/-- The number of bytes a write of `len` bytes stores. -/
def romfsWriteLen (pfd : FD) (len : Nat) (pfs : FSDATA) : Nat :=
  if u32 (pfd.baseaddr + pfd.size + len) > sub32 pfs.maxSize ROMFS_ALIGN then
    sub32 (sub32 pfs.maxSize (u32 (pfd.baseaddr + pfd.size))) ROMFS_ALIGN
  else
    len

/-- Write the bytes `ptr` to a file; the result is the number of bytes written. -/
def romfsWriteR (fd : Nat) (ptr : List UInt8) (st : RomfsState) : Except Errno Nat × RomfsState :=
  let pfd := st.fd fd
  if !pfd.flags.mayWrite then
    (.error .EINVAL, st)
  else
    -- Append mode: set the file pointer to the end.
    let pfd := if pfd.flags.append then { pfd with offset := pfd.size } else pfd
    let st := { st with fdTable := st.fdTable.set fd pfd }
    -- Only write at the end of the file.
    if pfd.offset ≠ pfd.size then
      (.ok 0, st)
    else
      let len := romfsWriteLen pfd ptr.length st.fsdata
      let pfs := st.fsdata.writef (ptr.take len) (u32 (pfd.offset + pfd.baseaddr))
      let pfd := { pfd with offset := u32 (pfd.offset + len), size := u32 (pfd.size + len) }
      (.ok len, { st with fdTable := st.fdTable.set fd pfd, fsdata := pfs })

/-- Read `len` bytes from a file; the result is the bytes put at `ptr`. -/
def romfsReadR (fd len : Nat) (st : RomfsState) : Except Errno (List UInt8) × RomfsState :=
  let pfd := st.fd fd
  let actlen := min len (sub32 pfd.size pfd.offset)
  if !pfd.flags.read then
    (.error .EBADF, st)
  else
    let bytes := st.fsdata.medium.bytes.read (u32 (pfd.offset + pfd.baseaddr)) actlen
    let pfd := { pfd with offset := u32 (pfd.offset + actlen) }
    (.ok bytes, { st with fdTable := st.fdTable.set fd pfd })

/-- Set the file position; `none` is the result `-1`. -/
def romfsLseekR (fd : Nat) (off : Int) (whence : Nat) (st : RomfsState) :
    Option Nat × RomfsState :=
  let pfd := st.fd fd
  let toU32 (n : Int) : Nat := (n % 2 ^ 32).toNat
  let newpos : Option Nat :=
    match whence with
    | 0 => some (toU32 off)
    | 1 => some (toU32 (pfd.offset + off))
    | 2 => some (toU32 (pfd.size + off))
    | _ => none
  match newpos with
  | none => (none, st)
  | some newpos =>
    if newpos > pfd.size then (none, st)
    else (some newpos, { st with fdTable := st.fdTable.set fd { pfd with offset := newpos } })

/-! ### Directories -/

/-- Start a directory iteration; `none` is the result `NULL`. -/
def romfsOpendirR (dname : Option (List UInt8)) (st : RomfsState) : Option RomfsState :=
  match dname with
  | none => some { st with romfsDirData := 0 }
  | some dname =>
    if dname = [] ∨ dname = [47] then some { st with romfsDirData := 0 } else none

/-- The name loop of `romfs_readdir_r`: the name and the offset after
its terminator, `none` when `dm_shared_fname` has no room for the next byte. -/
def readdirName (pfs : FSDATA) : Nat → Nat → Option (List UInt8 × Nat)
  | _,   0     => none
  | off, k + 1 =>
    let c := romfshRead8 off pfs
    if c = 0 then some ([], u32 (off + 1))
    else (readdirName pfs (u32 (off + 1)) k).map fun (name, off) => (c :: name, off)

/-- What ends the scan of `romfs_readdir_r`: the end of the directory,
an entry with the offset behind it, or a name that overruns `dm_shared_fname`. -/
inductive Readdir where
  | null
  | entry (ent : DmDirent) (off : Nat)
  | overrun
deriving DecidableEq

/-- One pass of the scan of `romfs_readdir_r`, at the record at `off`. -/
def romfsReaddirBody (pfs : FSDATA) (off : Nat) : Readdir ⊕ Nat :=
  if romfshRead8 off pfs = WOFS_END_MARKER_CHAR then
    .inl .null
  else
    match readdirName pfs off (DM_MAX_FNAME_LENGTH + 1) with
    | none => .inl .overrun
    | some (fname, off) =>
      let off := romfsAlign off
      let isDeleted := romfshIsWofs pfs && romfshRead8 off pfs == WOFS_FILE_DELETED
      let off := if romfshIsWofs pfs then u32 (off + WOFS_DEL_FIELD_SIZE) else off
      let fsize := romfsReadSize pfs off
      let off := u32 (u32 (off + ROMFS_SIZE_LEN) + fsize)
      let off := if romfshIsWofs pfs then romfsAlign off else off
      if !isDeleted then .inl (.entry ⟨fname, fsize⟩ off) else .inr off

/-- The next directory entry, `none` inside for the end of the
directory. The offset moves only when there is an entry. -/
def romfsReaddirR (st : RomfsState) : Option (Option DmDirent × RomfsState) :=
  match Loop.run (romfsReaddirBody st.fsdata) (2 ^ 32) st.romfsDirData with
  | some .null            => some (none, st)
  | some (.entry ent off) => some (some ent, { st with romfsDirData := off })
  | some .overrun         => none
  | none                  => none

/-- End a directory iteration. -/
def romfsClosedirR (st : RomfsState) : RomfsState := { st with romfsDirData := 0 }

end Alcor.Romfs
