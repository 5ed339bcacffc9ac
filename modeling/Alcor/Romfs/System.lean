import Mathlib.Data.List.ModifyLast
import Mathlib.Algebra.Ring.Nat
import Alcor.Lib.Run
import Alcor.Romfs.Ops
import Alcor.Romfs.Directory
import Alcor.Lib.Versions
import Alcor.Flash.Driver

/-!
# `Alcor.Romfs.System`: a file system in use

Runs of a file system, together with the history of its files that the
calls should make.

* `tracedStep`, `record`: a call, and what it adds to the history.
* `KeepsSpace`: what a WOFS may do to its flash.
* `eventStep`, `recordCut`, `Faithful`: runs in which power is lost in
  the middle of calls.
* `sessionStep`, `CorrectStore`: runs of write sessions, and the store
  that they should make.
* `InternalFlash`, `FormatErases`: the WOFS in the internal flash, and
  what `wofs_format` is to erase of it.
-/

set_option autoImplicit false

/-!
## Calls and runs

`Call` is one call of the file system through its device entry points
and `Reply` what it returns. `romfsCall` performs a call. The device
manager passes on only descriptors it has handed out, so a call on a
descriptor that is not open has no outcome; nor has a call that never
returns. `step` is the system that `Lib.Run` runs.

`Formatted fs` is a WOFS after `wofs_format`, and `MayWrite` says that
an open descriptor may write.
-/

namespace Alcor.Romfs

open Lib

/-- A call of one of the device functions. -/
inductive Call where
  /-- `romfs_open_r`, with the value its local `firstfree` happens to have. -/
  | openR (garbage : Nat) (path : CStr) (flags : OpenFlags)
  /-- `romfs_close_r` -/
  | closeR (fd : Nat)
  /-- `romfs_write_r` -/
  | writeR (fd : Nat) (ptr : List UInt8)
  /-- `romfs_read_r` -/
  | readR (fd len : Nat)
  /-- `romfs_lseek_r` -/
  | lseekR (fd : Nat) (off : Int) (whence : Nat)
  /-- `romfs_opendir_r` -/
  | opendirR (dname : Option (List UInt8))
  /-- `romfs_readdir_r` -/
  | readdirR
  /-- `romfs_closedir_r` -/
  | closedirR

/-- What a call returns. -/
inductive Reply where
  | opened (res : Except Errno Nat)
  | closed
  | written (res : Except Errno Nat)
  | bytes (res : Except Errno (List UInt8))
  | position (res : Option Nat)
  | dir (found : Bool)
  | dirent (ent : Option DmDirent)

/-- The slot holds an open descriptor. -/
def RomfsState.isOpen (st : RomfsState) (fd : Nat) : Bool := !(st.fd fd).isUnused

/-- The slot holds an open descriptor that may write. -/
def RomfsState.MayWrite (st : RomfsState) (fd : Nat) : Prop :=
  st.isOpen fd = true ∧ (st.fd fd).flags.mayWrite = true

/-- The number of used slots of the descriptor table. -/
def RomfsState.usedSlots (st : RomfsState) : Nat := st.fdTable.countP fun pfd => !pfd.isUnused

/-- Perform a call. -/
def romfsCall (st : RomfsState) : Call → Option (Reply × RomfsState)
  | .openR garbage path flags =>
    (romfsOpenR garbage path flags st).map fun (res, st) => (.opened res, st)
  | .closeR fd =>
    if st.isOpen fd then some (.closed, romfsCloseR fd st) else none
  | .writeR fd ptr =>
    if st.isOpen fd then
      let (res, st) := romfsWriteR fd ptr st
      some (.written res, st)
    else none
  | .readR fd len =>
    if st.isOpen fd then
      let (res, st) := romfsReadR fd len st
      some (.bytes res, st)
    else none
  | .lseekR fd off whence =>
    if st.isOpen fd then
      let (res, st) := romfsLseekR fd off whence st
      some (.position res, st)
    else none
  | .opendirR dname =>
    match romfsOpendirR dname st with
    | some st => some (.dir true, st)
    | none    => some (.dir false, st)
  | .readdirR => (romfsReaddirR st).map fun (ent, st) => (.dirent ent, st)
  | .closedirR => some (.closed, romfsClosedirR st)

/-- The state after a call. -/
def step (st : RomfsState) (c : Call) : Option RomfsState := (romfsCall st c).map Prod.snd

/-- A WOFS after `wofs_format`: every byte of it is blank, and no file is being written. -/
structure Formatted (fs : FSDATA) : Prop where
  wo : fs.flags.wo = true
  writing : fs.flags.writing = false
  maxSize_pos : 0 < fs.maxSize
  blank : ∀ x < fs.maxSize, fs.medium.bytes x = 0xFF

/-- A WOFS of `maxSize` bytes, all of them blank. -/
def wofsFormat (maxSize : Nat) (h : maxSize < 2 ^ 32) : FSDATA :=
  ⟨⟨fun _ => 0xFF, []⟩, { wo := true }, maxSize, h⟩

theorem formatted_wofsFormat {maxSize : Nat} (hpos : 0 < maxSize) (h : maxSize < 2 ^ 32) :
    Formatted (wofsFormat maxSize h) :=
  ⟨rfl, rfl, hpos, fun _ _ => rfl⟩

/-- The open flags that start a write session. -/
def sessionFlags : OpenFlags := { wronly := true, creat := true, trunc := true }

/-! ### The files of a run

A history is the list of the files that a run has created, oldest
first. It is kept beside the state and follows from the calls and
their replies alone: a successful open for writing adds a file and
deletes the versions it replaces, a write adds the bytes that were
accepted, and the close of the descriptor ends the session.

The code keeps no history. The results about WOFS compare what the
file system reports with it.
-/

section History
open Lib

/-- Every version of the file that is not deleted yet is deleted now. -/
def markDeleted (fname : List UInt8) (h : List FileRec) : List FileRec :=
  h.map fun r => if r.isHit fname then { r with deleted := true } else r

/-- A new file without contents, its session not closed. -/
def FileRec.new (name : List UInt8) (base : Nat) : FileRec := ⟨name, base, [], false, false⟩

/-- The file that is being written gets more bytes. -/
def extendLast (bs : List UInt8) (h : List FileRec) : List FileRec :=
  h.modifyLast fun r => { r with data := r.data ++ bs }

/-- The session of the file that is being written is closed. -/
def closeLast (h : List FileRec) : List FileRec := h.modifyLast fun r => { r with closed := true }

/-- The history after the call `c` with the reply `reply`, from `st` to `st'`. -/
def record (h : List FileRec) (st : RomfsState) (st' : RomfsState) :
    Call → Reply → List FileRec
  | .openR _ path flags, .opened (.ok fd) =>
    if (openFlagsToFdFlags flags).mayWrite then
      markDeleted path.bytes h ++ [.new path.bytes (st'.fd fd).baseaddr]
    else h
  | .openR _ path _, .opened (.error .ENOSPC) => markDeleted path.bytes h
  | .closeR fd, _ => if (st.fd fd).flags.mayWrite then closeLast h else h
  | .writeR _ ptr, .written (.ok n) => extendLast (ptr.take n) h
  | _, _ => h

/-- The state of a run with its history. -/
structure Traced where
  /-- The state of the file system code. -/
  st : RomfsState
  /-- The files created so far. -/
  history : List FileRec

/-- A call in a run with its history. -/
def tracedStep (t : Traced) (c : Call) : Option Traced :=
  (romfsCall t.st c).map fun (reply, st') => ⟨st', record t.history t.st st' c reply⟩

end History

/-! ### What a WOFS may do to its flash

The flash behind a WOFS takes every byte once; only a format makes it
blank again. `Covers w x` says that the `writef` call `w` passes a byte
for the address `x`. `KeepsSpace` collects what has to hold after every
call of a run of write sessions: the calls of `writef` stay inside the
medium and do not meet, the unsigned differences in the two space
checks do not wrap, and a blank byte is left behind the records.
-/

section Space
open Lib

/-- A call in a write session. A session starts when no file is open. -/
def SessionCall (st : RomfsState) : Call → Prop
  | .openR _ path flags => flags = sessionFlags ∧ StorableName path ∧ st.romfsNumFd = 0
  | .writeR _ ptr       => ptr.length < 2 ^ 31
  | .lseekR _ _ _       => True
  | .closeR _           => True
  | .readR _ _          => False
  | .opendirR _         => False
  | .readdirR           => False
  | .closedirR          => False

instance (name : CStr) : Decidable (StorableName name) :=
  decidable_of_iff (name.bytes ≠ [] ∧ name.bytes.length ≤ DM_MAX_FNAME_LENGTH ∧
      name.bytes.head? ≠ some WOFS_END_MARKER_CHAR ∧ name.bytes.head? ≠ some 1)
    ⟨fun h => ⟨h.1, h.2.1, h.2.2.1, h.2.2.2⟩,
      fun h => ⟨h.nonempty, h.length_le, h.head, h.head_ne_one⟩⟩

instance (st : RomfsState) (c : Call) : Decidable (SessionCall st c) := by
  cases c <;> unfold SessionCall <;> infer_instance

/-- The `writef` call passes a byte for the address. -/
def Covers (w : Nat × List UInt8) (x : Nat) : Prop := w.1 ≤ x ∧ x < w.1 + w.2.length

/-- Where the contents of the last record end. -/
def dataEnd (h : List FileRec) : Nat := h.getLast?.elim 0 fun r => r.base + r.data.length

/-- The aligned end of the last record that is closed. -/
def closedEnd (h : List FileRec) : Nat := alignUp (dataEnd (h.filter FileRec.closed))

/-- What holds of a state and its history, when the medium was `fs` after the format. -/
structure KeepsSpace (fs : FSDATA) (t : Traced) : Prop where
  /-- Every range lies inside the medium, and no byte is passed twice. -/
  written : ∃ ws, t.st.fsdata.medium.writes = fs.medium.writes ++ ws ∧
    (∀ w ∈ ws, w.1 + w.2.length ≤ fs.maxSize) ∧
    ws.Pairwise fun v w => ∀ x, Covers v x → ¬ Covers w x
  /-- The space check of an open does not wrap. -/
  openCheck : t.st.romfsNumFd = 0 → ∀ path : CStr, StorableName path →
    ∃ found k, romfsOpenFile path.bytes t.st.fsdata = some found ∧
      romfsOpenFile [1] (romfsInvalidate found t.st.fsdata) = some (.notFound k) ∧
      k ≤ fs.maxSize ∧ u32 (sub32 fs.maxSize k + 1) = fs.maxSize - k + 1
  /-- Neither does the one of a write, and the clamped length is not negative. -/
  writeCheck : ∀ fd len, t.st.MayWrite fd → len < 2 ^ 31 →
    (t.st.fd fd).baseaddr + (t.st.fd fd).size + len < 2 ^ 32 ∧
      (t.st.fd fd).baseaddr + (t.st.fd fd).size + ROMFS_ALIGN ≤ fs.maxSize ∧
      romfsWriteLen (t.st.fd fd) len t.st.fsdata
        = min len (fs.maxSize - ((t.st.fd fd).baseaddr + (t.st.fd fd).size) - ROMFS_ALIGN)
  /-- A blank byte is left inside the medium, behind the padding of the last record. -/
  marker : alignUp (dataEnd t.history) < fs.maxSize ∧
    t.st.fsdata.medium.bytes (alignUp (dataEnd t.history)) = WOFS_END_MARKER_CHAR
  /-- With no file open that record is closed, and every scan that does not find its name ends
  there. -/
  scan : t.st.romfsNumFd = 0 → closedEnd t.history = alignUp (dataEnd t.history) ∧
    ∀ fname, (∃ baseaddr size na,
        romfsOpenFile fname t.st.fsdata = some (.ok baseaddr size na)) ∨
      romfsOpenFile fname t.st.fsdata = some (.notFound (closedEnd t.history))
  /-- The next open returns. -/
  returns : t.st.romfsNumFd = 0 → ∀ garbage path,
    ∃ res st', romfsOpenR garbage path sessionFlags t.st = some (res, st')

end Space

/-! ### Runs in which power is lost

Power is lost in the middle of a call: the first `n` bytes that the
call writes are on the medium, and the system starts again with
`romfs_init`. Power lost between two calls is the case `n = 0`.

The history keeps what the bytes on the medium stand for. An old
version is deleted as soon as the first byte of the mark is written, a
new file exists once its name is complete, and a session is closed
once the size is.
-/

section PowerLoss
open Lib

/-- A memory after the first `n` bytes of the `writef` calls `ws`. -/
def storeBytes : Mem → List (Nat × List UInt8) → Nat → Mem
  | m, [],            _ => m
  | m, (a, bs) :: ws, n => storeBytes (m.store a (bs.take n)) ws (n - bs.length)

/-- The instance after power is lost `n` bytes into the writes that lead from `pfs` to `pfs'`. -/
def FSDATA.cut (pfs pfs' : FSDATA) (n : Nat) : FSDATA :=
  { pfs with
      medium :=
        { bytes := storeBytes pfs.medium.bytes
            (pfs'.medium.writes.drop pfs.medium.writes.length) n
          writes := pfs.medium.writes }
      flags := { pfs.flags with writing := false } }

/-- The length of the deletion mark that an open for writing puts on the old version. -/
def markLength (path : CStr) (h : List FileRec) : Nat :=
  if h.any (FileRec.isHit path.bytes) then deletedMark.length else 0

/-- The history after power is lost `n` bytes into the call `c`, which would have returned
`reply` in the state `st'`. -/
def recordCut (h : List FileRec) (st st' : RomfsState) (n : Nat) : Call → Reply → List FileRec
  | .openR _ path flags, .opened (.ok fd) =>
    if (openFlagsToFdFlags flags).mayWrite then
      if markLength path h + (path.bytes.length + 1) ≤ n then
        markDeleted path.bytes h ++ [.new path.bytes (st'.fd fd).baseaddr]
      else if n = 0 then h
      else markDeleted path.bytes h
    else h
  | .openR _ path _, .opened (.error .ENOSPC) => if n = 0 then h else markDeleted path.bytes h
  | .closeR fd, _ =>
    if (st.fd fd).flags.mayWrite && ROMFS_SIZE_LEN ≤ n then closeLast h else h
  | .writeR _ ptr, .written (.ok len) => extendLast ((ptr.take len).take n) h
  | _, _ => h

/-- What can happen next in a run. -/
inductive Event where
  /-- A call. -/
  | call (c : Call)
  /-- Power is lost `n` bytes into the writes of a call. -/
  | powerLoss (c : Call) (n : Nat)

/-- The state and the history after an event. -/
def eventStep (t : Traced) : Event → Option Traced
  | .call c => tracedStep t c
  | .powerLoss c n =>
    (romfsCall t.st c).map fun (reply, st') =>
      ⟨romfsInit (t.st.fsdata.cut st'.fsdata n), recordCut t.history t.st st' n c reply⟩

/-- Lookups and directory iterations end, and they report the closed files that are not deleted
and nothing else. -/
structure Faithful (st : RomfsState) (h : List FileRec) : Prop where
  found : ∀ r ∈ h, r.closed = true → r.deleted = false → ∀ name : List UInt8,
    lower (name.take DM_MAX_FNAME_LENGTH) = lower r.name →
    ∃ na, romfsOpenFile name st.fsdata = some (.ok r.base r.data.length na)
  absent : ∀ name : List UInt8, (∀ r ∈ h, r.closed = true → r.deleted = false →
      lower (name.take DM_MAX_FNAME_LENGTH) ≠ lower r.name) →
    ∃ k, romfsOpenFile name st.fsdata = some (.notFound k)
  listed : Lists { st with romfsDirData := 0 }
    ((h.filter fun r => r.closed && !r.deleted).map fun r => ⟨r.name, r.data.length⟩)

/-- No file is left that is neither finished nor deleted. -/
def NoneUnfinished (h : List FileRec) : Prop := ∀ r ∈ h, r.closed = true ∨ r.deleted = true

/-- The unfinished files of the history have no contents but blank bytes. -/
def UnfinishedBlank (h : List FileRec) : Prop :=
  ∀ r ∈ h, r.closed = false → ∀ b ∈ r.data, b = 0xFF

/-- The first `n` bytes that the call writes do not end inside a name or a size. -/
def WholeFields (h : List FileRec) (st : RomfsState) (n : Nat) : Call → Prop
  | .openR _ path flags => (openFlagsToFdFlags flags).mayWrite = true →
      n ≤ markLength path h ∨ markLength path h + (path.bytes.length + 1) ≤ n
  | .closeR fd => (st.fd fd).flags.mayWrite = true → n = 0 ∨ ROMFS_SIZE_LEN ≤ n
  | _ => True

end PowerLoss

end Alcor.Romfs

/-!
## WOFS as a store of files

A session writes one version of a file: it opens the file with
`O_WRONLY | O_CREAT | O_TRUNC`, writes any number of times and closes
it. What it stores are the bytes that its writes have accepted. A run
of sessions leaves a log of versions, and the last version of a name
is the file.

`CorrectStore st log` says what the file system then has to report.
-/

namespace Alcor.Romfs

open Lib

/-- A write session. -/
structure Session where
  /-- The value that the local `firstfree` of `romfs_open_r` happens to have. -/
  garbage : Nat
  /-- Name of the file. -/
  name : CStr
  /-- The arguments of the writes. -/
  writes : List (List UInt8)

/-- One version of a file. -/
structure Version where
  /-- The name it was created under. -/
  name : List UInt8
  /-- Its contents. -/
  data : List UInt8
deriving DecidableEq

/-- Names are compared without regard to case. -/
def Version.key (v : Version) : List UInt8 := lower v.name

/-- The number of bytes a write has accepted. -/
def accepted : Except Errno Nat → Nat
  | .ok n    => n
  | .error _ => 0

/-- The writes of a session, with the bytes they have accepted. -/
def runWrites (fd : Nat) : List (List UInt8) → RomfsState → List UInt8 × RomfsState
  | [],          st => ([], st)
  | ptr :: ptrs, st =>
    let (res, st) := romfsWriteR fd ptr st
    let (data, st) := runWrites fd ptrs st
    (ptr.take (accepted res) ++ data, st)

/-- A state of the file system with the versions stored so far. -/
structure Stored where
  /-- The state of the file system code. -/
  st : RomfsState
  /-- The versions of all files, oldest first. -/
  log : List Version

/-- A session, `none` if its open fails. -/
def sessionStep (t : Stored) (s : Session) : Option Stored :=
  match romfsOpenR s.garbage s.name sessionFlags t.st with
  | some (.ok fd, st) =>
    let (data, st) := runWrites fd s.writes st
    some ⟨romfsCloseR fd st, t.log ++ [⟨s.name.bytes, data⟩]⟩
  | some (.error _, _) => none
  | none               => none

/-- Reads of the given lengths, one after the other, with the bytes of all of them. -/
def readPieces (fd : Nat) : List Nat → RomfsState → Except Errno (List UInt8)
  | [],          _  => .ok []
  | len :: lens, st =>
    match romfsReadR fd len st with
    | (.ok bytes, st) => (readPieces fd lens st).map fun rest => bytes ++ rest
    | (.error e, _)   => .error e

/-- The file system reports the last version of every file of the log, and nothing else under a
name of at most 30 bytes. -/
structure CorrectStore (st : RomfsState) (log : List Version) : Prop where
  /-- A file is read back under its name in any case, in pieces of any lengths. -/
  read : ∀ (name : CStr) (v : Version),
    Versions.lookup Version.key (lower name.bytes) log = some v →
    ∀ garbage, ∃ fd st', romfsOpenR garbage name {} st = some (.ok fd, st') ∧
      ∀ lens : List Nat, readPieces fd lens st' = .ok (v.data.take lens.sum)
  /-- A name that was never created is not found, if it has at most 30 bytes. The comparison sees
  no more than these: a longer name is not found exactly if no file was created under its first 30
  bytes either. -/
  absent : ∀ name : CStr, (∀ v ∈ log, lower name.bytes ≠ v.key) → ∀ garbage,
    (name.bytes.length ≤ DM_MAX_FNAME_LENGTH →
      romfsOpenR garbage name {} st = some (.error .ENOENT, st)) ∧
    (romfsOpenR garbage name {} st = some (.error .ENOENT, st) ↔
      ∀ v ∈ log, lower (name.bytes.take DM_MAX_FNAME_LENGTH) ≠ v.key)
  /-- A directory iteration lists the last version of every file, in the order of creation. -/
  listed : ∃ st', romfsOpendirR (some [47]) st = some st' ∧
    Lists st' ((Versions.latest Version.key log).map fun v => ⟨v.name, v.data.length⟩)

/-- The sums in the space checks of the writes do not overflow. -/
def WritesFit (fd : Nat) : List (List UInt8) → RomfsState → Prop
  | [],          _  => True
  | ptr :: ptrs, st =>
    (st.fd fd).baseaddr + (st.fd fd).size + ptr.length < 2 ^ 32 ∧
      WritesFit fd ptrs (romfsWriteR fd ptr st).2

/-- The session has a name that can be stored, and its writes fit. -/
def SessionOk (t : Stored) (s : Session) : Prop :=
  StorableName s.name ∧ ∀ fd st',
    romfsOpenR s.garbage s.name sessionFlags t.st = some (.ok fd, st') → WritesFit fd s.writes st'

end Alcor.Romfs

/-!
## Formatting the WOFS in the internal flash

On real hardware the WOFS is the part of the internal flash behind the
image: `romfs_init` takes its address and its size from
`platform_flash_get_first_free_block_address`. `wofs_format` looks for
the end of the directory and erases the sectors up to it, so that the
free space is not erased again.

`sect_last` is first the offset that the lookup reports. A lookup that
finds a file stores nothing in it, and the value it has then is the
argument `garbage`.
-/

namespace Alcor.Romfs

open Lib
open Alcor.Flash

/-- The internal flash, with an image that leaves at least one sector to the WOFS. -/
structure InternalFlash where
  conf : Conf
  /-- `flash_used_size` -/
  flashUsedSize : Nat
  used_pos : 1 ≤ flashUsedSize
  room : conf.startAddress + flashUsedSize ≤ conf.boundary (conf.sizes.length - 1)

namespace InternalFlash

variable (dev : InternalFlash)

/-- `wofs_fsdata.pbase` -/
def pbase : Nat := (platformFlashGetFirstFreeBlockAddress dev.conf dev.flashUsedSize).1

/-- The number of the first sector of the WOFS. -/
def sectFirst : Nat := (platformFlashGetFirstFreeBlockAddress dev.conf dev.flashUsedSize).2

/-- `wofs_fsdata.max_size` -/
def maxSize : Nat := sub32 dev.conf.flashSize (sub32 dev.pbase dev.conf.startAddress)

/-- `wofs_fsdata`, over the memory of the system. -/
def wofsFsdata (m : Mem) : FSDATA where
  medium := ⟨fun addr => m (u32 (addr + dev.pbase)), []⟩
  flags := { direct := true, wo := true }
  maxSize := dev.maxSize
  maxSize_lt := Nat.mod_lt _ (by decide)

/-- `platform_flash_erase_sector`, with the sectors whose erasure succeeds; `none` is
`PLATFORM_ERR`. All bytes of an erased sector are blank. -/
def platformFlashEraseSector (ok : Nat → Bool) (sect : Nat) (m : Mem) : Option Mem :=
  if ok sect then
    some fun x =>
      if dev.conf.boundary sect ≤ x ∧ x < dev.conf.boundary (sect + 1) then 0xFF else m x
  else none

/-- One pass of the loop of `wofs_format`, in which `sect_first` is a 32-bit variable. -/
def wofsFormatBody (ok : Nat → Bool) (sectLast : Nat) :
    Nat × Mem → Bool × Mem ⊕ Nat × Mem
  | (sectFirst, m) =>
    if sectFirst ≤ sectLast then
      match dev.platformFlashEraseSector ok sectFirst m with
      | none    => .inl (false, m)
      | some m' => .inr (u32 (sectFirst + 1), m')
    else .inl (true, m)

/-- The last sector to erase, from what the lookup reports. -/
def sectLast (garbage : Nat) (found : OpenFile) : Nat :=
  platformFlashGetSectorOfAddress dev.conf (u32 (found.plastOr garbage + dev.pbase))

/-- WOFS formatting function: whether it succeeds, and the memory it leaves. -/
def wofsFormat (ok : Nat → Bool) (garbage : Nat) (m : Mem) : Option (Bool × Mem) :=
  (romfsOpenFile [1] (dev.wofsFsdata m)).bind fun found =>
    Loop.run (dev.wofsFormatBody ok (dev.sectLast garbage found)) (2 ^ 32) (dev.sectFirst, m)

/-- Every byte of the WOFS up to the end of a sector that had a programmed byte is blank. -/
def Erased (m m' : Mem) : Prop :=
  ∀ k < platformFlashGetNumSectors dev.conf, ∀ x, dev.pbase ≤ x →
    dev.conf.boundary k ≤ x → x < dev.conf.boundary (k + 1) → m x ≠ 0xFF →
    ∀ y, dev.pbase ≤ y → y < dev.conf.boundary (k + 1) → m' y = 0xFF

/-- Formatting erases the WOFS in this memory, whenever it succeeds. -/
def FormatErases (m : Mem) : Prop :=
  ∀ ok garbage m', dev.wofsFormat ok garbage m = some (true, m') → dev.Erased m m'

/-- The end of the directory, where there is one, is not in a sector before a programmed byte. -/
def EndsBehind (m : Mem) : Prop :=
  ∀ found garbage, romfsOpenFile [1] (dev.wofsFsdata m) = some found →
    ∀ k < platformFlashGetNumSectors dev.conf, ∀ x, dev.pbase ≤ x →
      dev.conf.boundary k ≤ x → x < dev.conf.boundary (k + 1) → m x ≠ 0xFF →
      k ≤ dev.sectLast garbage found

/-- The WOFS is the one in this memory: it has its size and its bytes. -/
structure Mirrors (m : Mem) (pfs : FSDATA) : Prop where
  maxSize : pfs.maxSize = dev.maxSize
  bytes : (dev.wofsFsdata m).medium.bytes.Agree pfs.medium.bytes 0 dev.maxSize

end InternalFlash

end Alcor.Romfs
