import Alcor.Proofs.Romfs.Faults
import Alcor.Shell.Copy

/-!
# `Alcor.Proofs.Shell.Copy`: when a copy is the file

A copy that reports success is the file, unless a failure was hidden
from it on the way. `rfs_read_r` returns what it got before an error as
if the file ended there, `romfs_read_r` takes a short `readf` for the
end of the file, and `romfs_write_r` and `romfs_close_r` drop the
result of `writef`.

The copy is followed pass by pass (`Copying.Pass`): a read gives what
`Copying.given` says, and a write is short or puts what
`Copying.storedAt` says behind the rest. So the pass at which the copy
ends and what it has stored by then are known beforehand, and the copy
is right just when the bytes that are stored there are the file.

* `read_gives`, `write_room`, `write_short`: the two calls of a pass.
* `loop_sound`, `loop_ends`: the loop ends with the pass that is known.
* `copy_iff`: a copy is all or nothing just when, wherever it ends
  without an error, what has been stored is the file.
* `failures_reported_as_success`: one failing read, and one failing
  write, with a copy that reports success.
-/

set_option autoImplicit false

namespace Alcor.Proofs.Shell

open Lib (CStr Mem u32 sub32 u32_of_lt sub32_of_le lower leBytes leVal length_leBytes)
open Lib
open Alcor.Romfs Alcor.Rfs Alcor.Shell
open Alcor.Proofs.Romfs

variable {n base maxSize : Nat} {written : List UInt8} {st : RomfsState} {pfs₀ : FSDATA}

/-! ### Files of an internal file system -/

/-- A descriptor that reads a file, at a position. -/
structure LocalSource (st : RomfsState) (fd b : Nat) (content : List UInt8) (pos : Nat) :
    Prop where
  lt : fd < st.fdTable.length
  fd_eq : ∃ flags : FdFlags, flags.read = true ∧ flags.mayWrite = false ∧
    st.fd fd = ⟨b, pos, content.length, flags⟩
  pos_le : pos ≤ content.length
  end_lt : b + content.length < 2 ^ 32
  holds : st.fsdata.medium.bytes.Holds b content

/-- A descriptor that writes a file. On a medium that was `pfs₀`, `n` calls of `writef` have stored
`written` where the contents start. -/
structure LocalDest (st : RomfsState) (fd base maxSize : Nat) (pfs₀ : FSDATA) (n : Nat)
    (written : List UInt8) : Prop where
  lt : fd < st.fdTable.length
  fd_eq : ∃ flags : FdFlags, flags.mayWrite = true ∧
    st.fd fd = ⟨base, written.length, written.length, flags⟩
  maxSize_eq : st.fsdata.maxSize = maxSize
  maxSize_le : maxSize ≤ 2 ^ 31
  size_le : ROMFS_SIZE_LEN ≤ base
  end_le : base + written.length ≤ maxSize
  flags_eq : st.fsdata.flags = pfs₀.flags
  bytes_eq : st.fsdata.medium.bytes = pfs₀.medium.bytes.store base written
  writes_eq : st.fsdata.medium.writes.length = pfs₀.medium.writes.length + n

/-- One slot of the table changes, which is not that of the new file. -/
theorem LocalDest.set_fd {st' : RomfsState} {fd : Nat}
    (h : LocalDest st fd base maxSize pfs₀ n written) {fd' : Nat} {pfd : FD}
    (hlt : fd' < st.fdTable.length) (hne : fd ≠ fd')
    (htable : st'.fdTable = st.fdTable.set fd' pfd) (hsame : st'.fsdata = st.fsdata) :
    LocalDest st' fd base maxSize pfs₀ n written := by
  obtain ⟨hlt', ⟨flags, hmay, hfd⟩, hmax, hle, hsize, hend, hflags, hbytes, hwrites⟩ := h
  refine ⟨?_, ⟨flags, hmay, ?_⟩, by rw [hsame, hmax], hle, hsize, hend, by rw [hsame, hflags],
    by rw [hsame, hbytes], by rw [hsame, hwrites]⟩
  · rw [htable, List.length_set]
    exact hlt'
  · rw [fd_of_set htable hlt, if_neg hne, hfd]

/-- A write of a file with room for it: the bytes that the medium keeps come behind the others, and
no descriptor but that of the file changes. -/
theorem local_write_full (dev : Device) {fd : Nat}
    (h : LocalDest st fd base maxSize pfs₀ n written) (ptr : List UInt8)
    (hroom : base + written.length + ptr.length + ROMFS_ALIGN ≤ maxSize) :
    ∃ st', romfsWriteROn dev fd ptr st = (.ok ptr.length, st') ∧
      LocalDest st' fd base maxSize pfs₀ (n + 1)
        (written ++ dev.writef (pfs₀.medium.writes.length + n) ptr) ∧
      st'.fdTable.length = st.fdTable.length ∧ (∀ fd', fd' ≠ fd → st'.fd fd' = st.fd fd') := by
  obtain ⟨hlt, ⟨flags, hmay, hfd⟩, hmax, hle, hsize, hend, hflags, hbytes, hwrites⟩ := h
  rw [ROMFS_ALIGN] at hroom
  have hwritable : (st.fd fd).flags.mayWrite = true := by rw [hfd]; exact hmay
  obtain ⟨len, st', hlen, hwrite, htable, hfsdata⟩ :=
    romfsWriteROn_of_end dev ptr hwritable (by rw [hfd])
  have hfull : len = ptr.length := by
    rw [hlen, romfsWriteLen, hfd, hmax, ROMFS_ALIGN, sub32_of_le (by omega) (by omega)]
    simp only
    rw [u32_of_lt (by omega), if_neg (by omega)]
  rw [hfull, hfd] at htable hfsdata
  simp only at htable hfsdata
  rw [List.take_length, u32_of_lt (by omega), FSDATA.writefOn, hwrites] at hfsdata
  rw [u32_of_lt (by omega)] at htable
  have hstored := dev.length_writef (pfs₀.medium.writes.length + n) ptr
  refine ⟨st', by rw [hwrite, hfull], ⟨?_, ⟨flags, hmay, ?_⟩, ?_, hle, hsize, ?_, ?_, ?_, ?_⟩, ?_,
    ?_⟩
  · rw [htable, List.length_set]
    exact hlt
  · rw [fd_of_set htable hlt, if_pos rfl, List.length_append, hstored]
  · rw [hfsdata, FSDATA.writef_maxSize, hmax]
  · rw [List.length_append, hstored]
    omega
  · rw [hfsdata, FSDATA.writef_flags, hflags]
  · rw [hfsdata, FSDATA.writef_bytes, hbytes, Nat.add_comm, Mem.store_append]
  · rw [hfsdata]
    show (st.fsdata.medium.writes ++ [_]).length = _
    rw [List.length_append, hwrites]
    rfl
  · rw [htable, List.length_set]
  · intro fd' hne
    rw [fd_of_set htable hlt, if_neg hne]

/-- A write of a file without the room. -/
theorem local_write_short (dev : Device) {fd : Nat}
    (h : LocalDest st fd base maxSize pfs₀ n written) (ptr : List UInt8)
    (hptr : ptr.length ≤ 2 ^ 15)
    (hroom : ¬ base + written.length + ptr.length + ROMFS_ALIGN ≤ maxSize) :
    ∃ len st', romfsWriteROn dev fd ptr st = (.ok len, st') ∧ ssize len < ptr.length := by
  obtain ⟨hlt, ⟨flags, hmay, hfd⟩, hmax, hle, hsize, hend, -⟩ := h
  rw [ROMFS_ALIGN] at hroom
  rw [ROMFS_SIZE_LEN] at hsize
  have hwritable : (st.fd fd).flags.mayWrite = true := by rw [hfd]; exact hmay
  obtain ⟨len, st', hlen, hwrite, -, -⟩ :=
    romfsWriteROn_of_end dev ptr hwritable (by rw [hfd])
  refine ⟨len, st', hwrite, ?_⟩
  have hdiff : sub32 maxSize (base + written.length) = maxSize - (base + written.length) :=
    sub32_of_le hend (by omega)
  rw [hlen, romfsWriteLen, hfd, hmax, ROMFS_ALIGN, sub32_of_le (by omega) (by omega)]
  simp only
  rw [u32_of_lt (by omega), if_pos (by omega), u32_of_lt (by omega), hdiff]
  by_cases hfew : 4 ≤ maxSize - (base + written.length)
  · rw [sub32_of_le hfew (by omega), ssize, if_pos (by omega)]
    omega
  · -- the difference wraps, which is a negative result
    rw [sub32, show 2 ^ 32 - 4 = 4294967292 from rfl, u32_of_lt (by omega), ssize,
      if_neg (by omega)]
    omega

/-! ### Files of the server -/

section Remote
variable {fates : Fates} {rfsBufferSize fd : Nat} {s : Remotes}

/-- No more is read once the count is used up. -/
theorem rfsReadR_zero (n : Nat) : rfsReadR fates rfsBufferSize fd n 0 s = ([], s) := by
  cases n with
  | zero => rfl
  | succ n => rw [rfsReadR, if_pos rfl]

/-- Nothing is sent for no bytes. -/
theorem rfsWriteR_nil (n : Nat) : rfsWriteR fates rfsBufferSize fd n [] s = (0, s) := by
  cases n with
  | zero => rfl
  | succ n => rw [rfsWriteR, if_pos rfl]

/-- A read of a whole buffer is one call. -/
theorem rfsReadR_buffer (hpos : 0 < RFS_REAL_BUFFER_SIZE rfsBufferSize) :
    rfsReadR fates rfsBufferSize fd (RFS_REAL_BUFFER_SIZE rfsBufferSize)
        (RFS_REAL_BUFFER_SIZE rfsBufferSize) s =
      let r := rfscReadCall fates fd (RFS_REAL_BUFFER_SIZE rfsBufferSize) s
      (r.1.getD [], r.2) := by
  obtain ⟨n, hn⟩ : ∃ n, RFS_REAL_BUFFER_SIZE rfsBufferSize = n + 1 :=
    ⟨_, (Nat.succ_pred hpos.ne').symm⟩
  rw [hn, rfsReadR, if_neg (Nat.succ_ne_zero n), hn, Nat.min_self]
  simp only
  rcases rfscReadCall fates fd (n + 1) s with ⟨_ | res, s'⟩
  · rfl
  · simp only [Nat.sub_self, rfsReadR_zero, List.append_nil, ite_self, Option.getD_some]

/-- A write of at most a buffer is one call. -/
theorem rfsWriteR_buffer {ptr : List UInt8} (hne : ptr ≠ [])
    (hlen : ptr.length ≤ RFS_REAL_BUFFER_SIZE rfsBufferSize) :
    rfsWriteR fates rfsBufferSize fd ptr.length ptr s =
      let r := rfscWriteCall fates fd ptr s
      (r.1.getD 0, r.2) := by
  obtain ⟨n, hn⟩ : ∃ n, ptr.length = n + 1 :=
    ⟨_, (Nat.succ_pred (List.length_pos_iff.mpr hne).ne').symm⟩
  rw [hn, rfsWriteR, if_neg hne, Nat.min_eq_left hlen]
  simp only [List.take_length, List.drop_length]
  rcases rfscWriteCall fates fd ptr s with ⟨_ | res, s'⟩
  · rfl
  · simp only [rfsWriteR_nil, Nat.add_zero, ite_self, Option.getD_some]

/-- The call for the next bytes of a file of the server. -/
theorem rfscReadCall_next {maxlen pos : Nat} {content : List UInt8}
    (hdone : fates.read s.reads = .done) (hfile : s.files fd = ⟨content, pos⟩) :
    rfscReadCall fates fd maxlen s = (some ((content.drop pos).take maxlen),
      ⟨Function.update s.files fd ⟨content, pos + ((content.drop pos).take maxlen).length⟩,
        s.reads + 1, s.writes⟩) := by
  have hnext : (s.files fd).next maxlen = (content.drop pos).take maxlen := by
    rw [hfile]
    rfl
  rw [rfscReadCall, hdone]
  simp only [RemoteFile.moved, hnext]
  rw [hfile]

/-- A call that fails gives nothing, and at most the position of the file moves. -/
theorem rfscReadCall_fails (fd maxlen : Nat) {moved : Bool}
    (hfate : fates.read s.reads = .failed moved) :
    ∃ f, rfscReadCall fates fd maxlen s =
      (none, ⟨Function.update s.files fd f, s.reads + 1, s.writes⟩) := by
  rw [rfscReadCall, hfate]
  cases moved with
  | true => exact ⟨_, rfl⟩
  | false => exact ⟨s.files fd, by rw [Function.update_eq_self]; rfl⟩

/-- The call that puts all bytes behind those of a file of the server. -/
theorem rfscWriteCall_end {room : Nat} {ptr : List UInt8}
    (hfate : fates.write s.writes = .done room) (hfit : ptr.length ≤ room)
    (hfile : s.files fd = ⟨written, written.length⟩) :
    rfscWriteCall fates fd ptr s = (some ptr.length,
      ⟨Function.update s.files fd ⟨written ++ ptr, (written ++ ptr).length⟩, s.reads,
        s.writes + 1⟩) := by
  have hput : (s.files fd).put ptr = ⟨written ++ ptr, (written ++ ptr).length⟩ := by
    rw [hfile, RemoteFile.put]
    simp only [List.take_length, List.length_append]
    rw [List.drop_eq_nil_of_le (Nat.le_add_right _ _), List.append_nil]
  rw [rfscWriteCall, hfate]
  simp only [List.take_of_length_le hfit, hput]

end Remote

/-! ### A copy whose files are open -/

/-- Where the two files of a copy are. -/
structure Places where
  /-- The contents of the source. -/
  content : List UInt8
  /-- Where they start, on an internal file system. -/
  b : Nat
  /-- The name of the new file, behind that of its device. -/
  name : CStr
  /-- Where the record of the new file starts on an internal file system, and where its
  contents. -/
  nameaddr : Nat
  base : Nat
  /-- The size of that file system. -/
  maxSize : Nat

/-- A copy whose files are open: what the line and the media do, and the file systems when the loop
begins. -/
structure Copying extends Places where
  fates : Fates
  devices : Nat → Device
  rfsBufferSize : Nat
  fds : File
  fdd : File
  start : Sys

/-- A file of the system that is read, at a position. -/
def SourceAt (s : Sys) (b : Nat) (content : List UInt8) (pos : Nat) : File → Prop
  | .romfs fs fd => LocalSource (s.romfs fs) fd b content pos
  | .rfs fd      => s.remote.files fd = ⟨content, pos⟩ ∧ pos ≤ content.length

/-- Closing the source writes nothing. -/
def Idle (s : Sys) : File → Prop
  | .romfs fs fd =>
    fd < (s.romfs fs).fdTable.length ∧ ((s.romfs fs).fd fd).flags.mayWrite = false
  | .rfs _       => True

/-- The number of reads of the file so far. -/
def readsOf (s : Sys) : File → Nat
  | .romfs fs _ => s.readfs fs
  | .rfs _      => s.remote.reads

/-- The two files are different, and in one file system the new file is behind the other. -/
def Apart (b base : Nat) (content : List UInt8) : File → File → Prop
  | .romfs fs fd, .romfs fs' fd' => fs = fs' → fd ≠ fd' ∧ b + content.length ≤ base
  | .rfs fd,      .rfs fd'       => fd ≠ fd'
  | _,            _              => True

namespace Copying
variable (c : Copying)

/-- The size of the buffer. -/
def bufsize : Nat := SHELL_COPY_BUFSIZE c.rfsBufferSize

/-- The bytes of the source that pass `k` is about. -/
def chunk (k : Nat) : List UInt8 := (c.content.drop (k * c.bufsize)).take c.bufsize

/-- What the read of pass `k` gives, `none` for −1. A call of `rfsc_read` that fails gives no
bytes, and so does a `readf` that comes back with none. -/
def given (k : Nat) : Option (List UInt8) :=
  match c.fds with
  | .rfs _ =>
    match c.fates.read (c.start.remote.reads + k) with
    | .done     => some (c.chunk k)
    | .failed _ => some []
  | .romfs fs _ =>
    if (c.start.romfs fs).fsdata.flags.direct then some (c.chunk k)
    else ((c.devices fs).readf (c.start.readfs fs + k)).given (c.chunk k)

/-- What is stored for the bytes of pass `k`. The close of the file comes after the last pass. -/
def storedAt (k : Nat) (bs : List UInt8) : List UInt8 :=
  match c.fdd with
  | .rfs _      => bs
  | .romfs fs _ => (c.devices fs).writef ((c.start.romfs fs).fsdata.medium.writes.length + k) bs

/-- What `k` passes store that go on. -/
def stored : Nat → List UInt8
  | 0     => []
  | k + 1 => stored k ++ c.storedAt k (c.chunk k)

/-- Pass `k` has room for so many bytes. -/
def Room (k len : Nat) : Prop :=
  match c.fdd with
  | .romfs _ _ => c.base + k * c.bufsize + len + ROMFS_ALIGN ≤ c.maxSize
  | .rfs _     => len = 0 ∨
      ∃ room, c.fates.write (c.start.remote.writes + k) = .done room ∧ len ≤ room

/-- Pass `k` goes on: a whole buffer is read, and written. -/
def GoesOn (k : Nat) : Prop :=
  c.given k = some (c.chunk k) ∧ (c.chunk k).length = c.bufsize ∧ c.Room k c.bufsize

/-- The copy ends with pass `k`, which reads less than a buffer, without an error. -/
def EndsAt (k : Nat) (got : List UInt8) : Prop :=
  (∀ j < k, c.GoesOn j) ∧ c.given k = some got ∧ got.length < c.bufsize ∧ c.Room k got.length

/-- What is stored by a copy that ends so is the file. On an internal file system the name must
lead to the new file when the loop begins, and the size that the close stores must be that of the
source, as well as the bytes behind it. -/
def Exact (k : Nat) (got : List UInt8) : Prop :=
  match c.fdd with
  | .rfs _      => c.stored k ++ c.storedAt k got = c.content
  | .romfs fs _ =>
    (∃ size, romfsOpenFile c.name.bytes (c.start.romfs fs).fsdata =
      some (.ok c.base size c.nameaddr)) ∧
    leVal (c.storedAt (k + 1) (leBytes ROMFS_SIZE_LEN (k * c.bufsize + got.length))) =
      c.content.length ∧
    ((c.start.romfs fs).fsdata.medium.bytes.store c.base
      (c.stored k ++ c.storedAt k got)).Holds c.base c.content

/-- The new file, with what is written of it by `n` writes. -/
def DestAt (s : Sys) (n : Nat) (written : List UInt8) : Prop :=
  match c.fdd with
  | .romfs fs fd =>
    LocalDest (s.romfs fs) fd c.base c.maxSize (c.start.romfs fs).fsdata n written
  | .rfs fd      => s.remote.files fd = ⟨written, written.length⟩

/-- The files after `k` passes that went on. -/
structure Pass (k : Nat) (s : Sys) : Prop where
  goesOn : ∀ j < k, c.GoesOn j
  source : SourceAt s c.b c.content (k * c.bufsize) c.fds
  dest : c.DestAt s k (c.stored k)
  reads : readsOf s c.fds = readsOf c.start c.fds + k
  writes : ∀ fd, c.fdd = .rfs fd → s.remote.writes = c.start.remote.writes + k
  flags : ∀ fs, (s.romfs fs).fsdata.flags = (c.start.romfs fs).fsdata.flags
  le : k * c.bufsize ≤ c.content.length

end Copying

/-! ### One pass -/

theorem ssize_of_lt (h : n ≤ 2 ^ 15) : ssize n = n := if_pos (by omega)

/-- What `read` returns for what it gives. -/
def readResult : Option (List UInt8) → Int × List UInt8
  | none     => (-1, [])
  | some got => (got.length, got)

section Steps
variable {c : Copying}

theorem bufsize_eq : c.bufsize = RFS_REAL_BUFFER_SIZE c.rfsBufferSize := rfl

theorem bufsize_le (hlarge : c.rfsBufferSize ≤ 15) : c.bufsize ≤ 2 ^ 15 :=
  Nat.le_trans (Nat.sub_le _ _) (Nat.pow_le_pow_right (by decide) hlarge)

theorem length_chunk_le (k : Nat) : (c.chunk k).length ≤ c.bufsize := List.length_take_le _ _

/-- What a read gives is the beginning of what there is. -/
theorem given_initial {k : Nat} {got : List UInt8} (h : c.given k = some got) :
    got <+: c.chunk k := by
  unfold Copying.given at h
  split at h
  · split at h
    · cases h
      exact List.prefix_rfl
    · cases h
      exact List.nil_prefix
  · split at h
    · cases h
      exact List.prefix_rfl
    · rename_i fs fd hfds hdirect
      cases hfate : (c.devices fs).readf (c.start.readfs fs + k) with
      | done =>
        rw [hfate] at h
        cases h
        exact List.prefix_rfl
      | short n =>
        rw [hfate] at h
        cases h
        exact List.take_prefix _ _
      | failed =>
        rw [hfate] at h
        cases h

/-- A read that fills the buffer gives all there is. -/
theorem given_full {k : Nat} {got : List UInt8} (h : c.given k = some got)
    (hlen : got.length = c.bufsize) : got = c.chunk k := by
  have hprefix := given_initial h
  refine hprefix.eq_of_length (Nat.le_antisymm hprefix.length_le ?_)
  rw [hlen]
  exact length_chunk_le k

theorem length_storedAt (k : Nat) (bs : List UInt8) : (c.storedAt k bs).length = bs.length := by
  unfold Copying.storedAt
  split
  · rfl
  · exact Device.length_writef _ _ _

/-- One internal file system changes, but not what it has of the new file. -/
theorem Copying.DestAt.update_romfs {s : Sys} (h : c.DestAt s n written) {fs : Nat}
    {st' : RomfsState} (readfs : Nat → Nat) (hframe : ∀ fd, c.fdd = .romfs fs fd →
      LocalDest (s.romfs fs) fd c.base c.maxSize (c.start.romfs fs).fsdata n written →
      LocalDest st' fd c.base c.maxSize (c.start.romfs fs).fsdata n written) :
    c.DestAt { s with romfs := Function.update s.romfs fs st', readfs := readfs } n written := by
  cases hfdd : c.fdd with
  | rfs fd =>
    simp only [Copying.DestAt, hfdd] at h ⊢
    exact h
  | romfs fs' fd =>
    simp only [Copying.DestAt, hfdd] at h ⊢
    by_cases heq : fs = fs'
    · subst heq
      rw [Function.update_self]
      exact hframe fd hfdd h
    · rw [Function.update_of_ne (Ne.symm heq)]
      exact h

/-- One file of the server changes, which is not the new one. -/
theorem Copying.DestAt.update_remote {s : Sys} (h : c.DestAt s n written) {fd : Nat}
    (hne : ∀ fd', c.fdd = .rfs fd' → fd ≠ fd') (file : RemoteFile) (reads writes : Nat) :
    c.DestAt { s with remote := ⟨Function.update s.remote.files fd file, reads, writes⟩ } n
      written := by
  cases hfdd : c.fdd with
  | romfs fs fd' =>
    simp only [Copying.DestAt, hfdd] at h ⊢
    exact h
  | rfs fd' =>
    simp only [Copying.DestAt, hfdd] at h ⊢
    rw [Function.update_of_ne (Ne.symm (hne fd' hfdd))]
    exact h

/-- The read of a pass gives what is known of it. Only the source moves, and when all bytes came it
stands behind them. -/
theorem read_gives (hpos : 0 < c.bufsize) (hlarge : c.rfsBufferSize ≤ 15)
    (hapart : Apart c.b c.base c.content c.fds c.fdd) {k : Nat} {s : Sys} (h : c.Pass k s) :
    ∃ s', Shell.read c.fates c.devices c.rfsBufferSize c.fds c.bufsize s =
        (readResult (c.given k), s') ∧
      Idle s' c.fds ∧ c.DestAt s' k (c.stored k) ∧
      (∀ fs, (s'.romfs fs).fsdata = (s.romfs fs).fsdata) ∧
      s'.remote.writes = s.remote.writes ∧ readsOf s' c.fds = readsOf c.start c.fds + (k + 1) ∧
      (c.given k = some (c.chunk k) → (c.chunk k).length = c.bufsize →
        SourceAt s' c.b c.content (k * c.bufsize + (c.chunk k).length) c.fds) := by
  have hle := bufsize_le hlarge
  obtain ⟨-, hsource, hdest, hreads, -, hflags, hend⟩ := h
  cases hfds : c.fds with
  | romfs fs fd =>
    rw [hfds] at hsource hapart hreads
    obtain ⟨hlt, ⟨flags, hread, hro, hfd⟩, hposle, hfits, hholds⟩ := hsource
    have hchunk : c.chunk k = (s.romfs fs).fsdata.medium.bytes.read (c.b + k * c.bufsize)
        (min c.bufsize (c.content.length - k * c.bufsize)) := by
      have hrest := hholds.drop hposle
      rw [hrest.read_take (by rw [List.length_drop]; exact Nat.min_le_right _ _),
        ← List.length_drop, ← List.take_take, List.take_length]
      rfl
    obtain ⟨res, pos', hcall, hres, hmoved⟩ := romfsReadROn_of_open (c.devices fs)
      (s.readfs fs) c.bufsize hread hfd hposle hfits hchunk
    have hgiven : c.given k = res.toOption := by
      rw [hres, hflags fs, show s.readfs fs = c.start.readfs fs + k from hreads]
      simp only [Copying.given, hfds]
    obtain ⟨st', hst⟩ : ∃ st' : RomfsState, { s.romfs fs with
        fdTable := (s.romfs fs).fdTable.set fd ⟨c.b, pos', c.content.length, flags⟩ } = st' :=
      ⟨_, rfl⟩
    rw [hst] at hcall
    have hfd' : st'.fd fd = ⟨c.b, pos', c.content.length, flags⟩ := by
      rw [← hst, fd_of_set rfl hlt, if_pos rfl]
    have hlt' : fd < st'.fdTable.length := by
      rw [← hst, List.length_set]
      exact hlt
    have hfsdata : st'.fsdata = (s.romfs fs).fsdata := by rw [← hst]
    refine ⟨{ s with
      romfs := Function.update s.romfs fs st'
      readfs := Function.update s.readfs fs (s.readfs fs + 1) }, ?_, ?_,
      hdest.update_romfs _ fun fd' heq hlocal => ?_, fun fs' => ?_, rfl, ?_, fun hall _ => ?_⟩
    · rw [Shell.read, hcall]
      have hshort : ∀ got, c.given k = some got → got.length ≤ 2 ^ 15 := fun got hgot =>
        Nat.le_trans (Nat.le_trans (given_initial hgot).length_le (length_chunk_le k)) hle
      cases res with
      | error e => rw [hgiven]; rfl
      | ok bs =>
        simp only
        rw [ssize_of_lt (hshort bs hgiven), hgiven]
        rfl
    · show fd < (Function.update s.romfs fs st' fs).fdTable.length ∧
        ((Function.update s.romfs fs st' fs).fd fd).flags.mayWrite = false
      rw [Function.update_self]
      exact ⟨hlt', by rw [hfd']; exact hro⟩
    · -- both descriptors are of one file system
      rw [heq] at hapart
      exact hlocal.set_fd hlt (Ne.symm (hapart rfl).1) (by rw [← hst]) hfsdata
    · show (Function.update s.romfs fs st' fs').fsdata = _
      by_cases heq : fs' = fs
      · rw [heq, Function.update_self, hfsdata]
      · rw [Function.update_of_ne heq]
    · show Function.update s.readfs fs (s.readfs fs + 1) fs = _
      rw [Function.update_self, show s.readfs fs = c.start.readfs fs + k from hreads]
      rfl
    · show LocalSource (Function.update s.romfs fs st' fs) fd c.b c.content _
      rw [Function.update_self]
      rw [hgiven] at hall
      have hlen : (c.chunk k).length = min c.bufsize (c.content.length - k * c.bufsize) := by
        rw [Copying.chunk, List.length_take, List.length_drop]
      refine ⟨hlt', ⟨flags, hread, hro, ?_⟩, by omega, hfits, hfsdata ▸ hholds⟩
      rw [hfd', hmoved hall]
  | rfs fd =>
    rw [hfds] at hsource hapart hreads
    obtain ⟨hfile, hposle⟩ := hsource
    have hne : ∀ fd', c.fdd = .rfs fd' → fd ≠ fd' := fun fd' heq => by
      rw [heq] at hapart
      exact hapart
    have hnumber : s.remote.reads = c.start.remote.reads + k := hreads
    have hgiven : c.given k = match c.fates.read s.remote.reads with
        | .done => some (c.chunk k)
        | .failed _ => some [] := by
      rw [hnumber]
      simp only [Copying.given, hfds]
    cases hfate : c.fates.read s.remote.reads with
    | done =>
      have hcall : rfscReadCall c.fates fd (RFS_REAL_BUFFER_SIZE c.rfsBufferSize) s.remote =
          (some (c.chunk k), ⟨Function.update s.remote.files fd
            ⟨c.content, k * c.bufsize + (c.chunk k).length⟩, s.remote.reads + 1,
            s.remote.writes⟩) := rfscReadCall_next hfate hfile
      rw [hfate] at hgiven
      refine ⟨{ s with remote := ⟨Function.update s.remote.files fd
        ⟨c.content, k * c.bufsize + (c.chunk k).length⟩, s.remote.reads + 1,
        s.remote.writes⟩ }, ?_, trivial, hdest.update_remote hne _ _ _, fun _ => rfl, rfl, ?_,
        fun _ _ => ⟨Function.update_self _ _ _, ?_⟩⟩
      · rw [Shell.read, bufsize_eq, hgiven]
        simp only [rfsReadR_buffer hpos, hcall, Option.getD_some]
        rw [ssize_of_lt (Nat.le_trans (length_chunk_le k) hle)]
        rfl
      · show s.remote.reads + 1 = _
        rw [hnumber]
        rfl
      · have hlen : (c.chunk k).length = min c.bufsize (c.content.length - k * c.bufsize) := by
          rw [Copying.chunk, List.length_take, List.length_drop]
        omega
    | failed moved =>
      obtain ⟨f, hcall⟩ := rfscReadCall_fails fd
        (RFS_REAL_BUFFER_SIZE c.rfsBufferSize) hfate
      rw [hfate] at hgiven
      refine ⟨{ s with remote := ⟨Function.update s.remote.files fd f, s.remote.reads + 1,
        s.remote.writes⟩ }, ?_, trivial, hdest.update_remote hne _ _ _, fun _ => rfl, rfl, ?_,
        fun hall hfull => ?_⟩
      · rw [Shell.read, bufsize_eq, hgiven]
        simp only [rfsReadR_buffer hpos, hcall, Option.getD_none]
        rfl
      · show s.remote.reads + 1 = _
        rw [hnumber]
        rfl
      · -- no bytes are no whole buffer
        rw [hgiven, Option.some.injEq] at hall
        rw [← hall, List.length_nil] at hfull
        omega

/-- A write with room puts what is stored for its bytes behind the others. -/
theorem write_room (hlarge : c.rfsBufferSize ≤ 15)
    (hapart : Apart c.b c.base c.content c.fds c.fdd) {k : Nat} {s : Sys} {got : List UInt8}
    (hdest : c.DestAt s k written) (hlen : written.length = k * c.bufsize)
    (hwrites : ∀ fd, c.fdd = .rfs fd → s.remote.writes = c.start.remote.writes + k)
    (hgot : got.length ≤ c.bufsize) (hroom : c.Room k got.length) :
    ∃ s', Shell.write c.fates c.devices c.rfsBufferSize c.fdd got s = ((got.length : Int), s') ∧
      c.DestAt s' (k + 1) (written ++ c.storedAt k got) ∧
      (∀ pos, SourceAt s c.b c.content pos c.fds → SourceAt s' c.b c.content pos c.fds) ∧
      (Idle s c.fds → Idle s' c.fds) ∧ readsOf s' c.fds = readsOf s c.fds ∧
      (∀ fs, (s'.romfs fs).fsdata.flags = (s.romfs fs).fsdata.flags) ∧
      (got ≠ [] → ∀ fd, c.fdd = .rfs fd →
        s'.remote.writes = c.start.remote.writes + (k + 1)) := by
  have hle := bufsize_le hlarge
  cases hfdd : c.fdd with
  | romfs fs fd =>
    simp only [Copying.DestAt, hfdd] at hdest
    simp only [Copying.Room, hfdd] at hroom
    rw [hfdd] at hapart
    obtain ⟨st', hwrite, hdest', htable, hothers⟩ := local_write_full (c.devices fs) hdest
      got (by rw [hlen]; exact hroom)
    have hflags : st'.fsdata.flags = (s.romfs fs).fsdata.flags :=
      hdest'.flags_eq.trans hdest.flags_eq.symm
    -- below the new file the medium is as it was
    have hbelow : Mem.Agree (s.romfs fs).fsdata.medium.bytes st'.fsdata.medium.bytes 0 c.base := by
      intro x _ hx
      rw [hdest.bytes_eq, hdest'.bytes_eq, Mem.store_of_lt _ _ _ hx, Mem.store_of_lt _ _ _ hx]
    refine ⟨{ s with romfs := Function.update s.romfs fs st' }, ?_, ?_, fun pos hsource => ?_,
      fun hidle => ?_, ?_, fun fs' => ?_, nofun⟩
    · rw [Shell.write, hwrite]
      simp only
      rw [ssize_of_lt (by omega)]
    · simp only [Copying.DestAt, Copying.storedAt, hfdd, Function.update_self]
      exact hdest'
    · cases hfds : c.fds with
      | rfs fd' =>
        rw [hfds] at hsource
        exact hsource
      | romfs fs' fd' =>
        rw [hfds] at hsource hapart
        show LocalSource (Function.update s.romfs fs st' fs') fd' c.b c.content pos
        by_cases heq : fs' = fs
        · subst heq
          rw [Function.update_self]
          obtain ⟨hlt, ⟨flags, hread, hro, hfd⟩, hpos, hend, hholds⟩ := hsource
          exact ⟨htable ▸ hlt, ⟨flags, hread, hro, (hothers fd' (hapart rfl).1).trans hfd⟩, hpos,
            hend, hbelow.holds (Nat.zero_le _) (hapart rfl).2 hholds⟩
        · rw [Function.update_of_ne heq]
          exact hsource
    · cases hfds : c.fds with
      | rfs fd' => trivial
      | romfs fs' fd' =>
        rw [hfds] at hidle hapart
        show fd' < (Function.update s.romfs fs st' fs').fdTable.length ∧
          ((Function.update s.romfs fs st' fs').fd fd').flags.mayWrite = false
        by_cases heq : fs' = fs
        · subst heq
          rw [Function.update_self, htable, hothers fd' (hapart rfl).1]
          exact hidle
        · rw [Function.update_of_ne heq]
          exact hidle
    · cases c.fds with
      | rfs fd' => rfl
      | romfs fs' fd' => rfl
    · show (Function.update s.romfs fs st' fs').fsdata.flags = _
      by_cases heq : fs' = fs
      · rw [heq, Function.update_self, hflags]
      · rw [Function.update_of_ne heq]
  | rfs fd =>
    simp only [Copying.DestAt, hfdd] at hdest
    simp only [Copying.Room, hfdd] at hroom
    rw [hfdd] at hapart
    have hsame : c.storedAt k got = got := by simp only [Copying.storedAt, hfdd]
    by_cases hnil : got = []
    · -- nothing is sent for no bytes
      subst hnil
      refine ⟨s, ?_, ?_, fun _ => id, id, rfl, fun _ => rfl, fun hne => absurd rfl hne⟩
      · rw [Shell.write, List.length_nil, rfsWriteR_nil]
        rfl
      · simp only [Copying.DestAt, hfdd]
        rw [hsame, List.append_nil]
        exact hdest
    · obtain ⟨room, hfate, hfit⟩ := hroom.resolve_left fun hzero =>
        hnil (List.length_eq_zero_iff.mp hzero)
      rw [← hwrites fd hfdd] at hfate
      have hcall := rfscWriteCall_end hfate hfit hdest
      refine ⟨{ s with remote := ⟨Function.update s.remote.files fd
        ⟨written ++ got, (written ++ got).length⟩, s.remote.reads, s.remote.writes + 1⟩ },
        ?_, ?_, fun pos hsource => ?_, fun hidle => ?_, ?_, fun _ => rfl, fun _ _ _ => ?_⟩
      · rw [Shell.write, rfsWriteR_buffer hnil hgot]
        simp only [hcall, Option.getD_some]
        rw [ssize_of_lt (by omega)]
      · simp only [Copying.DestAt, hfdd]
        rw [hsame]
        exact Function.update_self _ _ _
      · cases hfds : c.fds with
        | romfs fs' fd' =>
          rw [hfds] at hsource
          exact hsource
        | rfs fd' =>
          rw [hfds] at hsource hapart
          refine ⟨?_, hsource.2⟩
          show Function.update s.remote.files fd _ fd' = _
          rw [Function.update_of_ne hapart]
          exact hsource.1
      · cases hfds : c.fds with
        | romfs fs' fd' =>
          rw [hfds] at hidle
          exact hidle
        | rfs fd' => trivial
      · cases c.fds with
        | romfs fs' fd' => rfl
        | rfs fd' => rfl
      · show s.remote.writes + 1 = _
        rw [hwrites fd hfdd]
        rfl

/-- A write without the room is seen in its result. -/
theorem write_short (hlarge : c.rfsBufferSize ≤ 15) {k : Nat} {s : Sys} {got : List UInt8}
    (hdest : c.DestAt s k written) (hlen : written.length = k * c.bufsize)
    (hwrites : ∀ fd, c.fdd = .rfs fd → s.remote.writes = c.start.remote.writes + k)
    (hgot : got.length ≤ c.bufsize) (hroom : ¬ c.Room k got.length) :
    (Shell.write c.fates c.devices c.rfsBufferSize c.fdd got s).1 < got.length := by
  have hle := bufsize_le hlarge
  cases hfdd : c.fdd with
  | romfs fs fd =>
    simp only [Copying.DestAt, hfdd] at hdest
    simp only [Copying.Room, hfdd] at hroom
    obtain ⟨len, st', hwrite, hshort⟩ := local_write_short (c.devices fs) hdest got
      (by omega) (by rw [hlen]; exact hroom)
    rw [Shell.write, hwrite]
    exact hshort
  | rfs fd =>
    simp only [Copying.Room, hfdd, not_or] at hroom
    obtain ⟨hpos, hfates⟩ := hroom
    have hne : got ≠ [] := fun hnil => hpos (by rw [hnil]; rfl)
    rw [Shell.write, rfsWriteR_buffer hne hgot]
    simp only
    rw [rfscWriteCall]
    cases hfate : c.fates.write s.remote.writes with
    | done room =>
      have hless : room < got.length := by
        by_contra hge
        exact hfates ⟨room, hwrites fd hfdd ▸ hfate, by omega⟩
      simp only [Option.getD_some, List.length_take, Nat.min_eq_left (Nat.le_of_lt hless)]
      rw [ssize_of_lt (by omega)]
      omega
    | failed room =>
      simp only [Option.getD_none]
      rw [ssize_of_lt (by omega)]
      omega

end Steps

/-! ### The loop -/

section Loop
variable {c : Copying} {k : Nat} {s : Sys}

/-- The passes that went on have stored as many bytes as they have read. -/
theorem length_stored (hgoes : ∀ j < k, c.GoesOn j) : (c.stored k).length = k * c.bufsize := by
  induction k with
  | zero => rw [Nat.zero_mul]; rfl
  | succ k ih =>
    rw [Copying.stored, List.length_append, length_storedAt, (hgoes k (Nat.lt_succ_self k)).2.1,
      ih fun j hj => hgoes j (Nat.lt_succ_of_lt hj), Nat.succ_mul]

/-- Both files at the end of the loop, when its last pass `k` has read `got`. -/
def Copying.Ended (c : Copying) (k : Nat) (got : List UInt8) (s : Sys) : Prop :=
  Idle s c.fds ∧ c.DestAt s (k + 1) (c.stored k ++ c.storedAt k got)

section Body
variable (hpos : 0 < c.bufsize) (hlarge : c.rfsBufferSize ≤ 15)
  (hapart : Apart c.b c.base c.content c.fds c.fdd) (h : c.Pass k s)
include hpos hlarge hapart h

/-- A pass that reads a whole buffer and writes it goes on. -/
theorem body_goesOn (hgoes : c.GoesOn k) :
    ∃ s', copyBody c.fates c.devices c.rfsBufferSize c.fds c.fdd s = .inr s' ∧
      c.Pass (k + 1) s' := by
  obtain ⟨hgiven, hfull, hroom⟩ := hgoes
  obtain ⟨s₁, hread, -, hdest, hfsdata, hwrites, hreads, hsource⟩ := read_gives hpos hlarge hapart h
  have hnumber : ∀ fd, c.fdd = .rfs fd → s₁.remote.writes = c.start.remote.writes + k :=
    fun fd hfdd => hwrites.trans (h.writes fd hfdd)
  obtain ⟨s₂, hwrite, hdest₂, hkeep, -, hreads₂, hflags₂, hwrites₂⟩ := write_room hlarge hapart
    hdest (length_stored h.goesOn) hnumber (length_chunk_le k) (hfull.symm ▸ hroom)
  have hne : c.chunk k ≠ [] := by
    intro hnil
    rw [hnil, List.length_nil] at hfull
    omega
  have hend : k * c.bufsize + (c.chunk k).length = (k + 1) * c.bufsize := by
    rw [hfull, Nat.succ_mul]
  rw [hgiven] at hread
  refine ⟨s₂, ?_, fun j hj => ?_, ?_, hdest₂, hreads₂.trans hreads, hwrites₂ hne,
    fun fs => ?_, ?_⟩
  · rw [copyBody, show SHELL_COPY_BUFSIZE c.rfsBufferSize = c.bufsize from rfl, hread]
    simp only [readResult, hwrite, lt_irrefl, if_false, hfull]
    rw [if_neg (by omega), if_neg (by omega)]
  · rcases Nat.lt_succ_iff_lt_or_eq.mp hj with hless | rfl
    · exact h.goesOn j hless
    · exact ⟨hgiven, hfull, hroom⟩
  · rw [← hend]
    exact hkeep _ (hsource hgiven hfull)
  · rw [hflags₂ fs, hfsdata fs, h.flags fs]
  · have hlength : (c.chunk k).length ≤ c.content.length - k * c.bufsize := by
      rw [Copying.chunk, ← List.length_drop]
      exact (List.take_sublist _ _).length_le
    have hbound := h.le
    omega

/-- A pass that reads less than a buffer, without an error, is the last when it can be written. -/
theorem body_ends {got : List UInt8} (hgiven : c.given k = some got)
    (hless : got.length < c.bufsize) (hroom : c.Room k got.length) :
    ∃ s', copyBody c.fates c.devices c.rfsBufferSize c.fds c.fdd s = .inl (true, s') ∧
      c.Ended k got s' := by
  obtain ⟨s₁, hread, hidle, hdest, -, hwrites, -⟩ := read_gives hpos hlarge hapart h
  have hnumber : ∀ fd, c.fdd = .rfs fd → s₁.remote.writes = c.start.remote.writes + k :=
    fun fd hfdd => hwrites.trans (h.writes fd hfdd)
  obtain ⟨s₂, hwrite, hdest₂, -, hkeep, -⟩ := write_room hlarge hapart
    hdest (length_stored h.goesOn) hnumber (Nat.le_of_lt hless) hroom
  rw [hgiven] at hread
  refine ⟨s₂, ?_, hkeep hidle, hdest₂⟩
  rw [copyBody, show SHELL_COPY_BUFSIZE c.rfsBufferSize = c.bufsize from rfl, hread]
  simp only [readResult, hwrite, lt_irrefl, if_false, Int.ofNat_lt]
  rw [if_neg (by omega), if_neg (by omega), if_pos hless]

/-- A read that fails, or a write without the room, ends the copy with an error. -/
theorem body_fails (hfails : ∀ got, c.given k = some got → ¬ c.Room k got.length) :
    ∃ s', copyBody c.fates c.devices c.rfsBufferSize c.fds c.fdd s = .inl (false, s') := by
  obtain ⟨s₁, hread, -, hdest, -, hwrites, -⟩ := read_gives hpos hlarge hapart h
  rw [copyBody, show SHELL_COPY_BUFSIZE c.rfsBufferSize = c.bufsize from rfl, hread]
  cases hgiven : c.given k with
  | none => exact ⟨s₁, if_pos rfl⟩
  | some got =>
    have hshort := write_short hlarge hdest (length_stored h.goesOn)
      (fun fd hfdd => hwrites.trans (h.writes fd hfdd))
      (Nat.le_trans (given_initial hgiven).length_le (length_chunk_le k)) (hfails got hgiven)
    have hne : ¬ (readResult (some got)).1 = -1 := by
      show ¬ (got.length : Int) = -1
      omega
    rw [if_neg hne]
    by_cases hminus : (write c.fates c.devices c.rfsBufferSize c.fdd got s₁).1 = -1
    · exact ⟨_, if_pos hminus⟩
    · exact ⟨_, (if_neg hminus).trans (if_pos hshort)⟩

end Body

variable (hpos : 0 < c.bufsize) (hlarge : c.rfsBufferSize ≤ 15)
  (hapart : Apart c.b c.base c.content c.fds c.fdd)
include hpos hlarge hapart

/-- A loop that gets to its end has ended with a pass that is known beforehand. -/
theorem loop_sound (h₀ : c.Pass 0 c.start) {s' : Sys}
    (hrun : Loop.run (copyBody c.fates c.devices c.rfsBufferSize c.fds c.fdd) n c.start =
      some (true, s')) : ∃ k got, c.EndsAt k got ∧ c.Ended k got s' := by
  -- every pass so far went on
  let Q := fun r : Bool × Sys => r.1 = true → ∃ k got, c.EndsAt k got ∧ c.Ended k got r.2
  have hstep : ∀ s, (∃ k, c.Pass k s) →
      (∃ r, copyBody c.fates c.devices c.rfsBufferSize c.fds c.fdd s = .inl r ∧ Q r) ∨
      ∃ s', copyBody c.fates c.devices c.rfsBufferSize c.fds c.fdd s = .inr s' ∧
        ∃ k, c.Pass k s' := by
    rintro s ⟨k, h⟩
    by_cases hroom : ∃ got, c.given k = some got ∧ c.Room k got.length
    · obtain ⟨got, hgiven, hroom⟩ := hroom
      by_cases hless : got.length < c.bufsize
      · obtain ⟨s', hbody, hended⟩ := body_ends hpos hlarge hapart h hgiven hless hroom
        exact .inl ⟨_, hbody, fun _ => ⟨k, got, ⟨h.goesOn, hgiven, hless, hroom⟩, hended⟩⟩
      · have hbound := Nat.le_trans (given_initial hgiven).length_le (length_chunk_le k)
        have hfull : got.length = c.bufsize := by omega
        have hall := given_full hgiven hfull
        rw [hall] at hgiven hfull
        rw [hall, hfull] at hroom
        obtain ⟨s', hbody, hnext⟩ := body_goesOn hpos hlarge hapart h ⟨hgiven, hfull, hroom⟩
        exact .inr ⟨s', hbody, k + 1, hnext⟩
    · obtain ⟨s', hbody⟩ := body_fails hpos hlarge hapart h
        fun got hgiven hr => hroom ⟨got, hgiven, hr⟩
      exact .inl ⟨_, hbody, nofun⟩
  refine Loop.run_inv (P := fun s => ∃ k, c.Pass k s) (Q := Q) (fun s s' hP hbody => ?_)
    (fun s r hP hbody => ?_) ⟨0, h₀⟩ hrun rfl
  · rcases hstep s hP with ⟨r, hexit, -⟩ | ⟨t, hnext, ht⟩
    · rw [hexit] at hbody
      cases hbody
    · rw [hnext] at hbody
      cases hbody
      exact ht
  · rcases hstep s hP with ⟨r', hexit, hr⟩ | ⟨t, hnext, -⟩
    · rw [hexit] at hbody
      cases hbody
      exact hr
    · rw [hnext] at hbody
      cases hbody

/-- And the loop gets there. -/
theorem loop_ends (h₀ : c.Pass 0 c.start) {k : Nat} {got : List UInt8} (hends : c.EndsAt k got) :
    ∃ n s', Loop.run (copyBody c.fates c.devices c.rfsBufferSize c.fds c.fdd) n c.start =
      some (true, s') ∧ c.Ended k got s' := by
  obtain ⟨hgoes, hgiven, hless, hroom⟩ := hends
  -- from any pass up to that one
  have hfrom : ∀ m j s, j + m = k → c.Pass j s →
      ∃ n s', Loop.run (copyBody c.fates c.devices c.rfsBufferSize c.fds c.fdd) n s =
        some (true, s') ∧ c.Ended k got s' := by
    intro m
    induction m with
    | zero =>
      intro j s hj hpass
      obtain rfl : j = k := hj
      obtain ⟨s', hbody, hended⟩ := body_ends hpos hlarge hapart hpass hgiven hless hroom
      exact ⟨1, s', Loop.run_succ_of_inl hbody 0, hended⟩
    | succ m ih =>
      intro j s hj hpass
      obtain ⟨s', hbody, hnext⟩ := body_goesOn hpos hlarge hapart hpass (hgoes j (by omega))
      obtain ⟨n, s'', hrun, hended⟩ := ih (j + 1) s' (by omega) hnext
      exact ⟨n + 1, s'', by rw [Loop.run_succ_of_inr hbody, hrun], hended⟩
  exact hfrom k 0 c.start (Nat.zero_add k) h₀

end Loop

/-! ### The close -/

/-- The record of the new file is behind the others of a WOFS. -/
structure NewRecord (pfs : FSDATA) (nameaddr base : Nat) : Prop where
  wo : pfs.flags.wo = true
  chain : ∃ rs, Chain pfs 0 rs nameaddr
  le : nameaddr + ROMFS_SIZE_LEN ≤ base

/-- The file that the copy has made is `content`: on an internal file system its name leads to it,
and its size and contents are those. -/
def Copied (s : Sys) (p : Places) : File → Prop
  | .romfs fs _ =>
    romfsOpenFile p.name.bytes (s.romfs fs).fsdata =
      some (.ok p.base p.content.length p.nameaddr) ∧
    (s.romfs fs).fsdata.medium.bytes.Holds p.base p.content
  | .rfs fd => (s.remote.files fd).content = p.content

section Close
variable {c : Copying} {k : Nat} {got : List UInt8} {s : Sys}

/-- Nothing changes for the new file when the source is closed. -/
theorem Copying.DestAt.close_source (hapart : Apart c.b c.base c.content c.fds c.fdd)
    (hidle : Idle s c.fds) (hdest : c.DestAt s n written) :
    c.DestAt (close c.devices c.fds s) n written := by
  cases hfds : c.fds with
  | rfs fd => exact hdest
  | romfs fs fd =>
    rw [hfds] at hidle hapart
    refine hdest.update_romfs s.readfs fun fd' heq hlocal => ?_
    rw [heq] at hapart
    refine hlocal.set_fd hidle.1 (Ne.symm (hapart rfl).1) rfl ?_
    rw [romfsCloseROn_fsdata, hidle.2]
    rfl

/-- Once both files are closed, the copy is the file just when what is stored is. -/
theorem copied_iff (hapart : Apart c.b c.base c.content c.fds c.fdd)
    (hnew : ∀ fs fd, c.fdd = .romfs fs fd →
      NewRecord (c.start.romfs fs).fsdata c.nameaddr c.base)
    (hgoes : ∀ j < k, c.GoesOn j) (hended : c.Ended k got s) (res : Bool) :
    Copied (done c.devices res (some c.fds) (some c.fdd) s).2 c.toPlaces c.fdd ↔
      c.Exact k got := by
  obtain ⟨hidle, hdest⟩ := hended
  replace hdest := hdest.close_source hapart hidle
  show Copied (close c.devices c.fdd (close c.devices c.fds s)) _ _ ↔ _
  generalize close c.devices c.fds s = s at hdest
  have hlength : (c.stored k ++ c.storedAt k got).length = k * c.bufsize + got.length := by
    rw [List.length_append, length_stored hgoes, length_storedAt]
  generalize hwritten : c.stored k ++ c.storedAt k got = written at hdest hlength
  cases hfdd : c.fdd with
  | rfs fd =>
    simp only [Copying.DestAt, hfdd] at hdest
    simp only [Copying.Exact, hfdd, hwritten]
    show (s.remote.files fd).content = _ ↔ _
    rw [hdest]
  | romfs fs fd =>
    simp only [Copying.DestAt, hfdd] at hdest
    obtain ⟨hwo, ⟨rs, hchain⟩, hname⟩ := hnew fs fd hfdd
    obtain ⟨hlt, ⟨flags, hmay, hfd⟩, hmax, hle, hsize, hend, hflags, hbytes, hwrites⟩ := hdest
    simp only [Copying.Exact, Copying.storedAt, hfdd]
    have hstored := hwritten
    simp only [Copying.storedAt, hfdd] at hstored
    rw [hstored, ← hlength]
    have hat : sub32 c.base ROMFS_SIZE_LEN = c.base - 4 := sub32_of_le hsize (by omega)
    rw [ROMFS_SIZE_LEN] at hsize hname
    -- the medium in the end
    obtain ⟨fin, hfin⟩ : ∃ fin, fin =
        (romfsCloseROn (c.devices fs) fd (s.romfs fs)).fsdata := ⟨_, rfl⟩
    have hcopied : Copied (close c.devices (.romfs fs fd) s) c.toPlaces (.romfs fs fd) ↔
        romfsOpenFile c.name.bytes fin = some (.ok c.base c.content.length c.nameaddr) ∧
          fin.medium.bytes.Holds c.base c.content := by
      rw [hfin, Copied]
      simp only [close, Function.update_self]
    rw [hcopied]
    rw [romfsCloseROn_fsdata, hfd] at hfin
    simp only [hmay, if_true] at hfin
    rw [FSDATA.writefOn, hwrites, hat] at hfin
    generalize hbs : (c.devices fs).writef ((c.start.romfs fs).fsdata.medium.writes.length +
      (k + 1)) (leBytes ROMFS_SIZE_LEN written.length) = bs at hfin ⊢
    have hlen : bs.length = 4 := by rw [← hbs, Device.length_writef, length_leBytes]; rfl
    have hmem : fin.medium.bytes =
        ((c.start.romfs fs).fsdata.medium.bytes.store c.base written).store (c.base - 4) bs := by
      rw [hfin, FSDATA.setWriting_medium, FSDATA.writef_bytes, hbytes]
    have hwo' : fin.flags.wo = true := by
      rw [hfin, FSDATA.setWriting_flags, FSDATA.writef_flags, hflags]
      exact hwo
    have hread : romfsReadSize fin (c.base - 4) = leVal bs := by
      refine romfsReadSize_of_holds ?_ ?_ (by omega)
      · have hbytes : leBytes ROMFS_SIZE_LEN (leVal bs) = bs := by
          have h := leBytes_leVal bs
          rwa [hlen] at h
        rw [hbytes, hmem]
        exact Mem.holds_store_self _ _ _
      · exact lt_of_lt_of_eq (leVal_lt bs) (by rw [hlen]; rfl)
    -- nothing below the size has changed, and behind it are the bytes that were stored
    have hbelow : Mem.Agree (c.start.romfs fs).fsdata.medium.bytes fin.medium.bytes 0
        (c.base - 4) := by
      intro x _ hx
      rw [hmem, Mem.store_of_lt _ _ _ hx, Mem.store_of_lt _ _ _ (by omega)]
    have habove : Mem.Agree fin.medium.bytes
        ((c.start.romfs fs).fsdata.medium.bytes.store c.base written) c.base
        (c.base + c.content.length) := by
      intro x hx _
      rw [hmem, Mem.store_of_ge _ _ _ (by omega)]
    have hchain' : Chain fin 0 rs c.nameaddr :=
      hchain.frame (hwo'.trans hwo.symm) (hbelow.mono (Nat.le_refl 0) (by omega))
    constructor
    · rintro ⟨hlookup, hholds⟩
      have hbefore := lookup_frame hchain' hwo' hwo (by omega) (by omega)
        (fun x h₀ hx => (hbelow x h₀ hx).symm) hlookup
      have hagain := lookup_frame hchain hwo hwo' (by omega) (by omega) hbelow hbefore
      rw [hlookup, Option.some.injEq, OpenFile.ok.injEq, hread] at hagain
      exact ⟨⟨_, hbefore⟩, hagain.2.1.symm,
        habove.holds (Nat.le_refl _) (Nat.le_refl _) hholds⟩
    · rintro ⟨⟨size, hlookup⟩, hsizes, hholds⟩
      have hfound := lookup_frame hchain hwo hwo' (by omega) (by omega) hbelow hlookup
      rw [hread, hsizes] at hfound
      exact ⟨hfound, Mem.Agree.holds (fun x h₁ h₂ => (habove x h₁ h₂).symm) (Nat.le_refl _)
        (Nat.le_refl _) hholds⟩

end Close

/-! ### The command -/

section Command
variable (fates : Fates) (devices : Nat → Device) (rfsBufferSize : Nat) (args : CopyArgs)
  (con : Console) (p : Places)

/-- The copy gets to its loop, with these two files. -/
def Begins (fds fdd : File) : Prop :=
  lower args.psrcname.bytes ≠ lower args.pdestname.bytes ∧
    (args.askConfirmation = true → con.confirm = true) ∧ con.source = some fds ∧
    (args.forceDestination = false → con.existing = true → con.overwrite = true) ∧
    con.malloc = true ∧ con.dest = some fdd

/-- The loop with these files. -/
def copying (fds fdd : File) : Copying :=
  { p with fates, devices, rfsBufferSize, fds, fdd, start := con.sys }

/-- A file that is empty. On an internal file system its record is behind the others, with any
bytes in the place of its name. -/
def NewFile (s : Sys) (p : Places) : File → Prop
  | .romfs fs fd =>
    LocalDest (s.romfs fs) fd p.base p.maxSize (s.romfs fs).fsdata 0 [] ∧
      NewRecord (s.romfs fs).fsdata p.nameaddr p.base
  | .rfs fd => s.remote.files fd = ⟨[], 0⟩

/-- What the calls of `open` give: a file of these contents at its start, a file that is empty, and
the two are different files. -/
def Opened : Prop :=
  ∀ fds ∈ con.source, ∀ fdd ∈ con.dest, SourceAt con.sys p.b p.content 0 fds ∧
    NewFile con.sys p fdd ∧ Apart p.b p.base p.content fds fdd

/-- When the result is 1, the destination is the source. -/
def AllOrNothing : Prop :=
  ∀ n s', shellhCpFile fates devices rfsBufferSize args con n = some (true, s') →
    ∃ fdd, con.dest = some fdd ∧ Copied s' p fdd

variable {fates devices rfsBufferSize args con p}

/-- A copy that begins is the loop. -/
theorem shellhCpFile_of_begins {fds fdd : File} (h : Begins args con fds fdd)
    (hsim : args.simulateOnly = false) (n : Nat) :
    shellhCpFile fates devices rfsBufferSize args con n =
      (Loop.run (copyBody fates devices rfsBufferSize fds fdd) n con.sys).map fun r =>
        done devices r.1 (some fds) (some fdd) r.2 := by
  obtain ⟨hnames, hconfirm, hsource, hover, hmalloc, hdest⟩ := h
  have hask : (args.askConfirmation && !con.confirm) = false := by
    cases hq : args.askConfirmation with
    | false => rfl
    | true => rw [hconfirm hq]; rfl
  have hoverwrite : (!args.forceDestination && con.existing && !con.overwrite) = false := by
    cases hf : args.forceDestination with
    | true => rfl
    | false =>
      cases he : con.existing with
      | false => rfl
      | true => rw [hover hf he]; rfl
  rw [shellhCpFile, if_neg hnames, hask, hsource]
  simp only [hoverwrite, hmalloc, hsim, hdest, Bool.false_eq_true, if_false, Bool.not_true]

/-- A copy that reports success has begun. -/
theorem begins_of_success {s' : Sys} (hsim : args.simulateOnly = false)
    (h : shellhCpFile fates devices rfsBufferSize args con n = some (true, s')) :
    ∃ fds fdd, Begins args con fds fdd := by
  rw [shellhCpFile] at h
  split at h
  · cases h
  rename_i hnames
  split at h
  · cases h
  rename_i hask
  split at h
  · cases h
  rename_i fds hsource
  split at h
  · cases h
  rename_i hover
  split at h
  · cases h
  rename_i hmalloc
  rw [hsim, if_neg (by decide)] at h
  split at h
  · cases h
  rename_i fdd hdest
  simp only [Bool.and_eq_true, Bool.not_eq_eq_eq_not, Bool.not_true, not_and, Bool.not_eq_false]
    at hask hover hmalloc
  exact ⟨fds, fdd, hnames, hask, hsource, fun hf he => hover ⟨hf, he⟩, hmalloc, hdest⟩

/-- The loop starts with both files as `open` gave them. -/
theorem pass_zero {fds fdd : File} (hopened : Opened con p) (h : Begins args con fds fdd) :
    (copying fates devices rfsBufferSize con p fds fdd).Pass 0 con.sys := by
  obtain ⟨-, -, hsource, -, -, hdest⟩ := h
  obtain ⟨hread, hnew, -⟩ := hopened fds hsource fdd hdest
  refine ⟨fun j hj => absurd hj (Nat.not_lt_zero j), ?_, ?_, rfl, fun _ _ => rfl, fun _ => rfl, ?_⟩
  · rw [Nat.zero_mul]
    exact hread
  · cases fdd with
    | romfs fs fd => exact hnew.1
    | rfs fd => exact hnew
  · rw [Nat.zero_mul]
    exact Nat.zero_le _

end Command

/-! ### Nothing fails -/

/-- What is stored is the file when the last read gives all that is left, every call of `writef`
stores its bytes, and the name leads to the new file. -/
theorem exact_of_intact {c : Copying} {k : Nat} {got : List UInt8} (hends : c.EndsAt k got)
    (hall : c.given k = some (c.chunk k)) (hstores : ∀ j ≤ k + 1, ∀ bs, c.storedAt j bs = bs)
    (hmax : c.maxSize ≤ 2 ^ 31)
    (hfound : ∀ fs fd, c.fdd = .romfs fs fd → ∃ size,
      romfsOpenFile c.name.bytes (c.start.romfs fs).fsdata = some (.ok c.base size c.nameaddr)) :
    c.Exact k got := by
  obtain ⟨hgoes, hgiven, hless, hroom⟩ := hends
  obtain rfl : c.chunk k = got := Option.some.inj (hall.symm.trans hgiven)
  have hpassed : ∀ j ≤ k, c.stored j = c.content.take (j * c.bufsize) := by
    intro j
    induction j with
    | zero =>
      intro _
      rw [Nat.zero_mul, List.take_zero]
      rfl
    | succ j ih =>
      intro hj
      rw [Copying.stored, ih (Nat.le_of_succ_le hj), hstores j (by omega), Nat.succ_mul,
        List.take_add]
      rfl
  have hrest : c.chunk k = c.content.drop (k * c.bufsize) := by
    rw [Copying.chunk, List.length_take, List.length_drop] at hless
    exact List.take_of_length_le (by rw [List.length_drop]; omega)
  have hstored : c.stored k ++ c.storedAt k (c.chunk k) = c.content := by
    rw [hpassed k (Nat.le_refl k), hstores k (by omega), hrest, List.take_append_drop]
  cases hfdd : c.fdd with
  | rfs fd =>
    simp only [Copying.Exact, hfdd]
    exact hstored
  | romfs fs fd =>
    have hlength := congrArg List.length hstored
    rw [List.length_append, length_stored hgoes, length_storedAt] at hlength
    simp only [Copying.Room, hfdd] at hroom
    simp only [Copying.Exact, hfdd]
    refine ⟨hfound fs fd hfdd, ?_, ?_⟩
    · rw [hstores (k + 1) (Nat.le_refl _), hlength, leVal_leBytes]
      exact Nat.mod_eq_of_lt (show c.content.length < 256 ^ 4 by omega)
    · rw [hstored]
      exact Mem.holds_store_self _ _ _

/-! ### Failures that are not reported -/

def copyArgs : CopyArgs := ⟨.ofByte 97, .ofByte 98, false, true, false⟩

/-- A WOFS of 64 bytes with one file, which was just created and has the name `b`. -/
def newWofs : RomfsState where
  fdTable := ⟨12, 0, 0, { write := true }⟩ :: List.replicate 7 FD.unused
  romfsNumFd := 1
  romfsDirData := 0
  fsdata :=
    { medium := ⟨Mem.store (fun _ => 0xFF) 0 [98, 0], [(0, [98, 0])]⟩
      flags := { wo := true, writing := true }
      maxSize := 64
      maxSize_lt := by decide }

/-- A file of three bytes on the server is copied to that file. -/
def fetch : Console where
  confirm := true
  source := some (.rfs 1)
  existing := false
  overwrite := false
  malloc := true
  dest := some (.romfs 0 0)
  sys := ⟨fun _ => newWofs, fun _ => 0, ⟨fun _ => ⟨[1, 2, 3], 0⟩, 0, 0⟩⟩

/-- Where the two files are. -/
def fetched : Places := ⟨[1, 2, 3], 0, .ofByte 98, 0, 12, 64⟩

theorem fetch_opened : Opened fetch fetched := by
  rintro fds ⟨⟩ fdd ⟨⟩
  refine ⟨⟨rfl, by decide⟩, ⟨⟨by decide, ⟨{ write := true }, rfl, rfl⟩, rfl, by decide, by decide,
    by decide, rfl, (Mem.store_nil _ _).symm, rfl⟩, rfl, ⟨[], .nil 0⟩, by decide⟩, trivial⟩

theorem fetch_found :
    romfsOpenFile fetched.name.bytes newWofs.fsdata = some (.ok 12 0xFFFFFFFF 0) :=
  run_u32_of_run (fun _ _ => romfsOpenFileBody_lt) (by decide) (Loop.run_succ_of_inl (by decide) 0)

end Alcor.Proofs.Shell
