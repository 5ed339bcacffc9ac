import Mathlib.Logic.Function.Basic
import Alcor.Romfs.Ops
import Alcor.Lib.Run

/-!
# `Alcor.Romfs.Directory`: directories and images

The records of a medium as a directory, its iteration, and the image
that the build writes.

* `FileRec`, `RecordAt`: a record, and that it stands in the bytes of a
  medium at some offset.
* `Chain`: records one behind the other. It depends only on the bytes
  between its ends (`Chain.frame`).
* `Dirs`: iterations that go on at the same time, on one position.
* `mkfs`: the encoder of `utils/mkfs.lua`.
-/

set_option autoImplicit false

/-!
## The records on a medium

The file systems keep no table of files. A file is a record on the
medium, and the next record starts where the contents of this one end.
`FileRec` is what a record stands for, `RecordAt pfs i r` says that
the bytes at offset `i` are the record of `r`, and `Chain pfs i rs k`
says that the records of `rs` follow one another from `i` to `k`.

A record whose size was never written has `closed = false`. Its size
field is `0xFFFFFFFF`, and the scan then goes on at the start of its
contents: `base + 0xFFFFFFFF`, rounded up, is `base` again.

`Lists st es` says what repeated calls of `romfs_readdir_r` report.
-/

namespace Alcor.Romfs

open Lib

variable {pfs : FSDATA} {i k : Nat}

/-- The size field of a record whose size was never written. -/
def NO_SIZE : Nat := 0xFFFFFFFF

/-- A name a file can be stored under: 1 to 30 bytes, the first of them neither the end marker
nor the name that the search for free space asks for. -/
structure StorableName (name : CStr) : Prop where
  nonempty : name.bytes ≠ []
  length_le : name.bytes.length ≤ DM_MAX_FNAME_LENGTH
  head : name.bytes.head? ≠ some WOFS_END_MARKER_CHAR
  head_ne_one : name.bytes.head? ≠ some 1

/-- A file of the file system, as its record stands for it. -/
structure FileRec where
  /-- Name of the file. -/
  name : List UInt8
  /-- Address of the contents. -/
  base : Nat
  /-- The contents. -/
  data : List UInt8
  /-- The size is in the record. -/
  closed : Bool
  /-- The record carries the deletion mark. -/
  deleted : Bool
deriving DecidableEq

variable {r : FileRec} {rs : List FileRec}

/-- Round up to a multiple of the alignment, without a bound on the result. -/
def alignUp (x : Nat) : Nat := (x + 3) / 4 * 4

/-- Where the contents of a record at `i` with a name of `len` bytes start. -/
def contentsAt (wo : Bool) (i len : Nat) : Nat :=
  alignUp (i + len + 1) + (if wo then 8 else 4)

namespace FileRec

/-- The size field of the record. -/
def sizeField (r : FileRec) : Nat := if r.closed then r.data.length else NO_SIZE

/-- The bytes between the start of the contents and the next record that the scan knows of. -/
def span (r : FileRec) : Nat := if r.closed then r.data.length else 0

/-- Where the next record starts. -/
def next (wo : Bool) (r : FileRec) : Nat :=
  if wo then alignUp (r.base + r.span) else r.base + r.span

/-- The next record starts below `2 ^ 32`, and rounding its address up does not overflow. -/
def Room (wo : Bool) (r : FileRec) : Prop := r.base + r.span + (if wo then 3 else 0) < 2 ^ 32

/-- Where the scan goes on after the record, in 32-bit arithmetic. -/
def next32 (wo : Bool) (r : FileRec) : Nat :=
  if wo then romfsAlign (u32 (r.base + r.sizeField)) else u32 (r.base + r.sizeField)

/-- `romfs_open_file` stops at the record: the name is the one it looks for, and it is not
deleted. -/
def isHit (fname : List UInt8) (r : FileRec) : Bool :=
  strncasecmpEq fname r.name DM_MAX_FNAME_LENGTH && !r.deleted

/-- The directory entry of the record. -/
def dirent (r : FileRec) : DmDirent := ⟨r.name, r.sizeField⟩

end FileRec

/-- The bytes at offset `i` are the record of `r`. -/
structure RecordAt (pfs : FSDATA) (i : Nat) (r : FileRec) : Prop where
  nameLen : r.name.length ≤ DM_MAX_FNAME_LENGTH
  nulFree : 0 ∉ r.name
  head : r.name.head? ≠ some WOFS_END_MARKER_CHAR
  name : pfs.medium.bytes.Holds i (r.name ++ [0])
  base : r.base = contentsAt pfs.flags.wo i r.name.length
  /-- The deletion field; ROMFS has none. -/
  mark : if pfs.flags.wo then
      (pfs.medium.bytes (r.base - 8) = WOFS_FILE_DELETED ↔ r.deleted = true)
    else r.deleted = false ∧ r.closed = true
  size : pfs.medium.bytes.Holds (r.base - 4) (leBytes ROMFS_SIZE_LEN r.sizeField)
  contents : r.closed = true → pfs.medium.bytes.Holds r.base r.data
  /-- The fields of the record stand below `2 ^ 32`. -/
  base_lt : r.base < 2 ^ 32
  sizeField_lt : r.sizeField < 2 ^ 32

/-- The records of `rs` follow one another from offset `i` to offset `k`, below `2 ^ 32`. -/
inductive Chain (pfs : FSDATA) : Nat → List FileRec → Nat → Prop where
  | nil (i : Nat) : Chain pfs i [] i
  | cons {i k : Nat} {r : FileRec} {rs : List FileRec} (head : RecordAt pfs i r)
      (room : r.Room pfs.flags.wo)
      (tail : Chain pfs (r.next pfs.flags.wo) rs k) : Chain pfs i (r :: rs) k

/-- Calls of `romfs_readdir_r` from `st` on report the entries `es` and then the end. -/
inductive Lists : RomfsState → List DmDirent → Prop where
  | done {st st' : RomfsState} (h : romfsReaddirR st = some (none, st')) : Lists st []
  | next {st st' : RomfsState} {e : DmDirent} {es : List DmDirent}
      (h : romfsReaddirR st = some (some e, st')) (rest : Lists st' es) : Lists st (e :: es)

/-! ### Offsets -/

theorem romfsAlign_eq {x : Nat} (h : x + 3 < 2 ^ 32) : romfsAlign x = alignUp x := by
  unfold romfsAlign alignUp u32 ROMFS_ALIGN
  rw [show x + 4 - 1 = x + 3 by omega, Nat.mod_eq_of_lt h]

theorem romfsAlign_lt (x : Nat) : romfsAlign x < 2 ^ 32 := by
  unfold romfsAlign u32 ROMFS_ALIGN
  omega

/-- The sum of an address and the size that was never written wraps around. -/
theorem u32_add_noSize {x : Nat} (h0 : 0 < x) (h : x < 2 ^ 32) : u32 (x + NO_SIZE) = x - 1 := by
  unfold u32 NO_SIZE
  omega

/-! ### Records and chains -/

/-- The name ends before the contents start, with room for the fields between them. -/
theorem RecordAt.name_lt_base (h : RecordAt pfs i r) :
    i + r.name.length + 1 + (if pfs.flags.wo then 8 else 4) ≤ r.base ∧ r.base % 4 = 0 := by
  rw [h.base, contentsAt]
  unfold alignUp
  split <;> omega

theorem FileRec.base_le_next (wo : Bool) (r : FileRec) : r.base + r.span ≤ r.next wo := by
  unfold next alignUp
  split <;> omega

theorem FileRec.next_lt {wo : Bool} (h : r.Room wo) : r.next wo < 2 ^ 32 := by
  unfold Room at h
  unfold next alignUp
  cases wo with
  | false => simpa using h
  | true =>
    rw [if_pos rfl] at h ⊢
    omega

/-- The scan goes on at the next record, when that is below `2 ^ 32`. For a size that was never
written, the sum wraps around to one less than `base` and is rounded up to `base`. -/
theorem RecordAt.next32_eq (h : RecordAt pfs i r) (hroom : r.Room pfs.flags.wo) :
    r.next32 pfs.flags.wo = r.next pfs.flags.wo := by
  obtain ⟨hpos, hmod⟩ := h.name_lt_base
  have hmark := h.mark
  unfold FileRec.next32 FileRec.next FileRec.sizeField
  unfold FileRec.Room FileRec.span at hroom
  unfold FileRec.span
  cases hwo : pfs.flags.wo with
  | false =>
    rw [hwo, if_neg (by decide)] at hmark
    simp only [hmark.2, if_true, hwo, Bool.false_eq_true, if_false] at hroom ⊢
    exact u32_of_lt (by omega)
  | true =>
    simp only [hwo, if_true] at hroom ⊢
    cases hc : r.closed with
    | true =>
      rw [hc, if_pos rfl] at hroom
      rw [if_pos rfl, if_pos rfl, u32_of_lt (by omega), romfsAlign_eq hroom]
    | false =>
      have hwrap := u32_add_noSize (show 0 < r.base by omega) h.base_lt
      rw [if_neg (by decide), if_neg (by decide), hwrap, romfsAlign_eq (by omega)]
      unfold alignUp
      omega

theorem Chain.append {j : Nat} {ss : List FileRec} (h : Chain pfs i rs j) (h' : Chain pfs j ss k) :
    Chain pfs i (rs ++ ss) k := by
  induction h with
  | nil i => exact h'
  | cons head room _ ih => exact .cons head room (ih h')

theorem Chain.split {ss : List FileRec} (h : Chain pfs i (rs ++ ss) k) :
    ∃ j, Chain pfs i rs j ∧ Chain pfs j ss k := by
  induction rs generalizing i with
  | nil => exact ⟨i, .nil i, h⟩
  | cons r rs ih =>
    cases h with
    | cons head room tail =>
      obtain ⟨j, h1, h2⟩ := ih tail
      exact ⟨j, .cons head room h1, h2⟩

theorem Chain.le (h : Chain pfs i rs k) : i ≤ k := by
  induction h with
  | nil i => exact Nat.le_refl i
  | @cons i k r rs head room tail ih =>
    have h1 := head.name_lt_base.1
    have h2 := r.base_le_next pfs.flags.wo
    omega

/-- A record of a chain stands at some offset, and its contents end before the chain does. -/
theorem Chain.recordAt (h : Chain pfs i rs k) (hr : r ∈ rs) :
    ∃ j, i ≤ j ∧ RecordAt pfs j r ∧ r.base + r.span ≤ k := by
  induction h with
  | nil i => simp at hr
  | @cons i k s rs head room tail ih =>
    have hle := s.base_le_next pfs.flags.wo
    rcases List.mem_cons.mp hr with rfl | hr
    · exact ⟨i, Nat.le_refl i, head, Nat.le_trans hle tail.le⟩
    · obtain ⟨j, hj, hrec, hend⟩ := ih hr
      have hpos := head.name_lt_base.1
      exact ⟨j, by omega, hrec, hend⟩

/-- A record only depends on the bytes from its start to the end of its contents. -/
theorem RecordAt.frame {pfs' : FSDATA} (h : RecordAt pfs i r)
    (hwo : pfs'.flags.wo = pfs.flags.wo)
    (hagree : Mem.Agree pfs.medium.bytes pfs'.medium.bytes i (r.base + r.span)) :
    RecordAt pfs' i r := by
  obtain ⟨hbase, -⟩ := h.name_lt_base
  have hpos : i + r.name.length + 1 + 4 ≤ r.base := by split at hbase <;> omega
  refine ⟨h.nameLen, h.nulFree, h.head, ?_, by rw [hwo]; exact h.base, ?_, ?_, ?_, h.base_lt,
    h.sizeField_lt⟩
  · refine hagree.holds (Nat.le_refl i) ?_ h.name
    rw [List.length_append, List.length_singleton]
    omega
  · have hmark := h.mark
    rw [hwo]
    cases hwo' : pfs.flags.wo with
    | false =>
      rw [hwo'] at hmark
      exact hmark
    | true =>
      simp only [hwo', if_true] at hmark hbase ⊢
      rw [← hagree (r.base - 8) (by omega) (by omega)]
      exact hmark
  · refine hagree.holds (by omega) ?_ h.size
    rw [length_leBytes]
    unfold ROMFS_SIZE_LEN
    omega
  · intro hc
    refine hagree.holds (by omega) ?_ (h.contents hc)
    unfold FileRec.span
    rw [hc, if_pos rfl]

/-- A chain only depends on the bytes between its ends. -/
theorem Chain.frame {pfs' : FSDATA} (h : Chain pfs i rs k) (hwo : pfs'.flags.wo = pfs.flags.wo)
    (hagree : Mem.Agree pfs.medium.bytes pfs'.medium.bytes i k) : Chain pfs' i rs k := by
  induction h with
  | nil i => exact .nil i
  | @cons i k r rs head room tail ih =>
    have hstart := head.name_lt_base.1
    have hnext := r.base_le_next pfs.flags.wo
    have hend := tail.le
    have hhead : RecordAt pfs' i r :=
      head.frame hwo (hagree.mono (Nat.le_refl i) (Nat.le_trans hnext hend))
    have htail := ih (hagree.mono (by omega) (Nat.le_refl k))
    rw [← hwo] at room htail
    exact .cons hhead room htail

/-- On WOFS every record starts at a multiple of 4. -/
theorem Chain.aligned (h : Chain pfs i rs k) (hwo : pfs.flags.wo = true) (hi : i % 4 = 0) :
    k % 4 = 0 := by
  induction h with
  | nil i => exact hi
  | @cons i k r rs head room tail ih =>
    refine ih ?_
    unfold FileRec.next alignUp
    rw [hwo, if_pos rfl]
    omega

/-- The test of the scan on a record: the first 30 bytes are the name, up to case. -/
theorem FileRec.isHit_iff {fname : List UInt8} (hlen : r.name.length ≤ DM_MAX_FNAME_LENGTH) :
    r.isHit fname = true ↔
      lower (fname.take DM_MAX_FNAME_LENGTH) = lower r.name ∧ r.deleted = false := by
  unfold isHit strncasecmpEq
  simp [List.take_of_length_le hlen]

/-! ### Several directory iterations at once

An iteration is a `DM_DIR` of `src/newlib/devman.c` on a ROMFS or a
WOFS, from its `dm_opendir` to its `dm_closedir`. The pointer that
`romfs_opendir_r` gives to all of them is the address of the one
static variable `romfs_dir_data`.

Iterations are numbered by whoever opens them, and their calls come in
any order. What each has been given is kept with it.
-/

section Iterations
/-- An iteration. -/
structure Iteration where
  /-- `dm_closedir` was not called yet. -/
  isOpen : Bool := true
  /-- What `dm_readdir` has returned so far, `none` for `NULL`. -/
  seen : List (Option DmDirent) := []

/-- The file system with the iterations on it. -/
structure Dirs where
  st : RomfsState
  its : Nat → Option Iteration

/-- A call of an iteration. -/
inductive DirCall where
  /-- `dm_opendir`, with the name behind that of the device, and whether `malloc` has memory for
  the `DM_DIR`. -/
  | opendir (i : Nat) (rest : List UInt8) (malloc : Bool)
  /-- `dm_readdir` -/
  | readdir (i : Nat)
  /-- `dm_closedir` -/
  | closedir (i : Nat)

/-- A call. An iteration is opened once, and makes no call after `dm_closedir`. -/
def dirStep (s : Dirs) : DirCall → Option Dirs
  | .opendir i rest malloc =>
    if (s.its i).isSome then none
    else
      some ((romfsOpendirR (some rest) s.st).elim s fun st =>
        -- the position is set before `malloc` is called
        ⟨st, if malloc then Function.update s.its i (some {}) else s.its⟩)
  | .readdir i =>
    (s.its i).bind fun it =>
      if it.isOpen then
        (romfsReaddirR s.st).map fun r =>
          ⟨r.2, Function.update s.its i (some { it with seen := it.seen ++ [r.1] })⟩
      else none
  | .closedir i =>
    (s.its i).bind fun it =>
      if it.isOpen then
        some ⟨romfsClosedirR s.st, Function.update s.its i (some { it with isOpen := false })⟩
      else none

/-- The file system before any iteration is opened: `romfs_dir_data` has its initial value. -/
def Dirs.start (st : RomfsState) : Dirs := ⟨{ st with romfsDirData := 0 }, fun _ => none⟩

/-- What the first `n` calls of `dm_readdir` return to an iteration that runs alone, for the
entries `es`: these in order, and then the end. -/
def listing (es : List DmDirent) (n : Nat) : List (Option DmDirent) :=
  (List.range n).map fun k => es[k]?

/-- Every iteration has seen what it would have seen alone. -/
def Independent (es : List DmDirent) (s : Dirs) : Prop :=
  ∀ i it, s.its i = some it → it.seen = listing es it.seen.length

/-- Where `romfs_dir_data` is after `n` reads, from a state on. -/
def positionAfter : Nat → RomfsState → Option Nat
  | 0,     st => some st.romfsDirData
  | n + 1, st => (romfsReaddirR st).bind fun r => positionAfter n r.2

/-- A read finds the position where the reads of its own iteration have left it. -/
def Undisturbed (s : Dirs) : DirCall → Prop
  | .readdir i => ∀ it, s.its i = some it → it.isOpen = true →
      positionAfter it.seen.length { s.st with romfsDirData := 0 } = some s.st.romfsDirData
  | _ => True

instance (s : Dirs) (c : DirCall) : Decidable (Undisturbed s c) := by
  cases c with
  | readdir i =>
    cases h : s.its i with
    | none => exact .isTrue (by simp [Undisturbed, h])
    | some it =>
      exact decidable_of_iff (it.isOpen = true → positionAfter it.seen.length
        { s.st with romfsDirData := 0 } = some s.st.romfsDirData) (by simp [Undisturbed, h])
  | opendir i rest malloc => exact .isTrue trivial
  | closedir i => exact .isTrue trivial

end Iterations

end Alcor.Romfs

/-!
## The image builder `utils/mkfs.lua`

`mkfs` in the `"verbatim"` mode: the bytes of the C array it writes,
for a list of file names and what the host file system holds under
each. The text of the C file around the bytes (line breaks, `0x`
prefixes, the include guard) and the messages on the console are left
out. `mkfs` has no result when a file cannot be read or its length is
not a 32-bit `int` of `string.pack`.

`romfsFsdata` is the instance the firmware builds over the image.
-/

namespace Alcor.Romfs

open Lib

/-- `maxlen`, the longest name `mkfs.lua` takes. -/
def MKFS_MAXLEN : Nat := 30

/-- `alignment`, of the size field. -/
def MKFS_ALIGNMENT : Nat := 4

/-- What the host file system holds under a name. -/
inductive HostFile where
  | missing
  | unreadable
  | regular (filedata : List UInt8)
deriving DecidableEq

/-- The byte count and the bytes of the array so far. -/
structure MkfsState where
  /-- `_bytecnt` -/
  bytecnt : Nat
  /-- The bytes written to the array. -/
  out : List UInt8
deriving DecidableEq

/-- `_add_data`: put one byte in the array. -/
def addData (data : UInt8) (s : MkfsState) : MkfsState :=
  ⟨s.bytecnt + 1, s.out ++ [data]⟩

/-- `_add_data` for every byte of a string. -/
def addString (data : List UInt8) (s : MkfsState) : MkfsState :=
  data.foldl (fun s b => addData b s) s

/-- `while _bytecnt % alignment ~= 0 do _add_data( 0, outfile ) end`, for at most `k` passes. -/
def addPadding : Nat → MkfsState → MkfsState
  | 0,     s => s
  | k + 1, s => if s.bytecnt % MKFS_ALIGNMENT ≠ 0 then addPadding k (addData 0 s) else s

/-- `string.pack( "<i", n )` -/
def packInt (n : Nat) : Option (List UInt8) := if n < 2 ^ 31 then some (leBytes 4 n) else none

/-- One file: name, terminator, padding, size, contents. -/
def mkfsFile (fname filedata : List UInt8) (s : MkfsState) : Option MkfsState :=
  let s := addData 0 (addString fname s)
  (packInt filedata.length).map fun plen =>
    addString filedata (addString plen (addPadding MKFS_ALIGNMENT s))

/-- The loop over the file list. -/
def mkfsFiles : List (List UInt8 × HostFile) → MkfsState → Option MkfsState
  | [], s => some s
  | (fname, host) :: flist, s =>
    if fname.length > MKFS_MAXLEN then
      mkfsFiles flist s
    else
      match host with
      | .missing          => mkfsFiles flist s
      | .unreadable       => none
      | .regular filedata => (mkfsFile fname filedata s).bind (mkfsFiles flist)

/-- The image for a file list: the files and the final `0xFF`. -/
def mkfs (flist : List (List UInt8 × HostFile)) : Option (List UInt8) :=
  (mkfsFiles flist ⟨0, []⟩).map fun s => (addData 0xFF s).out

/-- `romfs_fsdata`: the instance over an image of `size` bytes, with `m` in memory. -/
def romfsFsdata (m : Mem) (size : Nat) : FSDATA where
  medium := ⟨m, []⟩
  flags := { direct := true }
  maxSize := u32 size
  maxSize_lt := u32_lt size

end Alcor.Romfs
