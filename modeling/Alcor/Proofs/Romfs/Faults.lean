import Alcor.Proofs.Romfs.Creation
import Alcor.Romfs.Faults

/-!
# `Alcor.Proofs.Romfs.Faults`: files on a medium that fails

What still holds of a file when `writef` may store other bytes than it
is given.

* `StopsAt.frame` and `lookup_frame`: a new file that is found stays
  found while bytes are stored behind its record, for a lookup depends on
  the bytes below the size of the file only.
* `romfsWriteROn_of_end`: a write moves the descriptor by the bytes it
  was given, whatever was stored. `romfsCloseROn_fsdata` is the size that
  is written in the end.
* `romfsReadROn_of_open`: a read that is short or fails says so in its
  result.
-/

set_option autoImplicit false

namespace Alcor.Proofs.Romfs

open Lib
open Alcor.Romfs

variable {pfs pfs' : FSDATA} {fname : List UInt8} {i base size : Nat}

/-! ### What a lookup depends on -/

/-- The bytes of a name up to its terminator are all that reading it depends on. -/
theorem romfsReadName_frame {hi : Nat} (hlt : hi < 2 ^ 32)
    (hagree : Mem.Agree pfs.medium.bytes pfs'.medium.bytes 0 hi) :
    ∀ {k i : Nat}, i + (romfsReadName pfs i k).length < hi →
      romfsReadName pfs' i k = romfsReadName pfs i k := by
  intro k
  induction k with
  | zero =>
    intro i _
    rfl
  | succ k ih =>
    intro i hlen
    have hbyte : romfshRead8 i pfs' = romfshRead8 i pfs :=
      (hagree i (Nat.zero_le i) (by omega)).symm
    unfold romfsReadName at hlen ⊢
    rw [hbyte]
    dsimp only at hlen ⊢
    split at hlen
    · rename_i hzero
      rw [if_pos hzero, if_pos hzero]
    · rename_i hne
      rw [List.length_cons] at hlen
      rw [if_neg hne, if_neg hne, ih]
      rw [u32_of_lt (by omega)] at hlen ⊢
      omega

/-- The scan stops at the record whose name it reports. -/
theorem romfsOpenFileBody_nameaddr {na : Nat}
    (h : romfsOpenFileBody fname pfs i = .inl (.ok base size na)) : na = i := by
  unfold romfsOpenFileBody at h
  dsimp only at h
  split at h
  · cases h
  · split at h
    · cases h
      rfl
    · split at h
      · cases h
      · cases h

/-- Where the scan of a WOFS stops with a file. -/
structure StopsAt (fname : List UInt8) (pfs : FSDATA) (i base : Nat) : Prop where
  head : romfshRead8 i pfs ≠ WOFS_END_MARKER_CHAR
  base_eq : base = alignUp (i + (romfsReadName pfs i DM_MAX_FNAME_LENGTH).length + 1) + 8
  mark : romfshRead8 (base - 8) pfs ≠ WOFS_FILE_DELETED
  name : strncasecmpEq fname (romfsReadName pfs i DM_MAX_FNAME_LENGTH) DM_MAX_FNAME_LENGTH = true

/-- One pass stops with a file just where these hold. -/
theorem romfsOpenFileBody_ok_iff (hwo : pfs.flags.wo = true) (hi : i + 64 < 2 ^ 32) :
    romfsOpenFileBody fname pfs i = .inl (.ok base size i) ↔
      StopsAt fname pfs i base ∧ size = romfsReadSize pfs (base - 4) := by
  have hlen := length_romfsReadName_le pfs DM_MAX_FNAME_LENGTH i
  unfold romfsOpenFileBody romfshIsWofs WOFS_DEL_FIELD_SIZE ROMFS_SIZE_LEN ROMFS_ALIGN
  simp only [hwo, Bool.true_and, if_true]
  generalize hname : romfsReadName pfs i DM_MAX_FNAME_LENGTH = fsname at *
  have hmax : DM_MAX_FNAME_LENGTH = 30 := rfl
  have halign : romfsAlign (u32 (i + fsname.length + 1)) = alignUp (i + fsname.length + 1) := by
    rw [u32_of_lt (by omega), romfsAlign_eq (by omega)]
  have hup : alignUp (i + fsname.length + 1) ≤ i + fsname.length + 4 := by
    unfold alignUp
    omega
  rw [halign, u32_of_lt (show alignUp (i + fsname.length + 1) + 4 < 2 ^ 32 by omega),
    u32_of_lt (show alignUp (i + fsname.length + 1) + 4 + 4 < 2 ^ 32 by omega), Nat.add_assoc _ 4 4]
  have hmark : alignUp (i + fsname.length + 1) + 8 - 8 = alignUp (i + fsname.length + 1) :=
    Nat.add_sub_cancel _ 8
  have hsize : alignUp (i + fsname.length + 1) + 8 - 4 = alignUp (i + fsname.length + 1) + 4 := by
    omega
  constructor
  · intro h
    split at h
    · cases h
    rename_i hhead
    split at h
    · rename_i hhit
      rw [Bool.and_eq_true, Bool.not_eq_true', beq_eq_false_iff_ne] at hhit
      simp only [Sum.inl.injEq, OpenFile.ok.injEq, and_true] at h
      obtain ⟨rfl, rfl⟩ := h
      refine ⟨⟨hhead, ?_, ?_, ?_⟩, ?_⟩
      · rw [hname]
      · rw [hmark]
        exact hhit.2
      · rw [hname]
        exact hhit.1
      · rw [hsize]
    · cases h
  · intro ⟨⟨hhead, hbase, hdeleted, hhit⟩, hread⟩
    rw [hname] at hbase hhit
    rw [hbase, hmark] at hdeleted
    rw [hread, hbase, hsize]
    rw [if_neg hhead, if_pos]
    rw [Bool.and_eq_true, Bool.not_eq_true', beq_eq_false_iff_ne]
    exact ⟨hhit, hdeleted⟩

/-- Where the scan stops depends on the bytes below the size of the file only. -/
theorem StopsAt.frame (h : StopsAt fname pfs i base) (hlt : base < 2 ^ 32)
    (hagree : Mem.Agree pfs.medium.bytes pfs'.medium.bytes 0 (base - 4)) :
    StopsAt fname pfs' i base := by
  obtain ⟨hhead, hbase, hmark, hname⟩ := h
  have hup : i + (romfsReadName pfs i DM_MAX_FNAME_LENGTH).length + 1 + 8 ≤ base := by
    rw [hbase]
    unfold alignUp
    omega
  have hsame : romfsReadName pfs' i DM_MAX_FNAME_LENGTH = romfsReadName pfs i DM_MAX_FNAME_LENGTH :=
    romfsReadName_frame (show base - 4 < 2 ^ 32 by omega) hagree (by omega)
  have hbyte : ∀ x, x < base - 4 → romfshRead8 x pfs' = romfshRead8 x pfs :=
    fun x hx => (hagree x (Nat.zero_le x) hx).symm
  refine ⟨?_, ?_, ?_, ?_⟩
  · rw [hbyte i (by omega)]
    exact hhead
  · rw [hsame]
    exact hbase
  · rw [hbyte (base - 8) (by omega)]
    exact hmark
  · rw [hsame]
    exact hname

/-- Over a chain without a record to stop at, the scan goes on behind it. -/
theorem after_openFile_of_end {k : Nat} {rs : List FileRec} (h : Chain pfs i rs k)
    (hr : rs.find? (FileRec.isHit fname) = none) :
    Loop.after (romfsOpenFileBody fname pfs) rs.length i = some k := by
  induction h with
  | nil i => rfl
  | @cons i k s rs head room tail ih =>
    have hbody := romfsOpenFileBody_of_record head fname
    rw [head.next32_eq room] at hbody
    have hs : ¬ s.isHit fname = true := fun hs => by
      rw [List.find?_cons_of_pos hs] at hr
      exact absurd hr (by simp)
    rw [List.find?_cons_of_neg hs] at hr
    rw [if_neg hs] at hbody
    rw [List.length_cons, Loop.after_succ_of_inr hbody, ih hr]

/-- A file behind a chain that is found is found again on every medium with the same bytes below
the size of the file. Its size is the one there. -/
theorem lookup_frame {rs : List FileRec} {nameaddr : Nat} (hchain : Chain pfs 0 rs nameaddr)
    (hwo : pfs.flags.wo = true) (hwo' : pfs'.flags.wo = true) (hi : nameaddr + 64 < 2 ^ 32)
    (hlt : base < 2 ^ 32) (hagree : Mem.Agree pfs.medium.bytes pfs'.medium.bytes 0 (base - 4))
    (h : romfsOpenFile fname pfs = some (.ok base size nameaddr)) :
    romfsOpenFile fname pfs' = some (.ok base (romfsReadSize pfs' (base - 4)) nameaddr) := by
  -- the scan stops at the record behind the chain
  obtain ⟨i, hbody⟩ := Loop.exists_body_of_run h
  obtain rfl : nameaddr = i := romfsOpenFileBody_nameaddr hbody
  have hstops := ((romfsOpenFileBody_ok_iff hwo hi).mp hbody).1
  have hbody' := (romfsOpenFileBody_ok_iff hwo' hi).mpr ⟨hstops.frame hlt hagree, rfl⟩
  have hbelow : nameaddr ≤ base - 4 := by
    rw [hstops.base_eq]
    unfold alignUp
    omega
  have hchain' := hchain.frame (hwo'.trans hwo.symm) (hagree.mono (Nat.le_refl 0) hbelow)
  have hnone : rs.find? (FileRec.isHit fname) = none := by
    by_contra hsome
    obtain ⟨r, hr⟩ := Option.ne_none_iff_exists'.mp hsome
    -- a record of the chain would be found instead
    obtain ⟨na, hfound⟩ := romfsOpenFile_of_find hchain hr
    rw [h, Option.some.injEq, OpenFile.ok.injEq] at hfound
    obtain ⟨j, -, -, hend⟩ := hchain.recordAt (List.mem_of_find?_eq_some hr)
    have hmore := hstops.base_eq
    unfold alignUp at hmore
    omega
  have hrun : Loop.run (romfsOpenFileBody fname pfs') (rs.length + 1) 0 =
      some (.ok base (romfsReadSize pfs' (base - 4)) nameaddr) := by
    rw [Loop.run_add_of_after (after_openFile_of_end hchain' hnone)]
    exact Loop.run_succ_of_inl hbody' 0
  exact run_u32_of_run (fun _ _ => romfsOpenFileBody_lt) (by decide) hrun

/-! ### Reads and writes -/

section On
variable {dev : Device} {st : RomfsState} {fd : Nat}

/-- A read of an open file, when so many bytes are asked for and there. Only the position moves. -/
theorem romfsReadROn_of_open (dev : Device) (i len : Nat) {b pos : Nat} {flags : FdFlags}
    (hread : flags.read = true) (hfd : st.fd fd = ⟨b, pos, size, flags⟩) (hpos : pos ≤ size)
    (hend : b + size < 2 ^ 32) {bytes : List UInt8}
    (hbytes : bytes = st.fsdata.medium.bytes.read (b + pos) (min len (size - pos))) :
    ∃ res pos', romfsReadROn dev i fd len st =
        (res, { st with fdTable := st.fdTable.set fd ⟨b, pos', size, flags⟩ }) ∧
      res.toOption = (if st.fsdata.flags.direct then some bytes else (dev.readf i).given bytes) ∧
      (res.toOption = some bytes → pos' = pos + bytes.length) := by
  have hlen : bytes.length = min len (size - pos) := by rw [hbytes, Mem.length_read]
  have hat : st.fsdata.medium.bytes.read (u32 (pos + b)) (min len (size - pos)) = bytes := by
    rw [u32_of_lt (by omega), Nat.add_comm, hbytes]
  unfold romfsReadROn
  rw [hfd]
  simp only [hread, sub32_of_le hpos (by omega), hat, Bool.not_true, Bool.false_eq_true, if_false]
  cases st.fsdata.flags.direct with
  | true => exact ⟨_, _, rfl, rfl, fun _ => by rw [u32_of_lt (by omega), hlen]⟩
  | false =>
    simp only [Bool.false_eq_true, if_false]
    cases dev.readf i with
    | done => exact ⟨_, _, rfl, rfl, fun _ => by rw [u32_of_lt (by omega), hlen]⟩
    | short n =>
      refine ⟨_, _, rfl, rfl, fun hall => ?_⟩
      -- all bytes are there when they are no more than `n`
      have htake := congrArg List.length (Option.some.inj hall)
      rw [List.length_take] at htake
      rw [u32_of_lt (by omega)]
      omega
    | failed => exact ⟨_, _, rfl, rfl, nofun⟩

/-- A write at the end of the file. -/
theorem romfsWriteROn_of_end (dev : Device) (ptr : List UInt8) (hmay : (st.fd fd).flags.mayWrite = true)
    (hend : (st.fd fd).offset = (st.fd fd).size) :
    ∃ len st', len = romfsWriteLen (st.fd fd) ptr.length st.fsdata ∧
      romfsWriteROn dev fd ptr st = (.ok len, st') ∧
      st'.fdTable = st.fdTable.set fd { st.fd fd with
        offset := u32 ((st.fd fd).size + len), size := u32 ((st.fd fd).size + len) } ∧
      st'.fsdata = st.fsdata.writefOn dev (ptr.take len)
        (u32 ((st.fd fd).size + (st.fd fd).baseaddr)) := by
  have hsame : (if (st.fd fd).flags.append then { st.fd fd with offset := (st.fd fd).size }
      else st.fd fd) = st.fd fd := by
    rw [← hend]
    split <;> rfl
  unfold romfsWriteROn
  simp only [hmay, hsame, hend, ne_eq, not_true_eq_false, if_false, Bool.not_true,
    Bool.false_eq_true, List.set_set]
  exact ⟨_, _, rfl, rfl, rfl, rfl⟩

/-- Closing a file that was written stores its size, as far as the medium does. -/
theorem romfsCloseROn_fsdata : (romfsCloseROn dev fd st).fsdata =
    if (st.fd fd).flags.mayWrite then
      (st.fsdata.writefOn dev (leBytes ROMFS_SIZE_LEN (st.fd fd).size)
        (sub32 (st.fd fd).baseaddr ROMFS_SIZE_LEN)).setWriting false
    else st.fsdata := rfl

end On

end Alcor.Proofs.Romfs
