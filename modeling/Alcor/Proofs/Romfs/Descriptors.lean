import Alcor.Proofs.Romfs.Scan
import Alcor.Romfs.System

/-!
# `Alcor.Proofs.Romfs.Descriptors`: the calls and the descriptor table

What a call can do, and what every call keeps of the descriptors.

* `romfsOpenR_outcome`, `romfsWriteR_outcome` and `romfsCall_outcome`:
  what can become of the state, for each call.
* `Table` is the invariant of the descriptors, `Table.openR` and
  `Table.closeR` are the calls that change them, and
  `table_of_reachable` holds in every reachable state.
* `openR_fails_clean_iff`: a call of `romfs_open_r` changes nothing when
  it fails, unless it replaces a file for which there is no room.
-/

set_option autoImplicit false

/-!
## What a call can do

The inversion lemmas of the operations. `romfsOpenR_outcome` says once
what a call of `romfs_open_r` can do, `romfsWriteR_outcome` the same
for `romfs_write_r`, and `romfsCall_outcome` collects them for every
call. Later proofs go by these cases and never unfold an operation.
-/

namespace Alcor.Proofs.Romfs

open Lib
open Alcor.Romfs

variable {st st' : RomfsState} {fd : Nat}

/-! ### The outcomes of `romfs_open_r` -/

/-- The checks of `romfs_open_r` that a call passes before it creates a file. -/
structure Creates (path : CStr) (flags : OpenFlags) (st : RomfsState) (found : OpenFile) :
    Prop where
  numFd : st.romfsNumFd ≠ TOTAL_MAX_FDS
  lookup : romfsOpenFile path.bytes st.fsdata = some found
  notExcl : (flags.creat && flags.excl && found.isOk) = false
  create : mustCreate flags found.isOk = true
  wo : st.fsdata.flags.wo = true
  notWriting : ((openFlagsToFdFlags flags).mayWrite && st.fsdata.flags.writing) = false

/-- What a call of `romfs_open_r` that returns has done. -/
inductive OpenOutcome (garbage : Nat) (path : CStr) (flags : OpenFlags) (st : RomfsState) :
    Except Errno Nat → RomfsState → Prop where
  /-- A check has failed. -/
  | refused {e : Errno} (check : e ≠ .ENOSPC) : OpenOutcome garbage path flags st (.error e) st
  /-- An existing file is opened for reading. -/
  | existing {baseaddr size nameaddr : Nat} {res : Except Errno Nat} {st' : RomfsState}
      (numFd : st.romfsNumFd ≠ TOTAL_MAX_FDS)
      (lookup : romfsOpenFile path.bytes st.fsdata = some (.ok baseaddr size nameaddr))
      (keep : mustCreate flags true = false)
      (readOnly : (openFlagsToFdFlags flags).mayWrite = false)
      (install : romfsInstallFd ⟨baseaddr, 0, size, openFlagsToFdFlags flags⟩ st
        = some (res, st')) :
      OpenOutcome garbage path flags st res st'
  /-- There is no room for the new file; an old version is marked already. -/
  | full {found free : OpenFile} (checks : Creates path flags st found)
      (lookup : romfsOpenFile [1] (romfsInvalidate found st.fsdata) = some free)
      (space : noSpace path (free.plastOr (found.plastOr garbage))
        (romfsInvalidate found st.fsdata) = true) :
      OpenOutcome garbage path flags st (.error .ENOSPC)
        { st with fsdata := romfsInvalidate found st.fsdata }
  /-- A new file is created. -/
  | created {found free : OpenFile} {k : Nat} {res : Except Errno Nat} {st' : RomfsState}
      (checks : Creates path flags st found)
      (lookup : romfsOpenFile [1] (romfsInvalidate found st.fsdata) = some free)
      (at_end : k = free.plastOr (found.plastOr garbage))
      (space : noSpace path k (romfsInvalidate found st.fsdata) = false)
      (install : romfsInstallFd ⟨romfsNewBase path k, 0, 0, openFlagsToFdFlags flags⟩
        { st with fsdata := romfsWriteName path k (romfsInvalidate found st.fsdata) }
        = some (res, st')) :
      OpenOutcome garbage path flags st res st'

/-- With the checks passed, `romfs_open_r` is its branch that creates a file. -/
theorem romfsOpenR_of_creates {garbage : Nat} {path : CStr} {flags : OpenFlags}
    {found : OpenFile} (h : Creates path flags st found) :
    romfsOpenR garbage path flags st
      = romfsCreate (found.plastOr garbage) path (openFlagsToFdFlags flags) found st := by
  unfold romfsOpenR
  rw [if_neg h.numFd, h.lookup, Option.bind_some]
  simp only [h.notExcl, h.create, h.wo, h.notWriting, Bool.not_true, Bool.and_false,
    Bool.false_eq_true, if_false, if_true]

/-- What an open can do: it fails with nothing changed, marks a file
as deleted, opens one, or creates one. -/
theorem romfsOpenR_outcome {garbage : Nat} {path : CStr} {flags : OpenFlags}
    {res : Except Errno Nat} (h : romfsOpenR garbage path flags st = some (res, st')) :
    OpenOutcome garbage path flags st res st' := by
  unfold romfsOpenR at h
  split at h
  · -- all descriptors are in use
    obtain ⟨rfl, rfl⟩ := h
    exact .refused (by decide)
  rename_i hnum
  obtain ⟨found, hfound, h⟩ := Option.bind_eq_some_iff.mp h
  dsimp only at h
  split at h
  · obtain ⟨rfl, rfl⟩ := h
    exact .refused (by decide)
  rename_i hexcl
  split at h
  · obtain ⟨rfl, rfl⟩ := h
    exact .refused (by decide)
  rename_i hrom
  split at h
  · obtain ⟨rfl, rfl⟩ := h
    exact .refused (by decide)
  rename_i hacc
  split at h
  · obtain ⟨rfl, rfl⟩ := h
    exact .refused (by decide)
  rename_i hwriting
  rw [Bool.not_eq_true] at hexcl hwriting
  split at h
  · rename_i hcreate
    have hwo : st.fsdata.flags.wo = true := by
      rw [hcreate, Bool.true_and] at hrom
      simpa using hrom
    have checks : Creates path flags st found := ⟨hnum, hfound, hexcl, hcreate, hwo, hwriting⟩
    obtain ⟨free, hfree, h⟩ := Option.bind_eq_some_iff.mp h
    dsimp only at h
    split at h
    · rename_i hspace
      obtain ⟨rfl, rfl⟩ := h
      exact .full checks hfree hspace
    · rename_i hspace
      exact .created checks hfree rfl (Bool.not_eq_true _ ▸ hspace) h
  · rename_i hcreate
    rw [Bool.not_eq_true] at hcreate
    cases hf : found with
    | notFound plast =>
      rw [hf] at h
      obtain ⟨rfl, rfl⟩ := h
      exact .refused (by decide)
    | ok baseaddr size nameaddr =>
      subst hf
      rw [hcreate, Bool.not_false, Bool.and_true, Bool.not_eq_true] at hacc
      exact .existing hnum hfound hcreate hacc h

/-- A file that is found has its contents at a multiple of 4. On WOFS its deletion field, which
stands before the size, does not carry the mark. -/
theorem romfsOpenFile_ok {fname : List UInt8} {pfs : FSDATA} {baseaddr size nameaddr : Nat}
    (h : romfsOpenFile fname pfs = some (.ok baseaddr size nameaddr)) :
    baseaddr % ROMFS_ALIGN = 0 ∧ baseaddr < 2 ^ 32 ∧
      (pfs.flags.wo = true → romfshRead8 (sub32 (sub32 baseaddr ROMFS_SIZE_LEN)
        WOFS_DEL_FIELD_SIZE) pfs ≠ WOFS_FILE_DELETED) := by
  obtain ⟨i, hi⟩ := Loop.exists_body_of_run h
  unfold romfsOpenFileBody at hi
  split at hi
  · cases hi
  dsimp only at hi
  split at hi
  · rename_i hhit
    rw [Sum.inl.injEq, OpenFile.ok.injEq] at hi
    obtain ⟨hbase, -, -⟩ := hi
    have halign := romfsAlign_lt
      (u32 (i + (romfsReadName pfs i DM_MAX_FNAME_LENGTH).length + 1))
    have hmod : romfsAlign (u32 (i + (romfsReadName pfs i DM_MAX_FNAME_LENGTH).length + 1)) % 4
        = 0 := by
      unfold romfsAlign ROMFS_ALIGN
      omega
    generalize hj : romfsAlign (u32 (i + (romfsReadName pfs i DM_MAX_FNAME_LENGTH).length + 1))
      = j at *
    unfold romfshIsWofs ROMFS_SIZE_LEN WOFS_DEL_FIELD_SIZE ROMFS_ALIGN at *
    cases hwo : pfs.flags.wo with
    | false =>
      simp only [hwo, Bool.false_eq_true, if_false, u32] at hbase
      refine ⟨by omega, by omega, by simp⟩
    | true =>
      simp only [hwo, if_true, u32] at hbase
      have hback : sub32 (sub32 baseaddr 4) 4 = j := by
        unfold sub32 u32
        omega
      refine ⟨by omega, by omega, fun _ => ?_⟩
      rw [hback]
      intro hdel
      rw [hwo, hdel] at hhit
      simp at hhit
  · split at hi <;> cases hi

/-! ### The outcomes of `romfs_write_r` -/

/-- What a call of `romfs_write_r` has done. -/
inductive WriteOutcome (fd : Nat) (ptr : List UInt8) (st : RomfsState) :
    Except Errno Nat → RomfsState → Prop where
  /-- The descriptor may not write. -/
  | refused (readOnly : (st.fd fd).flags.mayWrite = false) :
      WriteOutcome fd ptr st (.error .EINVAL) st
  /-- The position is not at the end of the file. -/
  | ignored {st' : RomfsState} (mayWrite : (st.fd fd).flags.mayWrite = true) (offset : Nat)
      (table : st'.fdTable = st.fdTable.set fd { st.fd fd with offset := offset })
      (numFd : st'.romfsNumFd = st.romfsNumFd) (fsdata : st'.fsdata = st.fsdata) :
      WriteOutcome fd ptr st (.ok 0) st'
  /-- Bytes are stored behind the contents. -/
  | stored {len : Nat} {st' : RomfsState} (mayWrite : (st.fd fd).flags.mayWrite = true)
      (offset : Nat) (length : len = romfsWriteLen (st.fd fd) ptr.length st.fsdata)
      (table : st'.fdTable = st.fdTable.set fd
        { st.fd fd with offset := offset, size := u32 ((st.fd fd).size + len) })
      (numFd : st'.romfsNumFd = st.romfsNumFd)
      (fsdata : st'.fsdata = st.fsdata.writef (ptr.take len)
        (u32 ((st.fd fd).size + (st.fd fd).baseaddr))) :
      WriteOutcome fd ptr st (.ok len) st'

/-- What a write can do: it fails with nothing changed, or stores its
bytes behind the file. -/
theorem romfsWriteR_outcome {ptr : List UInt8} {res : Except Errno Nat}
    (h : romfsWriteR fd ptr st = (res, st')) : WriteOutcome fd ptr st res st' := by
  unfold romfsWriteR at h
  dsimp only at h
  split at h
  · rename_i hro
    obtain ⟨rfl, rfl⟩ := h
    exact .refused (by simpa using hro)
  · rename_i hw
    rw [Bool.not_eq_true, Bool.not_eq_false'] at hw
    -- The descriptor with its position moved to the end in append mode.
    obtain ⟨offset, hpfd⟩ : ∃ offset, (if (st.fd fd).flags.append then
        { st.fd fd with offset := (st.fd fd).size } else st.fd fd)
          = { st.fd fd with offset := offset } := by
      split
      · exact ⟨_, rfl⟩
      · exact ⟨(st.fd fd).offset, rfl⟩
    rw [hpfd] at h
    dsimp only at h
    split at h
    · obtain ⟨rfl, rfl⟩ := h
      exact .ignored hw offset rfl rfl rfl
    · rename_i hend
      rw [ne_eq, Decidable.not_not] at hend
      rw [List.set_set, hend] at h
      obtain ⟨rfl, rfl⟩ := h
      exact .stored hw _ rfl rfl rfl rfl

/-! ### The outcomes of all calls -/

/-- A call that touches neither the medium nor the set of open descriptors. -/
def Passive : Call → Prop
  | .openR _ _ _ | .closeR _ | .writeR _ _ => False
  | .readR _ _ | .lseekR _ _ _ | .opendirR _ | .readdirR | .closedirR => True

/-- `st'` is `st` up to the position of one open descriptor and the directory offset. -/
structure Moved (st st' : RomfsState) : Prop where
  fsdata : st'.fsdata = st.fsdata
  numFd : st'.romfsNumFd = st.romfsNumFd
  table : st'.fdTable = st.fdTable ∨ ∃ fd offset, st.isOpen fd = true ∧
    st'.fdTable = st.fdTable.set fd { st.fd fd with offset := offset }

/-- What a call that returns has done. -/
inductive CallOutcome (st : RomfsState) : Call → Reply → RomfsState → Prop where
  | openR {garbage : Nat} {path : CStr} {flags : OpenFlags} {res : Except Errno Nat}
      {st' : RomfsState} (opened : romfsOpenR garbage path flags st = some (res, st')) :
      CallOutcome st (.openR garbage path flags) (.opened res) st'
  | closeR {fd : Nat} (isOpen : st.isOpen fd = true) :
      CallOutcome st (.closeR fd) .closed (romfsCloseR fd st)
  | writeR {fd : Nat} {ptr : List UInt8} {res : Except Errno Nat} {st' : RomfsState}
      (isOpen : st.isOpen fd = true) (outcome : WriteOutcome fd ptr st res st') :
      CallOutcome st (.writeR fd ptr) (.written res) st'
  | passive {c : Call} {reply : Reply} {st' : RomfsState} (passive : Passive c)
      (moved : Moved st st') : CallOutcome st c reply st'

theorem moved_dirData (st : RomfsState) (off : Nat) : Moved st { st with romfsDirData := off } :=
  ⟨rfl, rfl, .inl rfl⟩

theorem moved_readR {len : Nat} (hopen : st.isOpen fd = true) :
    Moved st (romfsReadR fd len st).2 := by
  unfold romfsReadR
  dsimp only
  split
  · exact ⟨rfl, rfl, .inl rfl⟩
  · exact ⟨rfl, rfl, .inr ⟨fd, _, hopen, rfl⟩⟩

theorem moved_lseekR {off : Int} {whence : Nat} (hopen : st.isOpen fd = true) :
    Moved st (romfsLseekR fd off whence st).2 := by
  unfold romfsLseekR
  dsimp only
  split
  · exact ⟨rfl, rfl, .inl rfl⟩
  · split
    · exact ⟨rfl, rfl, .inl rfl⟩
    · exact ⟨rfl, rfl, .inr ⟨fd, _, hopen, rfl⟩⟩

theorem moved_opendirR {dname : Option (List UInt8)} (h : romfsOpendirR dname st = some st') :
    Moved st st' := by
  unfold romfsOpendirR at h
  split at h
  · exact Option.some.inj h ▸ moved_dirData st 0
  · split at h
    · exact Option.some.inj h ▸ moved_dirData st 0
    · cases h

theorem moved_readdirR {ent : Option DmDirent} (h : romfsReaddirR st = some (ent, st')) :
    Moved st st' := by
  unfold romfsReaddirR at h
  split at h
  · obtain ⟨-, rfl⟩ := h
    exact ⟨rfl, rfl, .inl rfl⟩
  · obtain ⟨-, rfl⟩ := h
    exact moved_dirData st _
  · cases h
  · cases h

/-- What a call can do to the state. -/
theorem romfsCall_outcome {c : Call} {reply : Reply} (h : romfsCall st c = some (reply, st')) :
    CallOutcome st c reply st' := by
  cases c with
  | openR garbage path flags =>
    obtain ⟨⟨res, s⟩, hopen, heq⟩ := Option.map_eq_some_iff.mp h
    obtain ⟨rfl, rfl⟩ := heq
    exact .openR hopen
  | closeR fd =>
    obtain ⟨hopen, heq⟩ := Option.ite_none_right_eq_some.mp h
    obtain ⟨rfl, rfl⟩ := heq
    exact .closeR hopen
  | writeR fd ptr =>
    obtain ⟨hopen, heq⟩ := Option.ite_none_right_eq_some.mp h
    obtain ⟨rfl, rfl⟩ := heq
    exact .writeR hopen (romfsWriteR_outcome rfl)
  | readR fd len =>
    obtain ⟨hopen, heq⟩ := Option.ite_none_right_eq_some.mp h
    obtain ⟨rfl, rfl⟩ := heq
    exact .passive trivial (moved_readR hopen)
  | lseekR fd off whence =>
    obtain ⟨hopen, heq⟩ := Option.ite_none_right_eq_some.mp h
    obtain ⟨rfl, rfl⟩ := heq
    exact .passive trivial (moved_lseekR hopen)
  | opendirR dname =>
    refine .passive trivial ?_
    cases hdir : romfsOpendirR dname st with
    | none =>
      rw [romfsCall, hdir] at h
      obtain ⟨-, rfl⟩ := h
      exact ⟨rfl, rfl, .inl rfl⟩
    | some s =>
      rw [romfsCall, hdir] at h
      obtain ⟨-, rfl⟩ := h
      exact moved_opendirR hdir
  | readdirR =>
    obtain ⟨⟨ent, s⟩, hread, heq⟩ := Option.map_eq_some_iff.mp h
    obtain ⟨rfl, rfl⟩ := heq
    exact .passive trivial (moved_readdirR hread)
  | closedirR =>
    obtain ⟨rfl, rfl⟩ := h
    exact .passive trivial (moved_dirData st 0)

end Alcor.Proofs.Romfs

/-!
## The descriptor table, and opens that fail

`Table st` is the invariant of the descriptor table: the count of open
descriptors is the number of used slots, and contents start at a
multiple of 4, so that a used slot is never taken for an unused one.
It holds in every reachable state of any file system
(`table_of_reachable`), whatever stands on the medium.

`openR_fails_clean_iff` says when a failing open changes nothing: it
always does, but for the call that marks the old version of a file as
deleted and then finds no room for the new one.
-/

namespace Alcor.Proofs.Romfs

open Lib
open Alcor.Romfs

variable {st st' : RomfsState} {pfd : FD} {fd i : Nat} {res : Except Errno Nat}

/-! ### The table -/

/-- The invariant of the descriptor table. -/
structure Table (st : RomfsState) : Prop where
  length : st.fdTable.length = TOTAL_MAX_FDS
  count : st.romfsNumFd = st.usedSlots
  aligned : ∀ pfd ∈ st.fdTable, pfd.isUnused = false → pfd.baseaddr % ROMFS_ALIGN = 0

/-- A descriptor of a file is never taken for an unused slot. -/
theorem isUnused_of_aligned (h : pfd.baseaddr % ROMFS_ALIGN = 0) : pfd.isUnused = false := by
  unfold FD.isUnused
  have hne : (pfd.baseaddr == FD_UNUSED) = false := by
    rw [beq_eq_false_iff_ne]
    intro heq
    rw [heq] at h
    exact absurd h (by decide)
  rw [hne, Bool.false_and, Bool.false_and]

theorem fd_of_lt (h : fd < st.fdTable.length) : st.fd fd = st.fdTable.get ⟨fd, h⟩ := by
  unfold RomfsState.fd
  rw [List.getD_eq_getElem?_getD, List.getElem?_eq_getElem h]
  rfl

/-- An open descriptor stands in a slot of the table. -/
theorem lt_of_isOpen (h : st.isOpen fd = true) : fd < st.fdTable.length := by
  by_contra hge
  unfold RomfsState.isOpen RomfsState.fd at h
  rw [List.getD_eq_getElem?_getD, List.getElem?_eq_none (by omega)] at h
  exact absurd h (by decide)

/-- The descriptors after one slot of the table is stored to. -/
theorem fd_of_set (htab : st'.fdTable = st.fdTable.set i pfd) (hi : i < st.fdTable.length)
    (fd : Nat) : st'.fd fd = if fd = i then pfd else st.fd fd := by
  unfold RomfsState.fd
  rw [htab, List.getD_eq_getElem?_getD, List.getD_eq_getElem?_getD, List.getElem?_set]
  by_cases heq : fd = i
  · subst heq
    simp [hi]
  · rw [if_neg (Ne.symm heq), if_neg heq]

theorem Table.init (fs : FSDATA) : Table (romfsInit fs) := by
  refine ⟨List.length_replicate, ?_, ?_⟩
  · unfold RomfsState.usedSlots romfsInit
    simp [List.countP_replicate, FD.isUnused, FD.unused]
  · intro pfd hmem hused
    rw [List.eq_of_mem_replicate hmem] at hused
    exact absurd hused (by decide)

/-- The invariant does not look at the instance or at the directory offset. -/
theorem Table.of_eq (h : Table st) (htab : st'.fdTable = st.fdTable)
    (hnum : st'.romfsNumFd = st.romfsNumFd) : Table st' := by
  refine ⟨htab ▸ h.length, ?_, htab ▸ h.aligned⟩
  rw [hnum, h.count]
  unfold RomfsState.usedSlots
  rw [htab]

/-- An open slot counts. -/
theorem Table.usedSlots_pos (h : Table st) (hopen : st.isOpen fd = true) : 0 < st.romfsNumFd := by
  have hlt := lt_of_isOpen hopen
  rw [h.count]
  unfold RomfsState.usedSlots
  rw [List.countP_pos_iff]
  refine ⟨st.fdTable.get ⟨fd, hlt⟩, List.get_mem _ _, ?_⟩
  rw [← fd_of_lt hlt]
  exact hopen

/-- The count after a slot is stored to. -/
theorem usedSlots_set (hi : i < st.fdTable.length) (pfd : FD) :
    RomfsState.usedSlots { st with fdTable := st.fdTable.set i pfd }
      = st.usedSlots - (if st.isOpen i then 1 else 0) + (if pfd.isUnused then 0 else 1) := by
  unfold RomfsState.usedSlots
  rw [List.countP_set hi]
  have hfd : st.fdTable[i] = st.fd i := (fd_of_lt hi).symm
  rw [hfd]
  unfold RomfsState.isOpen
  cases pfd.isUnused <;> rfl

/-- A slot that is in use keeps its address of the contents. -/
theorem Table.set_used (h : Table st) (hopen : st.isOpen i = true)
    (htab : st'.fdTable = st.fdTable.set i pfd) (hbase : pfd.baseaddr = (st.fd i).baseaddr)
    (hnum : st'.romfsNumFd = st.romfsNumFd) : Table st' := by
  have hi := lt_of_isOpen hopen
  have halign : pfd.baseaddr % ROMFS_ALIGN = 0 := by
    rw [hbase, fd_of_lt hi]
    refine h.aligned _ (List.get_mem _ _) ?_
    rw [← fd_of_lt hi]
    simpa [RomfsState.isOpen] using hopen
  have hpos := h.usedSlots_pos hopen
  rw [h.count] at hpos
  have hset : Table { st with fdTable := st.fdTable.set i pfd } := by
    refine ⟨?_, ?_, ?_⟩
    · rw [List.length_set]
      exact h.length
    · rw [usedSlots_set hi, hopen, isUnused_of_aligned halign, if_pos rfl,
        if_neg (by decide), Nat.sub_add_cancel hpos]
      exact h.count
    · intro pfd' hmem hused
      rcases List.mem_or_eq_of_mem_set hmem with hmem | rfl
      · exact h.aligned pfd' hmem hused
      · exact halign
  exact hset.of_eq htab hnum

/-! ### Opening and closing -/

/-- What putting a descriptor in a free slot does. -/
theorem romfsInstallFd_eq (h : romfsInstallFd pfd st = some (res, st')) :
    ∃ i, res = .ok i ∧ i < st.fdTable.length ∧ st.isOpen i = false ∧
      st' = { st with fdTable := st.fdTable.set i pfd, romfsNumFd := st.romfsNumFd + 1 } := by
  unfold romfsInstallFd at h
  obtain ⟨i, hi, hres⟩ := Option.map_eq_some_iff.mp h
  rw [Prod.mk.injEq] at hres
  obtain ⟨hlt, hfree, -⟩ := List.findIdx?_eq_some_iff_getElem.mp hi
  refine ⟨i, hres.1.symm, hlt, ?_, hres.2.symm⟩
  unfold RomfsState.isOpen
  rw [fd_of_lt hlt]
  simpa using hfree

/-- Below the limit there is a free slot. -/
theorem Table.findEmptyFd (h : Table st) (hnum : st.romfsNumFd ≠ TOTAL_MAX_FDS) :
    ∃ i, romfsFindEmptyFd st = some i := by
  cases hf : romfsFindEmptyFd st with
  | some i => exact ⟨i, rfl⟩
  | none =>
    have hall := List.findIdx?_eq_none_iff.mp hf
    have hcount : st.usedSlots = st.fdTable.length :=
      List.countP_eq_length.mpr fun pfd hmem => by rw [hall pfd hmem]; rfl
    exact absurd (h.count.trans (hcount.trans h.length)) hnum

/-- Below the limit, a descriptor can be put in a slot. -/
theorem Table.exists_install (h : Table st) (hnum : st.romfsNumFd ≠ TOTAL_MAX_FDS) (pfd : FD) :
    ∃ i st', romfsInstallFd pfd st = some (.ok i, st') := by
  obtain ⟨i, hi⟩ := h.findEmptyFd hnum
  exact ⟨i, _, by rw [romfsInstallFd, hi]; rfl⟩

theorem Table.install (h : Table st) (halign : pfd.baseaddr % ROMFS_ALIGN = 0)
    (hinst : romfsInstallFd pfd st = some (res, st')) : Table st' := by
  obtain ⟨i, -, hi, hclosed, rfl⟩ := romfsInstallFd_eq hinst
  refine ⟨by rw [List.length_set]; exact h.length, ?_, ?_⟩
  · show st.romfsNumFd + 1 = RomfsState.usedSlots { st with fdTable := st.fdTable.set i pfd }
    rw [usedSlots_set hi, hclosed, isUnused_of_aligned halign, if_neg (by decide),
      if_neg (by decide), Nat.sub_zero, h.count]
  · intro pfd' hmem hused
    rcases List.mem_or_eq_of_mem_set hmem with hmem | rfl
    · exact h.aligned pfd' hmem hused
    · exact halign

theorem romfsNewBase_mod (path : CStr) (k : Nat) : romfsNewBase path k % ROMFS_ALIGN = 0 := by
  unfold romfsNewBase romfsAlign u32 ROMFS_SIZE_LEN WOFS_DEL_FIELD_SIZE ROMFS_ALIGN
  omega

theorem Table.openR (h : Table st) {garbage : Nat} {path : CStr} {flags : OpenFlags}
    (hopen : romfsOpenR garbage path flags st = some (res, st')) : Table st' := by
  cases romfsOpenR_outcome hopen with
  | refused _ => exact h
  | existing _ lookup _ _ install => exact h.install (romfsOpenFile_ok lookup).1 install
  | full _ _ _ => exact h.of_eq rfl rfl
  | @created found _ k _ _ _ _ _ _ install =>
    have hnamed : Table { st with fsdata := romfsWriteName path k (romfsInvalidate found st.fsdata) } :=
      h.of_eq rfl rfl
    exact hnamed.install (romfsNewBase_mod path k) install

/-- To close a descriptor keeps it. -/
theorem Table.closeR (h : Table st) (hopen : st.isOpen fd = true) : Table (romfsCloseR fd st) := by
  have hlt := lt_of_isOpen hopen
  have hpos := h.usedSlots_pos hopen
  refine ⟨?_, ?_, ?_⟩
  · show (st.fdTable.set fd FD.unused).length = _
    rw [List.length_set]
    exact h.length
  · show st.romfsNumFd - 1
      = RomfsState.usedSlots { st with fdTable := st.fdTable.set fd FD.unused }
    rw [usedSlots_set hlt, hopen, if_pos rfl, show FD.unused.isUnused = true by decide, if_pos rfl,
      h.count]
    rfl
  · intro pfd hmem hused
    have hmem' : pfd ∈ st.fdTable.set fd FD.unused := hmem
    rcases List.mem_or_eq_of_mem_set hmem' with hmem | rfl
    · exact h.aligned pfd hmem hused
    · exact absurd hused (by decide)

/-! ### Runs -/

/-- Every call keeps the invariant of the table. -/
theorem Table.call (h : Table st) {c : Call} {reply : Reply}
    (hcall : romfsCall st c = some (reply, st')) : Table st' := by
  cases romfsCall_outcome hcall with
  | openR opened => exact h.openR opened
  | closeR isOpen => exact h.closeR isOpen
  | writeR isOpen outcome =>
    cases outcome with
    | refused _ => exact h
    | ignored _ _ table numFd _ => exact h.set_used isOpen table rfl numFd
    | stored _ _ _ table numFd _ => exact h.set_used isOpen table rfl numFd
  | passive _ moved =>
    rcases moved.table with htab | ⟨fd, offset, hopen, htab⟩
    · exact h.of_eq htab moved.numFd
    · exact h.set_used hopen htab rfl moved.numFd

theorem table_of_reachable {fs : FSDATA} (h : Run.Reachable step (romfsInit fs) st) : Table st := by
  refine Run.invariant_reachable ?_ (Table.init fs) h
  intro s c s' hs hstep
  obtain ⟨⟨reply, t⟩, hcall, rfl⟩ := Option.map_eq_some_iff.mp hstep
  exact hs.call hcall

/-! ### Failing opens -/

/-- The medium, the flags and the descriptors are as they were. -/
structure Unchanged (st st' : RomfsState) : Prop where
  bytes : st'.fsdata.medium.bytes = st.fsdata.medium.bytes
  flags : st'.fsdata.flags = st.fsdata.flags
  table : st'.fdTable = st.fdTable
  numFd : st'.romfsNumFd = st.romfsNumFd

/-- The call is to replace an existing file, and there is no room for the new version behind the
end of the directory. The space is looked for after the old version is marked. -/
def LosesOldVersion (garbage : Nat) (path : CStr) (flags : OpenFlags) (st : RomfsState) : Prop :=
  ∃ baseaddr size nameaddr free, Creates path flags st (.ok baseaddr size nameaddr) ∧
    romfsOpenFile [1] (romfsInvalidate (.ok baseaddr size nameaddr) st.fsdata) = some free ∧
    noSpace path (free.plastOr garbage)
      (romfsInvalidate (.ok baseaddr size nameaddr) st.fsdata) = true

/-- The mark is a change: a file that is found does not carry it yet. -/
theorem invalidate_ne {fname : List UInt8} {pfs : FSDATA} {baseaddr size nameaddr : Nat}
    (hwo : pfs.flags.wo = true)
    (h : romfsOpenFile fname pfs = some (.ok baseaddr size nameaddr)) :
    (romfsInvalidate (.ok baseaddr size nameaddr) pfs).medium.bytes ≠ pfs.medium.bytes := by
  have hread := (romfsOpenFile_ok h).2.2 hwo
  rw [romfsInvalidate_ok, FSDATA.writef_bytes]
  intro heq
  unfold romfshRead8 at hread
  rw [← heq] at hread
  refine hread ?_
  have hmark := Mem.holds_store_self pfs.medium.bytes
    (sub32 (sub32 baseaddr ROMFS_SIZE_LEN) WOFS_DEL_FIELD_SIZE) deletedMark
  rw [deletedMark, Mem.holds_cons] at hmark
  rw [deletedMark]
  exact hmark.1

/-- In every reachable state, a call of `romfs_open_r` whose lookups
end returns, and it changes nothing when it fails, unless it replaces
a file for which there is no room: then the old file is marked as
deleted before the space is checked. -/
theorem openR_fails_clean_iff {fs : FSDATA} {st : RomfsState}
    (h : Run.Reachable step (romfsInit fs) st) (garbage : Nat) (path : CStr) (flags : OpenFlags) :
    ((∀ e st', romfsOpenR garbage path flags st = some (.error e, st') → Unchanged st st') ↔
      ¬ LosesOldVersion garbage path flags st) ∧
    (∀ found free, romfsOpenFile path.bytes st.fsdata = some found →
      romfsOpenFile [1] (romfsInvalidate found st.fsdata) = some free →
      romfsOpenR garbage path flags st ≠ none) := by
  have htab := table_of_reachable h
  refine ⟨⟨?_, ?_⟩, ?_⟩
  · rintro hclean ⟨baseaddr, size, nameaddr, free, checks, hfree, hspace⟩
    have hopen : romfsOpenR garbage path flags st = some (.error .ENOSPC,
        { st with fsdata := romfsInvalidate (.ok baseaddr size nameaddr) st.fsdata }) := by
      rw [romfsOpenR_of_creates checks, romfsCreate]
      dsimp only
      rw [hfree, Option.bind_some]
      exact if_pos hspace
    exact invalidate_ne checks.wo checks.lookup (hclean _ _ hopen).bytes
  · intro hkeeps e st' hopen
    cases romfsOpenR_outcome hopen with
    | refused _ => exact ⟨rfl, rfl, rfl, rfl⟩
    | existing _ _ _ _ install =>
      obtain ⟨i, hi, -⟩ := romfsInstallFd_eq install
      cases hi
    | @full found free checks lookup space =>
      cases found with
      | notFound plast => exact ⟨rfl, rfl, rfl, rfl⟩
      | ok baseaddr size nameaddr =>
        exact absurd ⟨baseaddr, size, nameaddr, free, checks, lookup, space⟩ hkeeps
    | created _ _ _ _ install =>
      obtain ⟨i, hi, -⟩ := romfsInstallFd_eq install
      cases hi
  · intro found free hfound hfree hnone
    unfold romfsOpenR at hnone
    split at hnone
    · cases hnone
    rename_i hnum
    -- There is a free slot for either way to open the file.
    have hinst : ∀ pfd fs', romfsInstallFd pfd { st with fsdata := fs' } ≠ none := by
      intro pfd fs' hnone
      have htab' : Table { st with fsdata := fs' } := htab.of_eq rfl rfl
      obtain ⟨i, st', hi⟩ := htab'.exists_install hnum pfd
      rw [hi] at hnone
      cases hnone
    rw [hfound, Option.bind_some] at hnone
    dsimp only at hnone
    repeat' split at hnone
    all_goals try cases hnone
    · rw [romfsCreate, hfree, Option.bind_some] at hnone
      dsimp only at hnone
      split at hnone
      · cases hnone
      · exact hinst _ _ hnone
    · exact hinst _ st.fsdata hnone

/-- A session that creates a file of three bytes. -/
def smallSession : List Call :=
  [.openR 0 (.ofByte 97) sessionFlags, .writeR 0 [1, 2, 3], .closeR 0]

/-- On a WOFS of 28 bytes there is no room for a second version of the
file that the session has created, so the open that is to replace it
fails. Neither side of the equivalence holds: the open marks the file
as deleted before it looks for room. -/
theorem openR_fails_clean_iff_full :
    ∃ st, Run.run step (romfsInit (wofsFormat 28 (by decide))) smallSession = some st ∧
      ((∀ e st', romfsOpenR 0 ⟨[97], by decide⟩ sessionFlags st = some (.error e, st') →
        Unchanged st st') ↔
        ¬ LosesOldVersion 0 ⟨[97], by decide⟩ sessionFlags st) ∧
      ∀ found free, romfsOpenFile [97] st.fsdata = some found →
        romfsOpenFile [1] (romfsInvalidate found st.fsdata) = some free →
        romfsOpenR 0 ⟨[97], by decide⟩ sessionFlags st ≠ none := by
  have hrun : (Run.run step (romfsInit (wofsFormat 28 (by decide))) smallSession).isSome := by
    decide +kernel
  obtain ⟨st, hst⟩ := Option.isSome_iff_exists.mp hrun
  exact ⟨st, hst, openR_fails_clean_iff ⟨_, hst⟩ 0 ⟨[97], by decide⟩ sessionFlags⟩

/-- On a WOFS of 20 bytes with one empty file, the open that is to replace the file fails, and the
file is gone. -/
theorem openR_fails_unclean :
    ∃ st e st', Run.Reachable step (romfsInit (wofsFormat 20 (by decide))) st ∧
      romfsOpenR 0 ⟨[97], by decide⟩ sessionFlags st = some (.error e, st') ∧
      ¬ Unchanged st st' := by
  have hrun : ((Run.run step (romfsInit (wofsFormat 20 (by decide)))
      [.openR 0 ⟨[97], by decide⟩ sessionFlags, .closeR 0]).bind fun st =>
        (romfsOpenR 0 ⟨[97], by decide⟩ sessionFlags st).map fun out =>
          (out.1, st.fsdata.medium.bytes 4, out.2.fsdata.medium.bytes 4))
      = some (.error .ENOSPC, 0xFF, 0xAA) := by decide
  obtain ⟨st, hst, hopen⟩ := Option.bind_eq_some_iff.mp hrun
  obtain ⟨⟨res, st'⟩, hopen, hbytes⟩ := Option.map_eq_some_iff.mp hopen
  rw [Prod.mk.injEq, Prod.mk.injEq] at hbytes
  obtain ⟨rfl, hbefore, hafter⟩ := hbytes
  refine ⟨st, _, st', ⟨_, hst⟩, hopen, fun h => ?_⟩
  have h4 := congrFun h.bytes 4
  rw [hbefore, hafter] at h4
  exact absurd h4 (by decide)

end Alcor.Proofs.Romfs
