import Alcor.Proofs.Romfs.Wofs

/-!
# `Alcor.Proofs.Romfs.SingleWriter`: at most one file is being written

The write flag of the file system is to say that a file is open in write
mode. The invariant is about whole runs: the flag is set exactly while a
descriptor may write, there is at most one such descriptor, and with all
descriptors closed every record has its size and a new file can be
created again.

* `single_writer`: the invariant holds in every run whose calls meet
  `CallOk`.
* `single_writer_broken`: the run that does not meet it. An open with
  `O_CREAT` that asks for read access only creates the file and sets the
  flag, and the close of its descriptor, which may not write, never
  clears the flag.
-/

set_option autoImplicit false

namespace Alcor.Proofs.Romfs

open Lib
open Alcor.Romfs

variable {st : RomfsState}

/-- The single-writer invariant of a state with the history `h`. -/
structure SingleWriter (st : RomfsState) (h : List FileRec) : Prop where
  count : st.romfsNumFd = st.usedSlots
  writing_iff : st.fsdata.flags.writing = true ↔ ∃ fd, st.MayWrite fd
  unique : ∀ fd fd', st.MayWrite fd → st.MayWrite fd' → fd = fd'
  /-- With all descriptors closed, the directory is the history, each file with its contents and
  size, and an open that creates a file succeeds if there is room for it. -/
  closed : (∀ fd, st.isOpen fd = false) → ∃ k, Chain st.fsdata 0 h k ∧
    romfshRead8 k st.fsdata = WOFS_END_MARKER_CHAR ∧ (∀ r ∈ h, r.closed = true) ∧
    ∀ (garbage : Nat) (path : CStr), noSpace path k st.fsdata = false →
      ∃ fd st', romfsOpenR garbage path sessionFlags st = some (.ok fd, st')

theorem usedSlots_eq_zero (h : ∀ fd, st.isOpen fd = false) : st.usedSlots = 0 := by
  unfold RomfsState.usedSlots
  rw [List.countP_eq_zero]
  intro pfd hmem
  obtain ⟨i, hi⟩ := List.get_of_mem hmem
  have hfd := h i.val
  unfold RomfsState.isOpen at hfd
  rw [fd_of_lt i.isLt, hi] at hfd
  simpa using hfd

/-- A file can be created on a laid out medium with room for it, while no file is being
written and a descriptor is free. -/
theorem openR_creates {h : List FileRec} {k garbage : Nat} {path : CStr} (htab : Table st)
    (hn : Names h) (hl : Layout st.fsdata h k []) (hnum : st.romfsNumFd ≠ TOTAL_MAX_FDS)
    (hflag : st.fsdata.flags.writing = false) (hspace : noSpace path k st.fsdata = false) :
    ∃ fd st', romfsOpenR garbage path sessionFlags st = some (.ok fd, st') := by
  obtain ⟨found, hfound⟩ : ∃ found, romfsOpenFile path.bytes st.fsdata = some found := by
    cases hr : h.find? (FileRec.isHit path.bytes) with
    | none => exact ⟨_, romfsOpenFile_of_end hl.chain hl.end_marker hr⟩
    | some r =>
      obtain ⟨na, hna⟩ := romfsOpenFile_of_find hl.chain hr
      exact ⟨_, hna⟩
  have hcreate : mustCreate sessionFlags found.isOk = true := by
    cases found.isOk <;> rfl
  have checks : Creates path sessionFlags st found :=
    ⟨hnum, hfound, by simp [sessionFlags], hcreate, hl.wo, by rw [hflag, Bool.and_false]⟩
  have hfree := (hl.invalidate hn.live hfound fun _ => rfl).free (hn.markDeleted path.bytes)
  have hspace' : noSpace path k (romfsInvalidate found st.fsdata) = false := by
    unfold noSpace at hspace ⊢
    rw [romfsInvalidate_maxSize]
    exact hspace
  have htab' : Table { st with
      fsdata := romfsWriteName path k (romfsInvalidate found st.fsdata) } := htab.of_eq rfl rfl
  obtain ⟨i, st', hinst⟩ := htab'.exists_install hnum
    ⟨romfsNewBase path k, 0, 0, openFlagsToFdFlags sessionFlags⟩
  refine ⟨i, st', ?_⟩
  rw [romfsOpenR_of_creates checks, romfsCreate, hfree, Option.bind_some]
  dsimp only [OpenFile.plastOr]
  rw [hspace', if_neg (by decide)]
  exact hinst

/-- The invariant of WOFS, without power cuts, is more than the single-writer invariant. -/
theorem WofsInv.singleWriter {h : List FileRec} (hinv : WofsInv False st h) :
    SingleWriter st h := by
  obtain ⟨k, pend, hl, hw⟩ := hinv.layout
  refine ⟨hinv.table.count, ?_, ?_, ?_⟩
  · cases hw with
    | idle writing _ nobody _ =>
      rw [writing]
      refine ⟨fun hset => ?_, fun ⟨fd, hfd⟩ => absurd hfd (nobody fd)⟩
      cases hset
    | busy writing mayWrite _ _ _ _ _ _ _ _ _ => exact ⟨fun _ => ⟨_, mayWrite⟩, fun _ => writing⟩
  · intro fd fd' hfd hfd'
    exact (hw.of_mayWrite hfd').2.1 fd hfd
  · intro hall
    cases hw with
    | busy _ mayWrite _ _ _ _ _ _ _ _ _ =>
      have hopen := mayWrite.1
      rw [hall] at hopen
      cases hopen
    | idle writing pending nobody settled =>
      subst pending
      have hnum : st.romfsNumFd ≠ TOTAL_MAX_FDS := by
        rw [hinv.table.count, usedSlots_eq_zero hall]
        decide
      refine ⟨k, hl.chain, hl.end_marker, fun r hr => (settled r hr).resolve_right id, ?_⟩
      intro garbage path hspace
      exact openR_creates hinv.table hinv.names hl hnum writing hspace

/-- **One writer**: the single-writer invariant holds in every state
of a run whose calls meet `CallOk`, from a WOFS with any closed files
on it. It follows from the invariant of WOFS, where power is never
lost. -/
theorem single_writer {fs : FSDATA} {files : List FileRec} {cs : List Call} {t : Traced}
    (hfs : Mounted fs files) (hclosed : ∀ r ∈ files, r.closed = true)
    (hok : Run.AllSteps tracedStep (fun t c => CallOk t.st c) ⟨romfsInit fs, files⟩ cs)
    (hrun : Run.run tracedStep ⟨romfsInit fs, files⟩ cs = some t) :
    SingleWriter t.st t.history :=
  (WofsInv.run (WofsInv.init hfs fun r hr => .inl (hclosed r hr)) hok hrun).singleWriter

/-- A session with one file, on a fresh WOFS of 64 bytes. -/
theorem single_writer_session : ∃ t, Run.run tracedStep
    ⟨romfsInit (wofsFormat 64 (by decide)), []⟩
    [.openR 0 ⟨[97], by decide⟩ sessionFlags, .closeR 0] = some t ∧ SingleWriter t.st t.history := by
  obtain ⟨t, ht⟩ := Option.isSome_iff_exists.mp (show (Run.run tracedStep
    ⟨romfsInit (wofsFormat 64 (by decide)), []⟩
    [.openR 0 ⟨[97], by decide⟩ sessionFlags, .closeR 0]).isSome = true by decide)
  refine ⟨t, ht, single_writer
    (.of_formatted (formatted_wofsFormat (by decide) (by decide))) (by simp) ?_ ht⟩
  exact ⟨fun _ => ⟨rfl, by decide, by decide, by decide⟩, fun _ _ => ⟨trivial, fun _ _ => trivial⟩⟩

/-- An open with `O_CREAT` for reading, and the close of its descriptor, leave the flag set with
no descriptor open. -/
theorem single_writer_broken : ∃ t, Run.run tracedStep
    ⟨romfsInit (wofsFormat 64 (by decide)), []⟩
    [.openR 0 ⟨[97], by decide⟩ { creat := true }, .closeR 0] = some t ∧
      ¬ SingleWriter t.st t.history := by
  have hrun : (Run.run tracedStep ⟨romfsInit (wofsFormat 64 (by decide)), []⟩
      [.openR 0 ⟨[97], by decide⟩ { creat := true }, .closeR 0]).map
        (fun t => (t.st.fsdata.flags.writing, t.st.fdTable))
      = some (true, List.replicate TOTAL_MAX_FDS FD.unused) := by decide
  obtain ⟨t, ht, heq⟩ := Option.map_eq_some_iff.mp hrun
  rw [Prod.mk.injEq] at heq
  refine ⟨t, ht, fun hsingle => ?_⟩
  obtain ⟨fd, hopen, -⟩ := hsingle.writing_iff.mp heq.1
  have hlt := lt_of_isOpen hopen
  unfold RomfsState.isOpen at hopen
  rw [fd_of_lt hlt] at hopen
  have hmem : t.st.fdTable.get ⟨fd, hlt⟩ ∈ List.replicate TOTAL_MAX_FDS FD.unused := by
    rw [← heq.2]
    exact List.get_mem _ _
  rw [List.eq_of_mem_replicate hmem] at hopen
  exact absurd hopen (by decide)

end Alcor.Proofs.Romfs
