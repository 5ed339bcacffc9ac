import Alcor.Proofs.Romfs.Wofs
import Alcor.Romfs.System

/-!
# `Alcor.Proofs.Romfs.PowerLoss`: lookups after power was lost

The runs of this file may lose power in the middle of any call.
`CutShort` is what a power loss leaves, with the bytes that were written
of an unfinished file behind the records; a run goes on from it if these
bytes are blank (`EventOk`).

The record of an unfinished file has the size `0xFFFFFFFF`. The scans
report such a file, and go on at the start of its contents: the bytes
that were written to it are then taken for records.

* `WofsInv.event`: every event that meets `EventOk` keeps the invariant.
* `faithful_iff`: lookups and iterations end and report exactly the
  closed files that are not deleted, iff no unfinished file is left.
* `contents_taken_for_record`: a run whose scan reports a file that
  nobody has created.
-/

set_option autoImplicit false

namespace Alcor.Proofs.Romfs

open Lib
open Alcor.Romfs

variable {h : List FileRec} {st st' : RomfsState} {cuts : Prop} {n k : Nat} {fs : FSDATA}
  {pend : List UInt8}

/-! ### The bytes that are left -/

/-- What is on the medium, when the calls of `writef` on the way to `pfs'` are known. -/
theorem cut_bytes {pfs pfs' : FSDATA} {ws : List (Nat × List UInt8)}
    (hws : pfs'.medium.writes = pfs.medium.writes ++ ws) (n : Nat) :
    (pfs.cut pfs' n).medium.bytes = storeBytes pfs.medium.bytes ws n := by
  unfold FSDATA.cut
  rw [hws, List.drop_left]

/-- The bytes behind the records are the contents of an unfinished file that is not deleted, or
there are none. -/
def PendingOf (h : List FileRec) (pend : List UInt8) : Prop :=
  pend = [] ∨ ∃ r ∈ h, r.closed = false ∧ r.deleted = false ∧ r.data = pend

/-- What a power loss leaves that cuts no name and no size: the records of the history, and behind
them what was written of the file whose size is missing. -/
structure CutShort (fs : FSDATA) (h : List FileRec) : Prop where
  names : Names h
  writing : fs.flags.writing = false
  layout : ∃ k pend, Layout fs h k pend ∧ PendingOf h pend

/-- A restart from bytes that are laid out with `h`. -/
theorem CutShort.of_cut {pfs pfs' pfs'' : FSDATA} (hn : Names h) (hl : Layout pfs'' h k pend)
    (hpend : PendingOf h pend) (hbytes : (pfs.cut pfs' n).medium.bytes = pfs''.medium.bytes)
    (hwo : pfs''.flags.wo = pfs.flags.wo) (hmax : pfs''.maxSize = pfs.maxSize) :
    CutShort (pfs.cut pfs' n) h :=
  ⟨hn, rfl, k, pend, hl.of_eq hbytes hwo.symm hmax.symm, hpend⟩

/-- Unfinished files that hold no programmed byte are as good as empty. -/
theorem CutShort.mounted (hcut : CutShort fs h) (hblank : UnfinishedBlank h) : Mounted fs h := by
  obtain ⟨k, pend, hl, hpend⟩ := hcut.layout
  refine ⟨hcut.names, hcut.writing, k, hl.drop_pending ?_⟩
  rcases hpend with rfl | ⟨r, hr, unfinished, -, rfl⟩
  · simp
  · exact hblank r hr unfinished

/-- Without unfinished files nothing stands behind the records. -/
theorem CutShort.mounted_of_none (hcut : CutShort fs h) (hnone : NoneUnfinished h) :
    Mounted fs h := by
  obtain ⟨k, pend, hl, hpend⟩ := hcut.layout
  refine ⟨hcut.names, hcut.writing, k, ?_⟩
  rcases hpend with rfl | ⟨r, hr, unfinished, live, -⟩
  · exact hl
  · rcases hnone r hr with hclosed | hdeleted
    · rw [hclosed] at unfinished
      cases unfinished
    · rw [hdeleted] at live
      cases live

/-- The bytes that a descriptor has written so far are those of its file, the last one. -/
theorem WofsInv.pendingOf (hinv : WofsInv cuts st h) :
    ∃ k pend, Layout st.fsdata h k pend ∧ PendingOf h pend := by
  obtain ⟨k, pend, hl, hw⟩ := hinv.layout
  refine ⟨k, pend, hl, ?_⟩
  cases hw with
  | idle _ pending _ _ => exact .inl pending
  | @busy w rs r _ _ _ _ _ last unfinished live _ data _ =>
    exact .inr ⟨r, by simp [last], unfinished, live, data⟩

/-- Bytes that are still pending are blank, where those of the unfinished files are. -/
theorem WofsInv.blank_layout (hinv : WofsInv cuts st h) (hblank : UnfinishedBlank h) :
    ∃ k, Layout st.fsdata h k [] := by
  obtain ⟨k, pend, hl, hpend⟩ := hinv.pendingOf
  refine ⟨k, hl.drop_pending ?_⟩
  rcases hpend with rfl | ⟨r, hr, unfinished, -, rfl⟩
  · simp
  · exact hblank r hr unfinished

/-- A call that writes nothing. -/
theorem cutShort_of_no_writes (hinv : WofsInv cuts st h) (hfs : st'.fsdata = st.fsdata) :
    CutShort (st.fsdata.cut st'.fsdata n) h := by
  obtain ⟨k, pend, hl, hpend⟩ := hinv.pendingOf
  refine .of_cut hinv.names hl hpend ?_ rfl rfl
  rw [hfs, cut_bytes (List.append_nil _).symm]
  rfl

/-! ### Power lost in a call -/

theorem any_isHit {fname : List UInt8} :
    h.any (FileRec.isHit fname) = (h.find? (FileRec.isHit fname)).isSome := by
  rw [Bool.eq_iff_iff, List.any_eq_true, List.find?_isSome]

/-- Power lost while a file is created. -/
theorem cutShort_of_create {garbage : Nat} {path : CStr} {flags : OpenFlags}
    {found free : OpenFile} {res : Except Errno Nat} (hinv : WofsInv cuts st h)
    (hok : CallOk st (.openR garbage path flags)) (checks : Creates path flags st found)
    (lookup : romfsOpenFile [1] (romfsInvalidate found st.fsdata) = some free)
    (at_end : k = free.plastOr (found.plastOr garbage))
    (space : noSpace path k (romfsInvalidate found st.fsdata) = false)
    (install : romfsInstallFd ⟨romfsNewBase path k, 0, 0, openFlagsToFdFlags flags⟩
      { st with fsdata := romfsWriteName path k (romfsInvalidate found st.fsdata) }
      = some (res, st')) (hwhole : WholeFields h st n (.openR garbage path flags)) :
    CutShort (st.fsdata.cut st'.fsdata n)
      (recordCut h st st' n (.openR garbage path flags) (.opened res)) := by
  obtain ⟨hmay, hname, -, -, hl, hnew⟩ := hinv.create hok checks lookup at_end space
  obtain ⟨i, rfl, hfs, hfd, -, -⟩ := romfsInstallFd_spec (romfsNewBase_mod path k) install
  have hfs' : st'.fsdata = romfsWriteName path k (romfsInvalidate found st.fsdata) := hfs
  have hi := hfd i
  rw [if_pos rfl] at hi
  have hrec : recordCut h st st' n (.openR garbage path flags) (.opened (.ok i))
      = if markLength path h + (path.bytes.length + 1) ≤ n then
          Alcor.Romfs.markDeleted path.bytes h ++ [.new path.bytes (romfsNewBase path k)]
        else if n = 0 then h
        else Alcor.Romfs.markDeleted path.bytes h := by
    show (if _ then _ else _) = _
    rw [hmay, if_pos rfl, hi]
  rw [hrec]
  have hn := hinv.names
  have hlenName : (path.bytes ++ [0]).length = path.bytes.length + 1 := by simp
  have hcases := hwhole hmay
  have hnames := hn.create hname (romfsNewBase path k)
  cases found with
  | notFound plast =>
    -- only the name is written: all of it or nothing
    have hmark : markLength path h = 0 := by
      unfold markLength
      rw [any_isHit, hl.find_of_notFound checks.lookup]
      rfl
    have hws : st'.fsdata.medium.writes
        = st.fsdata.medium.writes ++ [(k, path.bytes ++ [0])] := by
      rw [hfs']
      rfl
    have hbytes := cut_bytes hws n
    rw [storeBytes, storeBytes] at hbytes
    rw [hmark, Nat.zero_add] at hcases ⊢
    by_cases hfull : path.bytes.length + 1 ≤ n
    · rw [List.take_of_length_le (by rw [hlenName]; exact hfull)] at hbytes
      rw [if_pos hfull]
      exact .of_cut hnames hnew (.inl rfl) hbytes rfl rfl
    · obtain rfl : n = 0 := by omega
      rw [List.take_zero, Mem.store_nil] at hbytes
      rw [if_neg hfull, if_pos rfl]
      exact .of_cut hn hl (.inl rfl) hbytes rfl rfl
  | ok baseaddr size nameaddr =>
    -- the mark is written before the name, and its first byte deletes the file
    obtain ⟨r, hr, -⟩ := hl.find_of_ok checks.lookup
    have hmark : markLength path h = deletedMark.length := by
      unfold markLength
      rw [any_isHit, hr]
      rfl
    have hws : st'.fsdata.medium.writes = st.fsdata.medium.writes
        ++ [(sub32 (sub32 baseaddr ROMFS_SIZE_LEN) WOFS_DEL_FIELD_SIZE, deletedMark),
          (k, path.bytes ++ [0])] := by
      rw [hfs', romfsInvalidate_ok]
      show (st.fsdata.medium.writes ++ _) ++ _ = _
      rw [List.append_assoc]
      rfl
    have hbytes := cut_bytes hws n
    rw [storeBytes, storeBytes, storeBytes] at hbytes
    rw [hmark] at hcases ⊢
    by_cases hfull : deletedMark.length + (path.bytes.length + 1) ≤ n
    · rw [List.take_of_length_le (show deletedMark.length ≤ n by omega),
        List.take_of_length_le (by rw [hlenName]; omega)] at hbytes
      rw [if_pos hfull]
      rw [romfsInvalidate_ok] at hnew
      refine .of_cut hnames hnew (.inl rfl) ?_ ?_ ?_
      · rw [hbytes, romfsWriteName, FSDATA.setWriting_medium, FSDATA.writef_bytes,
          FSDATA.writef_bytes]
      · rw [romfsWriteName, FSDATA.setWriting_flags, FSDATA.writef_flags, FSDATA.writef_flags]
      · rw [romfsWriteName, FSDATA.setWriting_maxSize, FSDATA.writef_maxSize,
          FSDATA.writef_maxSize]
    · -- the name is not begun, as it would have been complete
      have hname0 : n - deletedMark.length = 0 := by omega
      rw [hname0, List.take_zero, Mem.store_nil] at hbytes
      rw [if_neg hfull]
      by_cases hzero : n = 0
      · rw [hzero, List.take_zero, Mem.store_nil] at hbytes
        rw [if_pos hzero, hzero]
        exact .of_cut hn hl (.inl rfl) hbytes rfl rfl
      · rw [if_neg hzero]
        refine .of_cut (hn.markDeleted path.bytes)
          (hl.invalidate_take hn.live checks.lookup (Nat.pos_of_ne_zero hzero)) (.inl rfl)
          ?_ ?_ ?_
        · rw [hbytes, FSDATA.writef_bytes]
        · rw [FSDATA.writef_flags]
        · rw [FSDATA.writef_maxSize]

/-- Power lost during an open that finds no room for the new file. -/
theorem cutShort_of_full {path : CStr} {flags : OpenFlags} {found : OpenFile}
    (hinv : WofsInv cuts st h) (checks : Creates path flags st found) :
    CutShort (st.fsdata.cut (romfsInvalidate found st.fsdata) n)
      (if n = 0 then h else Alcor.Romfs.markDeleted path.bytes h) := by
  cases found with
  | notFound plast =>
    obtain ⟨k, pend, hl, -⟩ := hinv.layout
    have hsame : Alcor.Romfs.markDeleted path.bytes h = h :=
      markDeleted_of_none (hl.find_of_notFound checks.lookup)
    rw [hsame, ite_self]
    exact cutShort_of_no_writes hinv (rfl : st.fsdata = st.fsdata)
  | ok baseaddr size nameaddr =>
    obtain ⟨k, pend, hl, hw⟩ := hinv.layout
    obtain ⟨rfl, -, -⟩ :=
      hw.of_not_writing (checks.not_writing (mayWrite_of_replace checks.create))
    have hwrites : (romfsInvalidate (.ok baseaddr size nameaddr) st.fsdata).medium.writes
        = st.fsdata.medium.writes
          ++ [(sub32 (sub32 baseaddr ROMFS_SIZE_LEN) WOFS_DEL_FIELD_SIZE, deletedMark)] := by
      rw [romfsInvalidate_ok]
      rfl
    have hbytes := cut_bytes hwrites n
    rw [storeBytes, storeBytes] at hbytes
    by_cases hzero : n = 0
    · rw [hzero, List.take_zero, Mem.store_nil] at hbytes
      rw [if_pos hzero, hzero]
      exact .of_cut hinv.names hl (.inl rfl) hbytes rfl rfl
    · rw [if_neg hzero]
      refine .of_cut (hinv.names.markDeleted path.bytes)
        (hl.invalidate_take hinv.names.live checks.lookup (Nat.pos_of_ne_zero hzero)) (.inl rfl)
        ?_ ?_ ?_
      · rw [hbytes, FSDATA.writef_bytes]
      · rw [FSDATA.writef_flags]
      · rw [FSDATA.writef_maxSize]

/-- Power lost while a session is closed. -/
theorem cutShort_of_close {fd : Nat} (hinv : WofsInv cuts st h) (hopen : st.isOpen fd = true)
    (hwhole : WholeFields h st n (.closeR fd)) :
    CutShort (st.fsdata.cut (romfsCloseR fd st).fsdata n)
      (recordCut h st (romfsCloseR fd st) n (.closeR fd) .closed) := by
  have hfs := romfsCloseR_fsdata fd st
  have hrec : recordCut h st (romfsCloseR fd st) n (.closeR fd) .closed
      = if (st.fd fd).flags.mayWrite && ROMFS_SIZE_LEN ≤ n then closeLast h else h := rfl
  rw [hrec]
  cases hwrite : (st.fd fd).flags.mayWrite with
  | false =>
    rw [hwrite, if_neg (by decide)] at hfs
    rw [Bool.false_and, if_neg (by decide)]
    exact cutShort_of_no_writes hinv hfs
  | true =>
    obtain ⟨k, pend, hl, hw⟩ := hinv.layout
    obtain ⟨-, -, addr, size, rs, r, rfl, unfinished, -, base, rfl, -⟩ :=
      hw.of_mayWrite ⟨hopen, hwrite⟩
    rw [hwrite, if_pos rfl] at hfs
    have hws : (romfsCloseR fd st).fsdata.medium.writes = st.fsdata.medium.writes
        ++ [(sub32 (st.fd fd).baseaddr ROMFS_SIZE_LEN,
          leBytes ROMFS_SIZE_LEN (st.fd fd).size)] := by
      rw [hfs]
      rfl
    have hbytes := cut_bytes hws n
    rw [storeBytes, storeBytes] at hbytes
    rw [Bool.true_and]
    by_cases hfull : ROMFS_SIZE_LEN ≤ n
    · rw [List.take_of_length_le (by rw [length_leBytes]; exact hfull)] at hbytes
      rw [if_pos (by simpa using hfull), closeLast_concat]
      refine .of_cut (hinv.names.replace_last rfl rfl) (hl.writeSize base addr size) (.inl rfl)
        ?_ ?_ ?_
      · rw [hbytes, romfsWriteSize, FSDATA.setWriting_medium, FSDATA.writef_bytes]
      · rw [romfsWriteSize, FSDATA.setWriting_flags, FSDATA.writef_flags]
      · rw [romfsWriteSize, FSDATA.setWriting_maxSize, FSDATA.writef_maxSize]
    · -- the size is not begun either
      rw [if_neg (by simpa using hfull)]
      obtain rfl : n = 0 := (hwhole hwrite).resolve_right hfull
      rw [List.take_zero, Mem.store_nil] at hbytes
      obtain ⟨k', pend', hl', hpend'⟩ := hinv.pendingOf
      exact .of_cut hinv.names hl' hpend' hbytes rfl rfl

/-- Power lost during a write. -/
theorem cutShort_of_write {fd : Nat} {ptr : List UInt8} {res : Except Errno Nat}
    (hinv : WofsInv cuts st h) (hopen : st.isOpen fd = true) (hok : CallOk st (.writeR fd ptr))
    (hout : WriteOutcome fd ptr st res st') :
    CutShort (st.fsdata.cut st'.fsdata n)
      (recordCut h st st' n (.writeR fd ptr) (.written res)) := by
  obtain ⟨k, pend, hl, hw⟩ := hinv.layout
  cases hout with
  | refused readOnly => exact cutShort_of_no_writes hinv rfl
  | ignored mayWrite offset table numFd fsdata =>
    obtain ⟨-, -, -, -, rs, r, rfl, -⟩ := hw.of_mayWrite ⟨hopen, mayWrite⟩
    have hrec : recordCut (rs ++ [r]) st st' n (.writeR fd ptr) (.written (.ok 0))
        = rs ++ [r] := by
      show extendLast _ _ = _
      rw [extendLast_concat, List.take_zero, List.take_nil, List.append_nil]
    rw [hrec]
    exact cutShort_of_no_writes hinv fsdata
  | @stored len st' mayWrite offset length table numFd fsdata =>
    have hfits : WriteFits (st.fd fd) ptr.length st.fsdata := hok mayWrite
    obtain ⟨-, -, addr, size, rs, r, rfl, unfinished, live, base, rfl, -⟩ :=
      hw.of_mayWrite ⟨hopen, mayWrite⟩
    have hrec : recordCut (rs ++ [r]) st st' n (.writeR fd ptr) (.written (.ok len))
        = rs ++ [{ r with data := r.data ++ (ptr.take len).take n }] := by
      show extendLast _ _ = _
      rw [extendLast_concat]
    rw [hrec]
    have hmax := st.fsdata.maxSize_lt
    obtain ⟨-, hwhere, hroom⟩ := hfits.stored length
    rw [addr, size] at hroom
    have htake : ((ptr.take len).take n).length ≤ len := by
      rw [List.length_take, List.length_take]
      omega
    have hnew := (hl.append ((ptr.take len).take n) (by omega)).set_data unfinished
      (r.data ++ (ptr.take len).take n)
    have hwrites : st'.fsdata.medium.writes = st.fsdata.medium.writes
        ++ [(u32 ((st.fd fd).size + (st.fd fd).baseaddr), ptr.take len)] := by
      rw [fsdata]
      rfl
    have hbytes := cut_bytes hwrites n
    rw [storeBytes, storeBytes, hwhere, addr, size] at hbytes
    have hpend : PendingOf (rs ++ [{ r with data := r.data ++ (ptr.take len).take n }])
        (r.data ++ (ptr.take len).take n) :=
      .inr ⟨_, List.mem_append_right rs (List.mem_singleton_self _), unfinished, live, rfl⟩
    exact .of_cut (hinv.names.replace_last rfl rfl) hnew hpend hbytes rfl rfl

/-- Power lost during a call leaves a medium that is laid out with the history, if no name and no
size is cut. -/
theorem cutShort_of_call {c : Call} {reply : Reply} (hinv : WofsInv cuts st h)
    (hok : CallOk st c) (hcall : romfsCall st c = some (reply, st'))
    (hwhole : WholeFields h st n c) :
    CutShort (st.fsdata.cut st'.fsdata n) (recordCut h st st' n c reply) := by
  cases romfsCall_outcome hcall with
  | closeR isOpen => exact cutShort_of_close hinv isOpen hwhole
  | writeR isOpen outcome => exact cutShort_of_write hinv isOpen hok outcome
  | passive passive moved =>
    have hrec : recordCut h st st' n c reply = h := by
      cases c with
      | openR _ _ _ => exact passive.elim
      | closeR _ => exact passive.elim
      | writeR _ _ => exact passive.elim
      | readR _ _ | lseekR _ _ _ | opendirR _ | readdirR | closedirR => rfl
    rw [hrec]
    exact cutShort_of_no_writes hinv moved.fsdata
  | @openR garbage path flags res st' opened =>
    cases romfsOpenR_outcome opened with
    | @refused e check =>
      have hrec : recordCut h st st n (.openR garbage path flags) (.opened (.error e)) = h := by
        cases e <;> first | rfl | exact absurd rfl check
      rw [hrec]
      exact cutShort_of_no_writes hinv rfl
    | existing numFd lookup keep readOnly install =>
      obtain ⟨i, rfl, hfs, -⟩ := romfsInstallFd_spec (romfsOpenFile_ok lookup).1 install
      have hrec : recordCut h st st' n (.openR garbage path flags) (.opened (.ok i)) = h := by
        show (if _ then _ else _) = h
        rw [readOnly, if_neg (by decide)]
      rw [hrec]
      exact cutShort_of_no_writes hinv hfs
    | full checks lookup space => exact cutShort_of_full hinv checks
    | created checks lookup at_end space install =>
      exact cutShort_of_create hinv hok checks lookup at_end space install hwhole

/-! ### Runs -/

/-- The events after which the medium is still laid out with the history: a call that meets
`CallOk`, and power lost during such a call, when no name and no size is cut and no bytes of an
unfinished file are left. -/
def EventOk (t : Traced) : Event → Prop
  | .call c => CallOk t.st c
  | .powerLoss c n => CallOk t.st c ∧ WholeFields t.history t.st n c ∧
      ∀ t', eventStep t (.powerLoss c n) = some t' → UnfinishedBlank t'.history

/-- Every event that meets `EventOk` keeps the invariant. -/
theorem WofsInv.event {t t' : Traced} {e : Event} (hinv : WofsInv True t.st t.history)
    (hok : EventOk t e) (hstep : eventStep t e = some t') : WofsInv True t'.st t'.history := by
  cases e with
  | call c =>
    obtain ⟨⟨reply, st'⟩, hcall, rfl⟩ := Option.map_eq_some_iff.mp hstep
    exact hinv.call hok hcall
  | powerLoss c n =>
    obtain ⟨hcallOk, hwhole, hblank⟩ := hok
    have hblank' := hblank t' hstep
    obtain ⟨⟨reply, st'⟩, hcall, rfl⟩ := Option.map_eq_some_iff.mp hstep
    exact WofsInv.init ((cutShort_of_call hinv hcallOk hcall hwhole).mounted hblank')
      fun _ _ => .inr trivial

theorem WofsInv.events (hfs : Formatted fs) {es : List Event} {t : Traced}
    (hok : Run.AllSteps eventStep EventOk ⟨romfsInit fs, []⟩ es)
    (hrun : Run.run eventStep ⟨romfsInit fs, []⟩ es = some t) : WofsInv True t.st t.history := by
  refine Run.invariant_run (I := fun t => WofsInv True t.st t.history)
    (fun t e t' hinv hok hstep => hinv.event hok hstep) es _ t ?_ hok hrun
  exact WofsInv.init (Mounted.of_formatted hfs) (by simp)

/-! ### What the scans report -/

/-- Without unfinished files, the scans report the closed files that are not deleted. -/
theorem WofsInv.faithful (hinv : WofsInv True st h) (hnone : NoneUnfinished h) : Faithful st h := by
  obtain ⟨k, pend, hl, hw⟩ := hinv.layout
  cases hw with
  | @busy w rs r _ _ _ _ _ last unfinished live _ _ _ =>
    rcases hnone r (by simp [last]) with hc | hd
    · rw [hc] at unfinished
      cases unfinished
    · rw [hd] at live
      cases live
  | idle writing pending nobody settled =>
    subst pending
    refine ⟨?_, ?_, ?_⟩
    · intro r hr hclosed hlive name hname
      obtain ⟨na, hna⟩ :=
        romfsOpenFile_of_find hl.chain (hinv.names.live.find_of_mem hr hlive hname)
      refine ⟨na, ?_⟩
      rw [hna]
      unfold FileRec.sizeField
      rw [hclosed, if_pos rfl]
    · intro name habsent
      refine ⟨k, romfsOpenFile_of_end hl.chain hl.end_marker (List.find?_eq_none.mpr ?_)⟩
      intro r hr hhit
      obtain ⟨hname, hlive⟩ := (FileRec.isHit_iff (hinv.names.length_le r hr)).mp hhit
      have hclosed := (hnone r hr).resolve_right (by rw [hlive]; decide)
      exact habsent r hr hclosed hlive hname
    · have hlists := lists_of_chain _ { st with romfsDirData := 0 } h (Nat.le_refl _) hl.chain
        (by decide : 0 < 2 ^ 32) hl.end_marker
      have hfilter : h.filter (fun r => r.closed && !r.deleted)
          = h.filter (fun r => !r.deleted) := by
        refine List.filter_congr fun r hr => ?_
        rcases hnone r hr with hc | hd
        · rw [hc, Bool.true_and]
        · rw [hd, Bool.not_true, Bool.and_false]
      have hmap : (h.filter (fun r => !r.deleted)).map FileRec.dirent
          = (h.filter (fun r => !r.deleted)).map fun r => ⟨r.name, r.data.length⟩ := by
        refine List.map_congr_left fun r hr => ?_
        obtain ⟨hmem, hlive⟩ := List.mem_filter.mp hr
        have hclosed := (hnone r hmem).resolve_right (by simpa using hlive)
        unfold FileRec.dirent FileRec.sizeField
        rw [hclosed, if_pos rfl]
      rw [hfilter, ← hmap]
      exact hlists

/-- A live file that is unfinished is reported, whatever bytes stand behind the records: the scan
comes to its record before it comes to them. -/
theorem not_faithful (hn : Names h) (hl : Layout st.fsdata h k pend) {r : FileRec} (hr : r ∈ h)
    (hopen : r.closed = false) (hlive : r.deleted = false) : ¬ Faithful st h := by
  intro hf
  have hfull : r.name.take DM_MAX_FNAME_LENGTH = r.name :=
    List.take_of_length_le (hn.length_le r hr)
  obtain ⟨na, hna⟩ :=
    romfsOpenFile_of_find hl.chain (hn.live.find_of_mem hr hlive (by rw [hfull]))
  obtain ⟨j, hj⟩ := hf.absent r.name (by
    intro s hs hclosed hslive heq
    have hfind := hn.live.find_of_mem hs hslive heq
    rw [hn.live.find_of_mem hr hlive (by rw [hfull]), Option.some.injEq] at hfind
    rw [hfind, hclosed] at hopen
    cases hopen)
  rw [hna] at hj
  cases hj

/-- Where the medium is laid out with the history, faithful scans leave no file unfinished. -/
theorem noneUnfinished_of_faithful (st : RomfsState) (hn : Names h)
    (hl : Layout st.fsdata h k pend) (hf : Faithful st h) : NoneUnfinished h := by
  intro r hr
  cases hopen : r.closed with
  | true => exact .inl rfl
  | false =>
    cases hlive : r.deleted with
    | true => exact .inr rfl
    | false => exact absurd hf (not_faithful hn hl hr hopen hlive)

theorem WofsInv.faithful_iff_none (hinv : WofsInv True st h) :
    Faithful st h ↔ NoneUnfinished h := by
  obtain ⟨k, pend, hl, -⟩ := hinv.layout
  exact ⟨noneUnfinished_of_faithful st hinv.names hl, hinv.faithful⟩

/-- After a power loss that leaves programmed bytes of an unfinished file the equivalence holds as
well: the file is reported, so the scans are not faithful. -/
theorem CutShort.faithful_iff_none (hcut : CutShort fs h) :
    Faithful (romfsInit fs) h ↔ NoneUnfinished h := by
  obtain ⟨k, pend, hl, -⟩ := hcut.layout
  refine ⟨noneUnfinished_of_faithful (romfsInit fs) hcut.names hl, fun hnone => ?_⟩
  have hinv : WofsInv True (romfsInit fs) h :=
    WofsInv.init (hcut.mounted_of_none hnone) fun _ _ => .inr trivial
  exact hinv.faithful hnone

/-- In every state of a run with power losses, the scans report the files of the history if and
only if none of these is unfinished. `EventOk` is the condition on the events of the run; it shuts
out the power losses that leave programmed bytes of an unfinished file. The second part is about
the state right after any power loss, of this kind or not: where programmed bytes are left, the
file they belong to is unfinished and the scans are not faithful. -/
theorem faithful_iff {fs : FSDATA} (hfs : Formatted fs) {es : List Event} {t : Traced}
    (hok : Run.AllSteps eventStep EventOk ⟨romfsInit fs, []⟩ es)
    (hrun : Run.run eventStep ⟨romfsInit fs, []⟩ es = some t) :
    (Faithful t.st t.history ↔ NoneUnfinished t.history) ∧
      ∀ c n t', CallOk t.st c → WholeFields t.history t.st n c →
        eventStep t (.powerLoss c n) = some t' →
        (Faithful t'.st t'.history ↔ NoneUnfinished t'.history) := by
  have hinv := WofsInv.events hfs hok hrun
  refine ⟨hinv.faithful_iff_none, fun c n t' hcallOk hwhole hstep => ?_⟩
  obtain ⟨⟨reply, st'⟩, hcall, rfl⟩ := Option.map_eq_some_iff.mp hstep
  exact (cutShort_of_call hinv hcallOk hcall hwhole).faithful_iff_none

/-- Power is lost after the name of `"b"` is written, and then again in a write to `"a"`, of which
one byte is left. Both states have an unfinished file. -/
theorem faithful_iff_cut : ∃ t t', Run.run eventStep ⟨romfsInit (wofsFormat 64 (by decide)), []⟩
    [.powerLoss (.openR 0 ⟨[98], by decide⟩ sessionFlags) 2,
      .call (.openR 0 ⟨[97], by decide⟩ sessionFlags)] = some t ∧
      eventStep t (.powerLoss (.writeR 0 [7, 8]) 1) = some t' ∧
      t'.history = [.new [98] 12, { FileRec.new [97] 24 with data := [7] }] ∧
      (Faithful t.st t.history ↔ NoneUnfinished t.history) ∧
      (Faithful t'.st t'.history ↔ NoneUnfinished t'.history) := by
  have hrun : (Run.run eventStep ⟨romfsInit (wofsFormat 64 (by decide)), []⟩
      [.powerLoss (.openR 0 ⟨[98], by decide⟩ sessionFlags) 2,
        .call (.openR 0 ⟨[97], by decide⟩ sessionFlags)]).map
        (fun t => (t.st.fd 0, t.st.fsdata.maxSize,
          (eventStep t (.powerLoss (.writeR 0 [7, 8]) 1)).map Traced.history))
      = some (⟨24, 0, 0, { write := true }⟩, 64,
          some [.new [98] 12, { FileRec.new [97] 24 with data := [7] }]) := by decide +kernel
  obtain ⟨t, ht, heq⟩ := Option.map_eq_some_iff.mp hrun
  rw [Prod.mk.injEq, Prod.mk.injEq] at heq
  obtain ⟨hfd, hmax, hcut⟩ := heq
  obtain ⟨t', ht', hhist⟩ := Option.map_eq_some_iff.mp hcut
  have hok : Run.AllSteps eventStep EventOk ⟨romfsInit (wofsFormat 64 (by decide)), []⟩
      [.powerLoss (.openR 0 ⟨[98], by decide⟩ sessionFlags) 2,
        .call (.openR 0 ⟨[97], by decide⟩ sessionFlags)] := by
    refine ⟨⟨fun _ => ⟨rfl, by decide, by decide, by decide⟩, fun _ => .inr (by decide), ?_⟩,
      fun t1 _ => ⟨fun _ => ⟨rfl, by decide, by decide, by decide⟩, fun _ _ => trivial⟩⟩
    -- the file whose name alone was written has no contents
    intro t1 ht1 r hr _ b hb
    have hfirst : (eventStep ⟨romfsInit (wofsFormat 64 (by decide)), []⟩
        (.powerLoss (.openR 0 ⟨[98], by decide⟩ sessionFlags) 2)).map Traced.history
        = some [.new [98] 12] := by decide
    rw [ht1, Option.map_some, Option.some.injEq] at hfirst
    rw [hfirst, List.mem_singleton] at hr
    rw [hr] at hb
    cases hb
  have hfits : CallOk t.st (.writeR 0 [7, 8]) := fun _ => by
    constructor
    · rw [hfd]
      decide
    · rw [hfd, hmax]
      decide
  have hboth := faithful_iff (formatted_wofsFormat (by decide) (by decide)) hok ht
  exact ⟨t, t', ht, ht', hhist, hboth.1, hboth.2 _ _ t' hfits trivial ht'⟩

/-- The contents of an unfinished file are taken for a record: the bytes written to `"a"` make the
scan report a file `"x"` that nobody has created. -/
theorem contents_taken_for_record : ∃ t, Run.run eventStep
    ⟨romfsInit (wofsFormat 64 (by decide)), []⟩
    [.call (.openR 0 ⟨[97], by decide⟩ sessionFlags),
      .call (.writeR 0 [120, 0, 0, 0, 0xFF, 0xFF, 0xFF, 0xFF, 0, 0, 0, 0])] = some t ∧
      ¬ Faithful t.st t.history := by
  have hrun : (Run.run eventStep ⟨romfsInit (wofsFormat 64 (by decide)), []⟩
      [.call (.openR 0 ⟨[97], by decide⟩ sessionFlags),
        .call (.writeR 0 [120, 0, 0, 0, 0xFF, 0xFF, 0xFF, 0xFF, 0, 0, 0, 0])]).map
        (fun t => (romfsOpenFile [120] t.st.fsdata, t.history.map FileRec.name))
      = some (some (.ok 24 0 12), [[97]]) := by decide
  obtain ⟨t, ht, heq⟩ := Option.map_eq_some_iff.mp hrun
  rw [Prod.mk.injEq] at heq
  refine ⟨t, ht, fun hf => ?_⟩
  obtain ⟨k, hk⟩ := hf.absent [120] (by
    intro r hr _ _
    have hname : r.name ∈ [[97]] := heq.2 ▸ List.mem_map_of_mem hr
    rw [List.mem_singleton.mp hname]
    decide)
  rw [heq.1] at hk
  cases hk

end Alcor.Proofs.Romfs
