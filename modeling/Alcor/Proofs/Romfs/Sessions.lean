import Alcor.Proofs.Romfs.Wofs
import Alcor.Romfs.System

/-!
# `Alcor.Proofs.Romfs.Sessions`: WOFS is a correct store

The runs of this file are write sessions of any number from a formatted
medium. The state after a run is tied to its log by `StoreInv`: the live
files of the history are the latest versions of the log. A session marks
the old version and adds the new one, and so does the log
(`Versions.latest_concat`).

The condition on the run is that the 32-bit sum in the space check of a
write does not overflow. A name is looked up by its first 30 bytes, so
the part about absent names has to say what happens to longer ones.

* `StoreInv.session`: a session adds its version to the log.
* `correct_store`: the last version of every file is read back, a name
  of at most 30 bytes that was never created is not found, and the
  directory lists the last versions in the order of their creation.
* `StoreInv.sessionOk`: short writes meet the condition.
* `store_overflow`: a run in which the sum overflows. The size that is
  stored then makes the scan start over forever.
-/

set_option autoImplicit false

namespace Alcor.Proofs.Romfs

open Lib
open Alcor.Romfs

variable {fd garbage : Nat} {name : CStr} {t : Stored} {r : FileRec} {ptr : List UInt8}

/-! ### The steps of a session -/

/-- A write of a session. -/
theorem WofsInv.write_step {st : RomfsState} {rs : List FileRec}
    (hinv : WofsInv False st (rs ++ [r])) (hfd : st.MayWrite fd)
    (hmax : st.fsdata.maxSize % ROMFS_ALIGN = 0)
    (hsum : (st.fd fd).baseaddr + (st.fd fd).size + ptr.length < 2 ^ 32) :
    ∃ n, (romfsWriteR fd ptr st).1 = .ok n ∧
      WofsInv False (romfsWriteR fd ptr st).2 (rs ++ [{ r with data := r.data ++ ptr.take n }]) ∧
      (romfsWriteR fd ptr st).2.MayWrite fd ∧
      (romfsWriteR fd ptr st).2.romfsNumFd = st.romfsNumFd ∧
      (romfsWriteR fd ptr st).2.fsdata.maxSize = st.fsdata.maxSize := by
  have hroom : (st.fd fd).baseaddr + (st.fd fd).size + ROMFS_ALIGN ≤ st.fsdata.maxSize :=
    hinv.room hfd hmax
  have hout : WriteOutcome fd ptr st (romfsWriteR fd ptr st).1 (romfsWriteR fd ptr st).2 :=
    romfsWriteR_outcome rfl
  have hnew := hinv.writeR hfd.1 (fun _ => ⟨hsum, hroom⟩) hout
  generalize (romfsWriteR fd ptr st).1 = res at *
  generalize (romfsWriteR fd ptr st).2 = st' at *
  cases hout with
  | refused readOnly =>
    rw [hfd.2] at readOnly
    cases readOnly
  | ignored mayWrite offset table numFd fsdata =>
    refine ⟨0, rfl, ?_, (mayWrite_of_set hinv.table hfd.1 table rfl rfl fd).mpr hfd, numFd,
      by rw [fsdata]⟩
    rw [← extendLast_concat]
    exact hnew
  | @stored len st' mayWrite offset length table numFd fsdata =>
    refine ⟨len, rfl, ?_, (mayWrite_of_set hinv.table hfd.1 table rfl rfl fd).mpr hfd, numFd,
      by rw [fsdata, FSDATA.writef_maxSize]⟩
    rw [← extendLast_concat]
    exact hnew

/-- The writes of a session put the accepted bytes behind one another. -/
theorem WofsInv.writes (ptrs : List (List UInt8)) :
    ∀ {st : RomfsState} {rs : List FileRec} {r : FileRec}, WofsInv False st (rs ++ [r]) →
      st.MayWrite fd → st.fsdata.maxSize % ROMFS_ALIGN = 0 → WritesFit fd ptrs st →
      WofsInv False (runWrites fd ptrs st).2
          (rs ++ [{ r with data := r.data ++ (runWrites fd ptrs st).1 }]) ∧
        (runWrites fd ptrs st).2.MayWrite fd ∧
        (runWrites fd ptrs st).2.romfsNumFd = st.romfsNumFd ∧
        (runWrites fd ptrs st).2.fsdata.maxSize = st.fsdata.maxSize := by
  induction ptrs with
  | nil =>
    intro st rs r hinv hfd _ _
    refine ⟨?_, hfd, rfl, rfl⟩
    show WofsInv False st (rs ++ [{ r with data := r.data ++ [] }])
    rw [List.append_nil]
    exact hinv
  | cons ptr ptrs ih =>
    intro st rs r hinv hfd hmax hfit
    obtain ⟨n, hres, hinv', hfd', hnum, hmax'⟩ := hinv.write_step hfd hmax hfit.1
    obtain ⟨hrest, hfd'', hnum', hmax''⟩ := ih hinv' hfd' (hmax'.symm ▸ hmax) hfit.2
    have hrun : runWrites fd (ptr :: ptrs) st
        = (ptr.take n ++ (runWrites fd ptrs (romfsWriteR fd ptr st).2).1,
          (runWrites fd ptrs (romfsWriteR fd ptr st).2).2) := by
      show (ptr.take (accepted (romfsWriteR fd ptr st).1) ++ _, _) = _
      rw [hres]
      rfl
    rw [hrun]
    refine ⟨?_, hfd'', hnum'.trans hnum, hmax''.trans hmax'⟩
    rw [List.append_assoc] at hrest
    exact hrest

/-- A successful open of a session has created the file and its writer. -/
theorem mayWrite_of_session {st st' : RomfsState}
    (h : romfsOpenR garbage name sessionFlags st = some (.ok fd, st')) :
    st'.MayWrite fd ∧ st'.romfsNumFd = st.romfsNumFd + 1 ∧
      st'.fsdata.maxSize = st.fsdata.maxSize := by
  generalize hres : (Except.ok fd : Except Errno Nat) = res at h
  cases romfsOpenR_outcome h with
  | refused _ => cases hres
  | existing _ _ _ readOnly _ => cases readOnly
  | full _ _ _ => cases hres
  | @created found free k res st' checks lookup at_end space install =>
    obtain ⟨i, rfl, hfs, -, -, hmay⟩ := romfsInstallFd_spec (romfsNewBase_mod name k) install
    obtain ⟨j, -, -, -, hst⟩ := romfsInstallFd_eq install
    cases hres
    refine ⟨(hmay fd).mpr (.inl ⟨rfl, rfl⟩), by rw [hst], ?_⟩
    rw [hfs]
    show (romfsWriteName name k _).maxSize = _
    rw [romfsWriteName, FSDATA.setWriting_maxSize, FSDATA.writef_maxSize,
      romfsInvalidate_maxSize]

/-! ### The log and the history -/

/-- The version that a record stands for. -/
def toVersion (r : FileRec) : Version := ⟨r.name, r.data⟩

/-- The live files of a history, as versions. -/
def liveVersions (h : List FileRec) : List Version :=
  (h.filter fun r => !r.deleted).map toVersion

/-- A state after complete sessions: the live files are the latest versions of the log. -/
structure StoreInv (t : Stored) : Prop where
  numFd : t.st.romfsNumFd = 0
  maxSize : t.st.fsdata.maxSize % ROMFS_ALIGN = 0
  history : ∃ h, WofsInv False t.st h ∧
    liveVersions h = Versions.latest Version.key t.log

/-- The mark drops the versions of the name, and no others. -/
theorem liveVersions_markDeleted {h : List FileRec} {name : List UInt8}
    (hlen : ∀ r ∈ h, r.name.length ≤ DM_MAX_FNAME_LENGTH)
    (hname : name.length ≤ DM_MAX_FNAME_LENGTH) :
    liveVersions (markDeleted name h)
      = (liveVersions h).filter fun v => v.key ≠ lower name := by
  unfold liveVersions markDeleted
  induction h with
  | nil => rfl
  | cons r h ih =>
    have ih' := ih fun s hs => hlen s (by simp [hs])
    have hhit : r.isHit name = true ↔ _ := FileRec.isHit_iff (hlen r (by simp))
    rw [List.take_of_length_le hname] at hhit
    rw [List.map_cons]
    cases hd : r.deleted with
    | true =>
      have hmiss : ¬ r.isHit name = true := fun hc => by
        have hlive := (hhit.mp hc).2
        rw [hd] at hlive
        cases hlive
      rw [if_neg hmiss, List.filter_cons_of_neg (by simp [hd]),
        List.filter_cons_of_neg (by simp [hd]), ih']
    | false =>
      rw [List.filter_cons_of_pos (a := r) (by simp [hd]), List.map_cons]
      by_cases hkey : lower name = lower r.name
      · rw [if_pos (hhit.mpr ⟨hkey, hd⟩), List.filter_cons_of_neg (by simp),
          List.filter_cons_of_neg (by simp [Version.key, toVersion, hkey]), ih']
      · have hkeep : decide ((toVersion r).key ≠ lower name) = true :=
          decide_eq_true (Ne.symm hkey)
        rw [if_neg (fun hc => hkey (hhit.mp hc).1), List.filter_cons_of_pos (by simp [hd]),
          List.map_cons, ih']
        exact (List.filter_cons_of_pos (p := fun v : Version => decide (v.key ≠ lower name))
          hkeep).symm

theorem StoreInv.init {fs : FSDATA} (hfs : Formatted fs) (hmax : fs.maxSize % ROMFS_ALIGN = 0) :
    StoreInv ⟨romfsInit fs, []⟩ :=
  ⟨rfl, hmax, [], WofsInv.init (Mounted.of_formatted hfs) (by simp), rfl⟩

/-- A session adds its version to the log. -/
theorem StoreInv.session {t' : Stored} {s : Session} (hinv : StoreInv t) (hok : SessionOk t s)
    (hstep : sessionStep t s = some t') : StoreInv t' := by
  obtain ⟨hname, hfit⟩ := hok
  obtain ⟨h, hwofs, hlog⟩ := hinv.history
  unfold sessionStep at hstep
  split at hstep
  · rename_i fd st1 hopen
    rw [Option.some.injEq] at hstep
    obtain ⟨hmay, hnum, hmax⟩ := mayWrite_of_session hopen
    have hcreate : CallOk t.st (.openR s.garbage s.name sessionFlags) :=
      fun _ => ⟨rfl, .of_storable hname⟩
    have hnew : WofsInv False st1 (markDeleted s.name.bytes h
        ++ [.new s.name.bytes (st1.fd fd).baseaddr]) := hwofs.openR hcreate hopen
    obtain ⟨hwritten, hmay2, hnum2, hmax2⟩ :=
      hnew.writes s.writes hmay (hmax.symm ▸ hinv.maxSize) (hfit fd st1 hopen)
    have hclosed := hwritten.closeR hmay2.1
    have hrec : ∀ rs r, record (rs ++ [r]) (runWrites fd s.writes st1).2
        (romfsCloseR fd (runWrites fd s.writes st1).2) (.closeR fd) .closed
        = rs ++ [{ r with closed := true }] := by
      intro rs r
      show (if _ then _ else _) = _
      rw [hmay2.2, if_pos rfl, closeLast_concat]
    rw [hrec] at hclosed
    rw [← hstep]
    refine ⟨?_, ?_, _, hclosed, ?_⟩
    · show (runWrites fd s.writes st1).2.romfsNumFd - 1 = 0
      rw [hnum2, hnum, hinv.numFd]
    · show (romfsCloseR fd (runWrites fd s.writes st1).2).fsdata.maxSize % ROMFS_ALIGN = 0
      rw [romfsCloseR_fsdata, hmay2.2, if_pos rfl, romfsWriteSize, FSDATA.setWriting_maxSize,
        FSDATA.writef_maxSize, hmax2, hmax]
      exact hinv.maxSize
    · have hmarked := liveVersions_markDeleted hwofs.names.length_le hname.length_le
      show liveVersions (_ ++ [_]) = Versions.latest _ (t.log ++ [_])
      rw [Versions.latest_concat, ← hlog, liveVersions, List.filter_append, List.map_append]
      rw [liveVersions] at hmarked
      rw [hmarked]
      rfl
  · cases hstep
  · cases hstep

/-! ### Reading a file back -/

/-- Reads from a descriptor return the contents from its position on, piece by piece. -/
theorem readPieces_eq {baseaddr : Nat} {data : List UInt8} {flags : FdFlags}
    (hread : flags.read = true) (hend : baseaddr + data.length < 2 ^ 32) (lens : List Nat) :
    ∀ (st : RomfsState) (offset : Nat), fd < st.fdTable.length →
      st.fd fd = ⟨baseaddr, offset, data.length, flags⟩ → offset ≤ data.length →
      st.fsdata.medium.bytes.Holds baseaddr data →
      readPieces fd lens st = .ok ((data.drop offset).take lens.sum) := by
  induction lens with
  | nil =>
    intro st offset _ _ _ _
    simp [readPieces]
  | cons len lens ih =>
    intro st offset hlt hfd hoff hm
    have hact : min len (sub32 data.length offset) = min len (data.drop offset).length := by
      rw [sub32_of_le hoff (by omega), List.length_drop]
    have hact_le := Nat.min_le_right len (data.drop offset).length
    have hlen := List.length_drop (i := offset) (l := data)
    generalize hn : min len (data.drop offset).length = n at *
    have hbytes : st.fsdata.medium.bytes.read (u32 (offset + baseaddr)) n
        = (data.drop offset).take n := by
      rw [u32_of_lt (by omega), Nat.add_comm]
      exact (hm.drop hoff).read_take hact_le
    have hreadR : romfsReadR fd len st = (.ok ((data.drop offset).take n),
        { st with
          fdTable := st.fdTable.set fd ⟨baseaddr, u32 (offset + n), data.length, flags⟩ }) := by
      unfold romfsReadR
      rw [hfd]
      simp only [hread, hact, hbytes, Bool.not_true, Bool.false_eq_true, if_false]
    have hnext := ih { st with
        fdTable := st.fdTable.set fd ⟨baseaddr, u32 (offset + n), data.length, flags⟩ }
      (u32 (offset + n)) (by rw [List.length_set]; exact hlt)
      (by rw [fd_of_set rfl hlt, if_pos rfl]) (by rw [u32_of_lt (by omega)]; omega) hm
    rw [u32_of_lt (by omega)] at hnext hreadR
    rw [readPieces, hreadR]
    dsimp only
    rw [hnext]
    -- The piece and what the later reads return are the bytes of both.
    have hsplit : (data.drop offset).take (len + lens.sum)
        = (data.drop offset).take n ++ ((data.drop offset).drop n).take lens.sum := by
      rcases Nat.le_total len (data.drop offset).length with hle | hge
      · rw [← hn, Nat.min_eq_left hle, List.take_add]
      · rw [← hn, Nat.min_eq_right hge, List.take_length, List.drop_length, List.take_nil,
          List.append_nil, List.take_of_length_le (by omega)]
    rw [List.sum_cons, hsplit, List.drop_drop]
    rfl

/-- An open for reading of a file that is found. -/
theorem romfsOpenR_of_found {baseaddr size nameaddr : Nat} {st : RomfsState}
    (hnum : st.romfsNumFd ≠ TOTAL_MAX_FDS)
    (hfound : romfsOpenFile name.bytes st.fsdata = some (.ok baseaddr size nameaddr)) :
    romfsOpenR garbage name {} st
      = romfsInstallFd ⟨baseaddr, 0, size, { read := true }⟩ st := by
  unfold romfsOpenR
  rw [if_neg hnum, hfound, Option.bind_some]
  rfl

/-- An open for reading of a file that is not found. -/
theorem romfsOpenR_of_notFound {plast : Nat} {st : RomfsState}
    (hnum : st.romfsNumFd ≠ TOTAL_MAX_FDS)
    (hfound : romfsOpenFile name.bytes st.fsdata = some (.notFound plast)) :
    romfsOpenR garbage name {} st = some (.error .ENOENT, st) := by
  unfold romfsOpenR
  rw [if_neg hnum, hfound, Option.bind_some]
  rfl

/-! ### The store -/

/-- Between the sessions nobody writes: nothing is pending, and every file is closed. -/
structure AtRest (st : RomfsState) (h : List FileRec) (k : Nat) : Prop where
  table : Table st
  names : Names h
  layout : Layout st.fsdata h k []
  closed : ∀ r ∈ h, r.closed = true
  numFd : st.romfsNumFd ≠ TOTAL_MAX_FDS

theorem StoreInv.atRest (hinv : StoreInv t) :
    ∃ h k, AtRest t.st h k ∧ liveVersions h = Versions.latest Version.key t.log := by
  obtain ⟨h, hwofs, hlog⟩ := hinv.history
  obtain ⟨k, pend, hl, hw⟩ := hwofs.layout
  have hnum : t.st.romfsNumFd ≠ TOTAL_MAX_FDS := by
    rw [hinv.numFd]
    decide
  cases hw with
  | @busy w rs r _ mayWrite _ _ _ _ _ _ _ _ _ =>
    have hpos := hwofs.table.usedSlots_pos mayWrite.1
    rw [hinv.numFd] at hpos
    exact absurd hpos (by decide)
  | idle writing pending nobody settled =>
    subst pending
    exact ⟨h, k, ⟨hwofs.table, hwofs.names, hl, fun r hr => (settled r hr).resolve_right id,
      hnum⟩, hlog⟩

section AtRest

variable {st : RomfsState} {h : List FileRec} {k : Nat}

theorem AtRest.sizeField (hrest : AtRest st h k) (hr : r ∈ h) : r.sizeField = r.data.length := by
  rw [FileRec.sizeField, hrest.closed r hr, if_pos rfl]

/-- A name finds the file that is not deleted and has its first 30 bytes for a name. -/
theorem AtRest.find (hrest : AtRest st h k) (hr : r ∈ h) (hlive : r.deleted = false)
    (htake : lower (name.bytes.take DM_MAX_FNAME_LENGTH) = lower r.name) :
    ∃ nameaddr, romfsOpenFile name.bytes st.fsdata = some (.ok r.base r.data.length nameaddr) := by
  obtain ⟨na, hna⟩ := romfsOpenFile_of_find hrest.layout.chain
    (hrest.names.live.find_of_mem hr (by simpa using hlive) htake)
  rw [hrest.sizeField hr] at hna
  exact ⟨na, hna⟩

/-- A file is read back. -/
theorem AtRest.reads (hrest : AtRest st h k) {v : Version}
    (hv : (liveVersions h).find? (fun v => v.key = lower name.bytes) = some v) (garbage : Nat) :
    ∃ fd st', romfsOpenR garbage name {} st = some (.ok fd, st') ∧
      ∀ lens : List Nat, readPieces fd lens st' = .ok (v.data.take lens.sum) := by
  have hkey := List.find?_some hv
  rw [decide_eq_true_eq] at hkey
  obtain ⟨r, hr, rfl⟩ := List.mem_map.mp (List.mem_of_find?_eq_some hv)
  obtain ⟨hmem, hlive⟩ := List.mem_filter.mp hr
  have hclosed := hrest.closed r hmem
  have hlen : name.bytes.length ≤ DM_MAX_FNAME_LENGTH := by
    have hlen := congrArg List.length hkey
    rw [Version.key, length_lower, length_lower] at hlen
    exact hlen ▸ hrest.names.length_le r hmem
  have htake : lower (name.bytes.take DM_MAX_FNAME_LENGTH) = lower r.name := by
    rw [List.take_of_length_le hlen, ← hkey]
    rfl
  obtain ⟨na, hna⟩ := hrest.find hmem (by simpa using hlive) htake
  obtain ⟨j, -, hrec, hend⟩ := hrest.layout.chain.recordAt hmem
  rw [FileRec.span, hclosed, if_pos rfl] at hend
  obtain ⟨fd, st', hinst⟩ := hrest.table.exists_install hrest.numFd
    ⟨r.base, 0, r.data.length, { read := true }⟩
  refine ⟨fd, st', (romfsOpenR_of_found hrest.numFd hna).trans hinst, fun lens => ?_⟩
  obtain ⟨i, hi, hlt, -, rfl⟩ := romfsInstallFd_eq hinst
  cases hi
  have hk : r.base + r.data.length < 2 ^ 32 := by
    have hk := hrest.layout.end_lt.1
    omega
  refine readPieces_eq rfl hk lens _ _ ?_ (by rw [fd_of_set rfl hlt, if_pos rfl])
    (Nat.zero_le _) (hrec.contents hclosed)
  rw [List.length_set]
  exact hlt

/-- A name is not found exactly if its first 30 bytes are the name of no file. Where they are, the
scan finds the record of this file and the open takes a descriptor. -/
theorem AtRest.absent_iff (hrest : AtRest st h k) (garbage : Nat) :
    romfsOpenR garbage name {} st = some (.error .ENOENT, st) ↔
      ∀ v ∈ liveVersions h, lower (name.bytes.take DM_MAX_FNAME_LENGTH) ≠ v.key := by
  constructor
  · intro hopen v hv heq
    obtain ⟨r, hr, rfl⟩ := List.mem_map.mp hv
    obtain ⟨hmem, hlive⟩ := List.mem_filter.mp hr
    obtain ⟨na, hna⟩ := hrest.find hmem (by simpa using hlive) heq
    obtain ⟨fd, st', hinst⟩ := hrest.table.exists_install hrest.numFd
      ⟨r.base, 0, r.data.length, { read := true }⟩
    rw [(romfsOpenR_of_found hrest.numFd hna).trans hinst] at hopen
    cases hopen
  · intro habsent
    refine romfsOpenR_of_notFound hrest.numFd
      (romfsOpenFile_of_end hrest.layout.chain hrest.layout.end_marker
        (List.find?_eq_none.mpr ?_))
    intro r hr hhit
    obtain ⟨hname, hlive⟩ := (FileRec.isHit_iff (hrest.names.length_le r hr)).mp hhit
    exact habsent (toVersion r)
      (List.mem_map_of_mem (List.mem_filter.mpr ⟨hr, by simp [hlive]⟩)) hname

/-- The files are listed in the order of their records. -/
theorem AtRest.lists (hrest : AtRest st h k) :
    Lists { st with romfsDirData := 0 }
      ((liveVersions h).map fun v => ⟨v.name, v.data.length⟩) := by
  have hlists := lists_of_chain _ { st with romfsDirData := 0 } h (Nat.le_refl _)
    hrest.layout.chain (by decide : 0 < 2 ^ 32) hrest.layout.end_marker
  have hmap : (h.filter (fun r => !r.deleted)).map FileRec.dirent
      = (liveVersions h).map fun v => ⟨v.name, v.data.length⟩ := by
    rw [liveVersions, List.map_map]
    refine List.map_congr_left fun r hr => ?_
    unfold FileRec.dirent
    rw [hrest.sizeField (List.mem_filter.mp hr).1]
    rfl
  rw [← hmap]
  exact hlists

end AtRest

/-- The invariant gives all parts of the specification of a store. -/
theorem StoreInv.correctStore (hinv : StoreInv t) : CorrectStore t.st t.log := by
  obtain ⟨h, k, hrest, hlog⟩ := hinv.atRest
  refine ⟨?_, ?_, ?_⟩
  · intro name v hv garbage
    rw [← Versions.find_latest, ← hlog] at hv
    exact hrest.reads hv garbage
  · intro name habsent garbage
    -- every file that was created is still there, in its last version
    have hiff : romfsOpenR garbage name {} t.st = some (.error .ENOENT, t.st) ↔
        ∀ v ∈ t.log, lower (name.bytes.take DM_MAX_FNAME_LENGTH) ≠ v.key := by
      rw [hrest.absent_iff, hlog]
      exact Versions.forall_latest_iff _ _ _
    refine ⟨fun hlen => hiff.mpr ?_, hiff⟩
    rw [List.take_of_length_le hlen]
    exact habsent
  · refine ⟨{ t.st with romfsDirData := 0 }, rfl, ?_⟩
    rw [← hlog]
    exact hrest.lists

/-- After every run of sessions from a formatted medium, the file system is the store of the last
versions. The sums in the space checks of the writes must not overflow (`SessionOk`), and a name
that was never created is not found if it has at most 30 bytes, or if no file has the first 30 of
them for a name. -/
theorem correct_store {fs : FSDATA} (hfs : Formatted fs) (hmax : fs.maxSize % ROMFS_ALIGN = 0)
    {ss : List Session} {t : Stored}
    (hok : Run.AllSteps sessionStep SessionOk ⟨romfsInit fs, []⟩ ss)
    (hrun : Run.run sessionStep ⟨romfsInit fs, []⟩ ss = some t) : CorrectStore t.st t.log :=
  (Run.invariant_run (I := StoreInv) (fun _ _ _ hinv hok hstep => hinv.session hok hstep) ss _ _
    (StoreInv.init hfs hmax) hok hrun).correctStore

/-- Writes that are short beside the medium fit. -/
theorem WofsInv.writesFit (ptrs : List (List UInt8)) :
    ∀ {st : RomfsState} {rs : List FileRec} {r : FileRec}, WofsInv False st (rs ++ [r]) →
      st.MayWrite fd → st.fsdata.maxSize % ROMFS_ALIGN = 0 →
      (∀ ptr ∈ ptrs, st.fsdata.maxSize + ptr.length ≤ 2 ^ 32) → WritesFit fd ptrs st := by
  induction ptrs with
  | nil => exact fun _ _ _ _ => trivial
  | cons ptr ptrs ih =>
    intro st rs r hinv hfd hmax hshort
    obtain ⟨k, pend, hl, hw⟩ := hinv.layout
    obtain ⟨-, -, addr, size, -⟩ := hw.of_mayWrite hfd
    have hptr := hshort ptr (by simp)
    have hend := hl.end_lt.2
    have hsum : (st.fd fd).baseaddr + (st.fd fd).size + ptr.length < 2 ^ 32 := by
      rw [addr, size]
      omega
    obtain ⟨n, -, hinv', hfd', -, hmax'⟩ := hinv.write_step hfd hmax hsum
    exact ⟨hsum, ih hinv' hfd' (hmax'.symm ▸ hmax)
      fun p hp => hmax'.symm ▸ hshort p (by simp [hp])⟩

/-- A session with a storable name and short writes meets the condition of `correct_store`. -/
theorem StoreInv.sessionOk {s : Session} (hinv : StoreInv t) (hname : StorableName s.name)
    (hshort : ∀ ptr ∈ s.writes, t.st.fsdata.maxSize + ptr.length ≤ 2 ^ 32) : SessionOk t s := by
  obtain ⟨h, hwofs, -⟩ := hinv.history
  refine ⟨hname, fun fd st' hopen => ?_⟩
  obtain ⟨hmay, -, hmax⟩ := mayWrite_of_session hopen
  have hcreate : CallOk t.st (.openR s.garbage s.name sessionFlags) :=
    fun _ => ⟨rfl, .of_storable hname⟩
  have hnew : WofsInv False st' (markDeleted s.name.bytes h
      ++ [.new s.name.bytes (st'.fd fd).baseaddr]) := hwofs.openR hcreate hopen
  exact hnew.writesFit s.writes hmay (hmax.symm ▸ hinv.maxSize) (hmax.symm ▸ hshort)

/-- Two versions of one file, on a WOFS of 64 bytes. -/
theorem correct_store_two : ∃ t, Run.run sessionStep ⟨romfsInit (wofsFormat 64 (by decide)), []⟩
    [⟨0, ⟨[97], by decide⟩, [[1, 2], [3]]⟩, ⟨0, ⟨[65], by decide⟩, [[4]]⟩] = some t ∧
      t.log = [⟨[97], [1, 2, 3]⟩, ⟨[65], [4]⟩] ∧ CorrectStore t.st t.log := by
  have hrun : (Run.run sessionStep ⟨romfsInit (wofsFormat 64 (by decide)), []⟩
      [⟨0, ⟨[97], by decide⟩, [[1, 2], [3]]⟩, ⟨0, ⟨[65], by decide⟩, [[4]]⟩]).map Stored.log
      = some [⟨[97], [1, 2, 3]⟩, ⟨[65], [4]⟩] := by decide
  obtain ⟨t, ht, hlog⟩ := Option.map_eq_some_iff.mp hrun
  have hfs : Formatted (wofsFormat 64 (by decide)) := formatted_wofsFormat (by decide) (by decide)
  have hinit : StoreInv ⟨romfsInit (wofsFormat 64 (by decide)), []⟩ := StoreInv.init hfs rfl
  have hfirst := hinit.sessionOk (s := ⟨0, ⟨[97], by decide⟩, [[1, 2], [3]]⟩)
    ⟨by decide, by decide, by decide, by decide⟩ (by decide)
  have hsteps : Run.AllSteps sessionStep SessionOk ⟨romfsInit (wofsFormat 64 (by decide)), []⟩
      [⟨0, ⟨[97], by decide⟩, [[1, 2], [3]]⟩, ⟨0, ⟨[65], by decide⟩, [[4]]⟩] := by
    refine ⟨hfirst, fun t1 ht1 => ⟨?_, fun _ _ => trivial⟩⟩
    have hmax : (sessionStep ⟨romfsInit (wofsFormat 64 (by decide)), []⟩
        ⟨0, ⟨[97], by decide⟩, [[1, 2], [3]]⟩).map (fun t => t.st.fsdata.maxSize) = some 64 := by
      decide
    rw [ht1, Option.map_some, Option.some.injEq] at hmax
    refine (hinit.session hfirst ht1).sessionOk ⟨by decide, by decide, by decide, by decide⟩ ?_
    rw [hmax]
    decide
  exact ⟨t, ht, hlog, correct_store hfs rfl hsteps ht⟩

/-! ### The overflow -/

/-- With a size of `2 ^ 32 - 12` stored in a record whose contents start at 12, the scan goes on
at offset 0 again: no lookup of another file ends. -/
theorem openFile_wrapped {pfs : FSDATA} {data : List UInt8}
    (h : RecordAt pfs 0 ⟨[97], 12, data, true, false⟩) (hwo : pfs.flags.wo = true)
    (hlen : data.length = 4294967284) : romfsOpenFile [98] pfs = none := by
  have hnext : (⟨[97], 12, data, true, false⟩ : FileRec).next32 pfs.flags.wo = 0 := by
    unfold FileRec.next32 FileRec.sizeField
    rw [hwo, if_pos rfl, if_pos rfl, hlen]
    exact (by decide : romfsAlign (u32 (12 + 4294967284)) = 0)
  have hmiss : ¬ FileRec.isHit [98] ⟨[97], 12, data, true, false⟩ = true :=
    (by decide : ¬ (strncasecmpEq [98] [97] DM_MAX_FNAME_LENGTH && !false) = true)
  have hbody : romfsOpenFileBody [98] pfs 0 = .inr 0 := by
    rw [romfsOpenFileBody_of_record h, hnext, if_neg hmiss]
  exact Loop.run_eq_none_of_fixed hbody _

/-- A write at the end of the file. -/
theorem romfsWriteR_of_end {st : RomfsState} (ptr : List UInt8)
    (hmay : (st.fd fd).flags.mayWrite = true) (hend : (st.fd fd).offset = (st.fd fd).size) :
    ∃ len st', len = romfsWriteLen (st.fd fd) ptr.length st.fsdata ∧
      romfsWriteR fd ptr st = (.ok len, st') ∧
      st'.fdTable = st.fdTable.set fd { st.fd fd with
        offset := u32 ((st.fd fd).size + len), size := u32 ((st.fd fd).size + len) } ∧
      st'.fsdata = st.fsdata.writef (ptr.take len)
        (u32 ((st.fd fd).size + (st.fd fd).baseaddr)) := by
  have hsame : (if (st.fd fd).flags.append then { st.fd fd with offset := (st.fd fd).size }
      else st.fd fd) = st.fd fd := by
    rw [← hend]
    split <;> rfl
  unfold romfsWriteR
  simp only [hmay, hsame, hend, ne_eq, not_true_eq_false, if_false, Bool.not_true,
    Bool.false_eq_true, List.set_set]
  exact ⟨_, _, rfl, rfl, rfl, rfl⟩

/-- What the one write and the close of the session leave on the medium. -/
theorem recordAt_writeSize {pfs : FSDATA} {pfd : FD} (h : RecordAt pfs 0 (.new [97] 12))
    (hwo : pfs.flags.wo = true) (haddr : pfd.baseaddr = 12) (hsize : pfd.size = ptr.length)
    (hlen : ptr.length < 2 ^ 32) :
    RecordAt (romfsWriteSize pfd (pfs.writef ptr 12)) 0 ⟨[97], 12, ptr, true, false⟩ := by
  have hold : RecordAt (pfs.writef ptr 12) 0 (.new [97] 12) :=
    h.frame rfl (Mem.agree_store_below _ _ _)
  have hdata : (pfs.writef ptr 12).medium.bytes.Holds (FileRec.new [97] 12).base ptr :=
    Mem.holds_store_self _ _ _
  have hclosed := recordAt_close hold hwo hdata hlen
  have hat : sub32 pfd.baseaddr ROMFS_SIZE_LEN = 12 - 4 := by
    rw [haddr]
    exact sub32_of_le (by decide) (by decide)
  unfold romfsWriteSize
  rw [hat, hsize]
  exact hclosed.frame rfl fun _ _ _ => rfl

/-- On a WOFS of 32 bytes, the one write and the close of the session leave a medium on which the
lookup of any other file never ends. -/
theorem runWrites_wrapped {st : RomfsState} (hfd : st.fd 0 = ⟨12, 0, 0, { write := true }⟩)
    (hmay : st.MayWrite 0) (hwo : st.fsdata.flags.wo = true) (hmax : st.fsdata.maxSize = 32)
    (hrec : RecordAt st.fsdata 0 (.new [97] 12)) (hptr : ptr.length = 4294967284) :
    ∃ st', runWrites 0 [ptr] st = (ptr, st') ∧
      romfsOpenFile [98] (romfsCloseR 0 st').fsdata = none := by
  -- The write stores all its bytes, from the start of the contents on.
  have hwrite : romfsWriteLen (st.fd 0) ptr.length st.fsdata = ptr.length := by
    rw [hfd]
    unfold romfsWriteLen
    rw [hmax, hptr]
    exact if_neg (by decide)
  have hsum : u32 (0 + ptr.length) = ptr.length := by
    rw [Nat.zero_add, hptr]
    decide
  obtain ⟨len, st', hlen, hstep, htab, hfs⟩ :=
    romfsWriteR_of_end ptr hmay.2 (by rw [hfd])
  rw [hwrite] at hlen
  subst hlen
  have hfd' : st'.fd 0 = ⟨12, ptr.length, ptr.length, { write := true }⟩ := by
    rw [fd_of_set htab (lt_of_isOpen hmay.1), if_pos rfl, hfd]
    show FD.mk 12 (u32 (0 + ptr.length)) (u32 (0 + ptr.length)) { write := true } = _
    rw [hsum]
  have hfs' : st'.fsdata = st.fsdata.writef ptr 12 := by
    rw [hfs, List.take_length, hfd]
    exact congrArg _ (by decide : u32 (0 + 12) = 12)
  have hmay' : (st'.fd 0).flags.mayWrite = true := by
    rw [hfd']
    rfl
  have hclose : (romfsCloseR 0 st').fsdata
      = romfsWriteSize (st'.fd 0) (st.fsdata.writef ptr 12) := by
    rw [romfsCloseR_fsdata, if_pos hmay', hfs']
  have hlast : RecordAt (romfsCloseR 0 st').fsdata 0 ⟨[97], 12, ptr, true, false⟩ := by
    rw [hclose]
    exact recordAt_writeSize hrec hwo (by rw [hfd']) (by rw [hfd']) (by omega)
  have hwo' : (romfsCloseR 0 st').fsdata.flags.wo = true := by
    rw [hclose, romfsWriteSize, FSDATA.setWriting_flags, FSDATA.writef_flags]
    exact hwo
  refine ⟨st', ?_, openFile_wrapped hlast hwo' hptr⟩
  unfold runWrites
  rw [hstep]
  simp [runWrites, accepted]

/-- A session whose one write makes the sum of the space check `2 ^ 32`: on a WOFS of 32 bytes the
check passes. The size that is stored leads the scan back to the start, so that the lookup of any
other file never ends. -/
theorem store_overflow : ∃ ptr : List UInt8, ∃ t,
    Run.run sessionStep ⟨romfsInit (wofsFormat 32 (by decide)), []⟩ [⟨0, ⟨[97], by decide⟩, [ptr]⟩]
      = some t ∧ ¬ CorrectStore t.st t.log := by
  obtain ⟨ptr, hptr⟩ : ∃ ptr : List UInt8, ptr.length = 4294967284 :=
    ⟨List.replicate 4294967284 0, List.length_replicate⟩
  have hopen : (romfsOpenR 0 ⟨[97], by decide⟩ sessionFlags
      (romfsInit (wofsFormat 32 (by decide)))).map
        (fun out => (out.1, out.2.fd 0, out.2.fsdata.maxSize))
      = some (.ok 0, ⟨12, 0, 0, { write := true }⟩, 32) := by decide
  obtain ⟨⟨res, st⟩, hopen, heq⟩ := Option.map_eq_some_iff.mp hopen
  rw [Prod.mk.injEq, Prod.mk.injEq] at heq
  obtain ⟨rfl, hfd, hmax⟩ := heq
  -- The record of `a` before the write.
  have hinit : WofsInv False (romfsInit (wofsFormat 32 (by decide))) [] :=
    WofsInv.init (.of_formatted (formatted_wofsFormat (by decide) (by decide))) (by simp)
  have hnew : WofsInv False st [.new [97] (st.fd 0).baseaddr] :=
    hinit.openR (fun _ => ⟨rfl, by decide, by decide, by decide⟩) hopen
  rw [hfd] at hnew
  obtain ⟨k, pend, hl, -⟩ := hnew.layout
  have hrec : RecordAt st.fsdata 0 (.new [97] 12) := by
    cases hl.chain with
    | cons head _ _ => exact head
  obtain ⟨st', hwrites, hloop⟩ :=
    runWrites_wrapped hfd (mayWrite_of_session hopen).1 hl.wo hmax hrec hptr
  have hrun : Run.run sessionStep ⟨romfsInit (wofsFormat 32 (by decide)), []⟩
      [⟨0, ⟨[97], by decide⟩, [ptr]⟩] = some ⟨romfsCloseR 0 st', [⟨[97], ptr⟩]⟩ := by
    rw [Run.run, sessionStep, hopen]
    simp only [hwrites]
    rfl
  refine ⟨ptr, _, hrun, fun hstore => ?_⟩
  have habsent := (hstore.absent ⟨[98], by decide⟩
    (fun v hv => by
      rw [List.mem_singleton.mp hv]
      exact (by decide : lower [98] ≠ lower [97])) 0).1 (by decide)
  unfold romfsOpenR at habsent
  rw [hloop] at habsent
  split at habsent <;> simp at habsent

end Alcor.Proofs.Romfs
