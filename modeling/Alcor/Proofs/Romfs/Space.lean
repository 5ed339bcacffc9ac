import Alcor.Proofs.Romfs.Creation
import Alcor.Romfs.System

/-!
# `Alcor.Proofs.Romfs.Space`: WOFS respects its flash

A run of write sessions passes every byte of the medium to `writef` at
most once. `Spent ws h` is the invariant behind it: the calls `ws` do
not meet, none goes over the end of the contents of the last record,
and the fields that a later call may still fill, the deletion field of
a live record and the size field of an open one, are blank.

* `Spent.mark`, `Spent.name`, `Spent.data`, `Spent.size`: one lemma for
  each of the four ways to write.
* `SpaceInv.step`: a call of a session keeps the invariant.
* `keeps_space`: every run of sessions keeps the WOFS inside its flash.
* `not_always_blank`: while a file is being written, its name stands
  at the end of the last closed record.
-/

set_option autoImplicit false

namespace Alcor.Proofs.Romfs

open Lib
open Alcor.Romfs

variable {r : FileRec} {k fd : Nat} {fs pfs : FSDATA}

/-! ### What is written once -/

/-- A byte of a record that may still be written. -/
def Unwritten (r : FileRec) (x : Nat) : Prop :=
  (r.deleted = false ∧ r.base - 8 ≤ x ∧ x < r.base - 4) ∨
    (r.closed = false ∧ r.base - 4 ≤ x ∧ x < r.base)

/-- The calls do not meet, and they leave room for the fields that are not written yet. -/
structure Spent (ws : List (Nat × List UInt8)) (h : List FileRec) : Prop where
  once : ws.Pairwise fun v w => ∀ x, Covers v x → ¬ Covers w x
  below : ∀ w ∈ ws, w.1 + w.2.length ≤ dataEnd h
  unwritten : ∀ r ∈ h, ∀ x, Unwritten r x → ∀ w ∈ ws, ¬ Covers w x

/-- The records of a history stand behind one another. -/
structure Spaced (h : List FileRec) : Prop where
  base : ∀ r ∈ h, 8 ≤ r.base
  apart : h.Pairwise fun r s => r.base + 8 ≤ s.base

theorem Unwritten.bounds {x : Nat} (h : Unwritten r x) : r.base - 8 ≤ x ∧ x < r.base := by
  rcases h with ⟨-, h1, h2⟩ | ⟨-, h1, h2⟩ <;> omega

@[simp] theorem dataEnd_concat (h : List FileRec) (r : FileRec) :
    dataEnd (h ++ [r]) = r.base + r.data.length := by
  simp [dataEnd]

theorem dataEnd_markDeleted (fname : List UInt8) (h : List FileRec) :
    dataEnd (markDeleted fname h) = dataEnd h := by
  rcases h.eq_nil_or_concat' with rfl | ⟨rs, r, rfl⟩
  · rfl
  · rw [markDeleted, List.map_append, List.map_singleton, dataEnd_concat, dataEnd_concat]
    split <;> rfl

theorem Spaced.base_le {h : List FileRec} (hs : Spaced h) (hr : r ∈ h) : r.base ≤ dataEnd h := by
  rcases h.eq_nil_or_concat' with rfl | ⟨rs, s, rfl⟩
  · cases hr
  · rw [dataEnd_concat]
    rcases List.mem_append.mp hr with hr | hr
    · have := (List.pairwise_append.mp hs.apart).2.2 r hr s (by simp)
      omega
    · rw [List.mem_singleton] at hr
      rw [hr]
      omega

/-- The layout of a WOFS spaces its records. -/
theorem Chain.spaced {i : Nat} {h : List FileRec} (hc : Chain pfs i h k)
    (hwo : pfs.flags.wo = true) : Spaced h := by
  induction hc with
  | nil i => exact ⟨by simp, .nil⟩
  | @cons i k r rs head room tail ih =>
    have hbase := head.name_lt_base.1
    rw [hwo, if_pos rfl] at hbase
    refine ⟨?_, List.pairwise_cons.mpr ⟨?_, ih.apart⟩⟩
    · intro s hs
      rcases List.mem_cons.mp hs with rfl | hs
      · omega
      · exact ih.base s hs
    · intro s hs
      obtain ⟨j, hj, hrec, -⟩ := tail.recordAt hs
      have hnext := r.base_le_next pfs.flags.wo
      have hbase' := hrec.name_lt_base.1
      rw [hwo, if_pos rfl] at hbase'
      omega

/-- A call goes over bytes that were not written, and leaves the fields that are not written
yet. -/
theorem Spent.add {ws : List (Nat × List UInt8)} {h h' : List FileRec} {w : Nat × List UInt8}
    (hsp : Spent ws h) (hfree : ∀ x, Covers w x → dataEnd h ≤ x ∨ ∃ r ∈ h, Unwritten r x)
    (hend : dataEnd h ≤ dataEnd h') (hbelow : w.1 + w.2.length ≤ dataEnd h')
    (hleft : ∀ r ∈ h', ∀ x, Unwritten r x →
      ¬ Covers w x ∧ (dataEnd h ≤ x ∨ ∃ s ∈ h, Unwritten s x)) : Spent (ws ++ [w]) h' := by
  -- no earlier call covers a byte that was not written
  have hold : ∀ x, (dataEnd h ≤ x ∨ ∃ s ∈ h, Unwritten s x) → ∀ v ∈ ws, ¬ Covers v x := by
    rintro x (hx | ⟨s, hs, hx⟩) v hv hcovers
    · exact absurd (Nat.lt_of_lt_of_le hcovers.2 (hsp.below v hv)) (Nat.not_lt.mpr hx)
    · exact hsp.unwritten s hs x hx v hv hcovers
  refine ⟨?_, ?_, ?_⟩
  · refine List.pairwise_append.mpr ⟨hsp.once, List.pairwise_singleton _ _, ?_⟩
    intro v hv w' hw' x hx hx'
    rw [List.mem_singleton] at hw'
    subst hw'
    exact hold x (hfree x hx') v hv hx
  · intro v hv
    rcases List.mem_append.mp hv with hv | hv
    · exact Nat.le_trans (hsp.below v hv) hend
    · rw [List.mem_singleton] at hv
      exact hv ▸ hbelow
  · intro r hr x hx v hv
    obtain ⟨hmiss, hunwritten⟩ := hleft r hr x hx
    rcases List.mem_append.mp hv with hv | hv
    · exact hold x hunwritten v hv
    · rw [List.mem_singleton] at hv
      exact hv ▸ hmiss

/-! ### The four ways to write -/

/-- The deletion mark. -/
theorem Spent.mark {ws : List (Nat × List UInt8)} {as bs : List FileRec}
    (h : Spent ws (as ++ r :: bs)) (hs : Spaced (as ++ r :: bs)) (hlive : r.deleted = false) :
    Spent (ws ++ [(r.base - 8, deletedMark)]) (as ++ { r with deleted := true } :: bs) := by
  have hbase := hs.base r (by simp)
  have hle : r.base ≤ dataEnd (as ++ r :: bs) := hs.base_le (by simp)
  have hend : dataEnd (as ++ { r with deleted := true } :: bs) = dataEnd (as ++ r :: bs) := by
    rcases bs.eq_nil_or_concat' with rfl | ⟨bs, s, rfl⟩
    · rw [dataEnd_concat, dataEnd_concat]
    · rw [← List.cons_append, ← List.cons_append, ← List.append_assoc, ← List.append_assoc,
        dataEnd_concat, dataEnd_concat]
  have hcovers : ∀ x, Covers (r.base - 8, deletedMark) x → r.base - 8 ≤ x ∧ x < r.base - 4 := by
    rintro x ⟨h1, h2⟩
    have h2 : x < r.base - 8 + 4 := h2
    exact ⟨h1, by omega⟩
  refine h.add (fun x hx => .inr ⟨r, by simp, .inl ⟨hlive, hcovers x hx⟩⟩) (Nat.le_of_eq hend.symm)
    ?_ ?_
  · show r.base - 8 + 4 ≤ _
    omega
  · intro s hs' x hx
    obtain ⟨-, hrest, hbefore⟩ := List.pairwise_append.mp hs.apart
    have hbounds := hx.bounds
    rcases List.mem_append.mp hs' with hmem | hmem
    · have := hbefore s hmem r (by simp)
      refine ⟨fun hc => ?_, .inr ⟨s, by simp [hmem], hx⟩⟩
      have := hcovers x hc
      omega
    · rcases List.mem_cons.mp hmem with rfl | hmem
      · -- of the record itself, the size field is left
        rcases hx with ⟨hd, -⟩ | hx
        · cases hd
        · have hlo : r.base - 4 ≤ x := hx.2.1
          refine ⟨fun hc => ?_, .inr ⟨r, by simp, .inr hx⟩⟩
          have := hcovers x hc
          omega
      · have := (List.pairwise_cons.mp hrest).1 s hmem
        refine ⟨fun hc => ?_, .inr ⟨s, by simp [hmem], hx⟩⟩
        have := hcovers x hc
        omega

/-- The name of a new file. -/
theorem Spent.name {ws : List (Nat × List UInt8)} {h : List FileRec} (hsp : Spent ws h)
    (hs : Spaced h) {base : Nat} {bs name : List UInt8} (hk : dataEnd h ≤ k)
    (hbase : k + bs.length + 8 ≤ base) : Spent (ws ++ [(k, bs)]) (h ++ [.new name base]) := by
  have hend : dataEnd (h ++ [.new name base]) = base := dataEnd_concat _ _
  refine hsp.add (fun x hx => .inl (Nat.le_trans hk hx.1)) (by omega) ?_ ?_
  · show k + bs.length ≤ _
    omega
  · intro r hr x hx
    have hbounds := hx.bounds
    rcases List.mem_append.mp hr with hr | hr
    · have := hs.base_le hr
      refine ⟨fun hc => ?_, .inr ⟨r, hr, hx⟩⟩
      have : k ≤ x := hc.1
      omega
    · rw [List.mem_singleton] at hr
      subst hr
      have hlo : base - 8 ≤ x := hbounds.1
      refine ⟨fun hc => ?_, .inl (by omega)⟩
      have : x < k + bs.length := hc.2
      omega

/-- Bytes behind the contents. -/
theorem Spent.data {ws : List (Nat × List UInt8)} {rs : List FileRec} (h : Spent ws (rs ++ [r]))
    (hs : Spaced (rs ++ [r])) (bs : List UInt8) :
    Spent (ws ++ [(r.base + r.data.length, bs)]) (rs ++ [{ r with data := r.data ++ bs }]) := by
  have hend : dataEnd (rs ++ [r]) = r.base + r.data.length := dataEnd_concat _ _
  have hend' : dataEnd (rs ++ [{ r with data := r.data ++ bs }])
      = r.base + r.data.length + bs.length := by
    rw [dataEnd_concat, List.length_append, Nat.add_assoc]
  refine h.add (fun x hx => .inl (hend ▸ hx.1)) (by omega) (Nat.le_of_eq hend'.symm) ?_
  intro s hs' x hx
  have hold : ∃ s' ∈ rs ++ [r], Unwritten s' x := by
    rcases List.mem_append.mp hs' with hmem | hmem
    · exact ⟨s, by simp [hmem], hx⟩
    · rw [List.mem_singleton] at hmem
      subst hmem
      exact ⟨r, by simp, hx⟩
  obtain ⟨s', hs'', hx'⟩ := hold
  refine ⟨fun hc => ?_, .inr ⟨s', hs'', hx'⟩⟩
  have hle := hs.base_le hs''
  have hbounds := hx'.bounds
  have : r.base + r.data.length ≤ x := hc.1
  omega

/-- The size. -/
theorem Spent.size {ws : List (Nat × List UInt8)} {rs : List FileRec} (h : Spent ws (rs ++ [r]))
    (hs : Spaced (rs ++ [r])) (hopen : r.closed = false) {bs : List UInt8} (hlen : bs.length = 4) :
    Spent (ws ++ [(r.base - 4, bs)]) (rs ++ [{ r with closed := true }]) := by
  have hbase := hs.base r (by simp)
  have hend : dataEnd (rs ++ [r]) = r.base + r.data.length := dataEnd_concat _ _
  have hend' : dataEnd (rs ++ [{ r with closed := true }]) = r.base + r.data.length :=
    dataEnd_concat _ _
  have hcovers : ∀ x, Covers (r.base - 4, bs) x → r.base - 4 ≤ x ∧ x < r.base := by
    rintro x ⟨h1, h2⟩
    have h2 : x < r.base - 4 + bs.length := h2
    exact ⟨h1, by omega⟩
  refine h.add (fun x hx => .inr ⟨r, by simp, .inr ⟨hopen, hcovers x hx⟩⟩) (by omega) ?_ ?_
  · show r.base - 4 + bs.length ≤ _
    omega
  · intro s hs' x hx
    obtain ⟨-, -, hbefore⟩ := List.pairwise_append.mp hs.apart
    rcases List.mem_append.mp hs' with hmem | hmem
    · have := hbefore s hmem r (by simp)
      have hbounds := hx.bounds
      refine ⟨fun hc => ?_, .inr ⟨s, by simp [hmem], hx⟩⟩
      have := hcovers x hc
      omega
    · rw [List.mem_singleton] at hmem
      subst hmem
      rcases hx with ⟨hd, hx⟩ | ⟨hc, -⟩
      · have hhi : x < r.base - 4 := hx.2
        refine ⟨fun hc => ?_, .inr ⟨r, by simp, .inl ⟨hd, hx⟩⟩⟩
        have := hcovers x hc
        omega
      · cases hc

/-! ### The steps of a session -/

section Steps
variable {st st' : RomfsState} {h : List FileRec} {ws : List (Nat × List UInt8)}

/-- With no file open the records are closed and end at `k`. -/
theorem WofsInv.idle (hinv : WofsInv False st h) (hnum : st.romfsNumFd = 0) :
    ∃ k, Layout st.fsdata h k [] ∧ st.fsdata.flags.writing = false ∧
      ∀ r ∈ h, r.closed = true := by
  obtain ⟨k, pend, hl, hw⟩ := hinv.layout
  cases hw with
  | busy _ mayWrite _ _ _ _ _ _ _ _ _ =>
    have hpos := hinv.table.usedSlots_pos mayWrite.1
    rw [hnum] at hpos
    exact absurd hpos (by decide)
  | idle writing pending nobody settled =>
    subst pending
    exact ⟨k, hl, writing, fun r hr => (settled r hr).resolve_right id⟩

/-- The next record starts behind the contents of the last one. -/
theorem Layout.dataEnd_eq (hl : Layout pfs h k []) (hclosed : ∀ r ∈ h, r.closed = true) :
    alignUp (dataEnd h) = k := by
  rcases h.eq_nil_or_concat' with rfl | ⟨rs, r, rfl⟩
  · cases hl.chain with
    | nil => rfl
  · obtain ⟨j, -, hlast⟩ := hl.chain.split
    cases hlast with
    | cons head room tail =>
      cases tail with
      | nil =>
        rw [dataEnd_concat, FileRec.next, hl.wo, if_pos rfl, FileRec.span,
          hclosed r (by simp), if_pos rfl]

theorem le_alignUp (x : Nat) : x ≤ alignUp x := by
  unfold alignUp
  omega

/-- The mark on the old version, if there is one. -/
theorem Spent.invalidate {fname : List UInt8} {found : OpenFile} (hsp : Spent ws h)
    (hl : Layout pfs h k []) (hn : LiveNames h) (hfound : romfsOpenFile fname pfs = some found) :
    ∃ ws', (romfsInvalidate found pfs).medium.writes = pfs.medium.writes ++ ws' ∧
      Spent (ws ++ ws') (markDeleted fname h) := by
  cases found with
  | notFound plast =>
    refine ⟨[], (List.append_nil _).symm, ?_⟩
    rw [List.append_nil, markDeleted_of_none (hl.find_of_notFound hfound)]
    exact hsp
  | ok baseaddr size nameaddr =>
    obtain ⟨r, hr, hbase, -⟩ := hl.find_of_ok hfound
    obtain ⟨as, bs, rfl, hmarked⟩ := hn.markDeleted_of_find hr
    have haddr := hl.mark_addr (r := r) (by simp)
    have hlive := ((FileRec.isHit_iff (hn.length_le r (by simp))).mp (List.find?_some hr)).2
    refine ⟨[(r.base - 8, deletedMark)], ?_, ?_⟩
    · rw [romfsInvalidate_ok, ← hbase, haddr]
      rfl
    · rw [hmarked]
      exact hsp.mark (Chain.spaced hl.chain hl.wo) hlive

/-- An open of a session. -/
theorem Spent.openR (hinv : WofsInv False st h) (hsp : Spent ws h) (hnum : st.romfsNumFd = 0)
    {garbage : Nat} {path : CStr} {res : Except Errno Nat} (hpath : StorableName path)
    (hopen : romfsOpenR garbage path sessionFlags st = some (res, st')) :
    st'.fsdata.maxSize = st.fsdata.maxSize ∧
      ∃ ws', st'.fsdata.medium.writes = st.fsdata.medium.writes ++ ws' ∧
        Spent (ws ++ ws') (record h st st' (.openR garbage path sessionFlags) (.opened res)) := by
  obtain ⟨k, hl, -, hclosed⟩ := hinv.idle hnum
  cases romfsOpenR_outcome hopen with
  | refused check =>
    refine ⟨rfl, [], (List.append_nil _).symm, ?_⟩
    rw [record_refused check, List.append_nil]
    exact hsp
  | existing _ _ _ readOnly _ => cases readOnly
  | @full found free checks lookup space =>
    exact ⟨romfsInvalidate_maxSize _ _, hsp.invalidate hl hinv.names.live checks.lookup⟩
  | @created found free k' _ _ checks lookup at_end space install =>
    have hcreate : CallOk st (.openR garbage path sessionFlags) :=
      fun _ => ⟨rfl, .of_storable hpath⟩
    obtain ⟨-, -, -, -, hl', hnew⟩ := hinv.create hcreate checks lookup at_end space
    obtain ⟨i, rfl, hfs, hfd, -⟩ := romfsInstallFd_spec (romfsNewBase_mod path k') install
    obtain ⟨ws', hws', hmarked⟩ := hsp.invalidate hl hinv.names.live checks.lookup
    have hlm := hl.invalidate hinv.names.live checks.lookup fun _ => rfl
    have hrec : record h st st' (.openR garbage path sessionFlags) (.opened (.ok i))
        = markDeleted path.bytes h ++ [.new path.bytes (romfsNewBase path k')] := by
      show markDeleted path.bytes h ++ [.new path.bytes (st'.fd i).baseaddr] = _
      rw [hfd, if_pos rfl]
    -- the name goes behind the padding of the last record
    have hk : k' = k := by
      have h1 := hl.dataEnd_eq hclosed
      have h2 := hl'.dataEnd_eq hclosed
      rw [← h1, ← h2]
    subst hk
    have hle := le_alignUp (dataEnd (markDeleted path.bytes h))
    rw [dataEnd_markDeleted, hl.dataEnd_eq hclosed] at hle
    have hlt := hlm.end_lt.2
    have hbase := romfsNewBase_eq (by simpa using hlt) space
    have hup := le_alignUp (k' + path.bytes.length + 1)
    refine ⟨by rw [hfs]; exact romfsInvalidate_maxSize _ _,
      ws' ++ [(k', path.bytes ++ [0])], ?_, ?_⟩
    · rw [hfs, ← List.append_assoc, ← hws']
      rfl
    · rw [hrec, ← List.append_assoc]
      refine hmarked.name (Chain.spaced hlm.chain hlm.wo)
        (by rw [dataEnd_markDeleted]; exact hle) ?_
      rw [hbase, contentsAt, if_pos rfl, List.length_append, List.length_singleton]
      omega

/-- A write of a session. -/
theorem Spent.writeR (hinv : WofsInv False st h) (hsp : Spent ws h) {ptr : List UInt8}
    {res : Except Errno Nat} (hopen : st.isOpen fd = true)
    (hout : WriteOutcome fd ptr st res st') :
    st'.fsdata.maxSize = st.fsdata.maxSize ∧
      ∃ ws', st'.fsdata.medium.writes = st.fsdata.medium.writes ++ ws' ∧
        Spent (ws ++ ws') (record h st st' (.writeR fd ptr) (.written res)) := by
  obtain ⟨k, pend, hl, hw⟩ := hinv.layout
  cases hout with
  | refused readOnly =>
    refine ⟨rfl, [], (List.append_nil _).symm, ?_⟩
    rw [List.append_nil]
    exact hsp
  | ignored mayWrite offset table numFd fsdata =>
    obtain ⟨-, -, -, -, rs, r, rfl, -⟩ := hw.of_mayWrite ⟨hopen, mayWrite⟩
    refine ⟨by rw [fsdata], [], by rw [fsdata, List.append_nil], ?_⟩
    rw [record_ignored, List.append_nil]
    exact hsp
  | @stored len st' mayWrite offset length table numFd fsdata =>
    obtain ⟨-, -, addr, size, rs, r, rfl, -, -, base, data, -⟩ :=
      hw.of_mayWrite ⟨hopen, mayWrite⟩
    have hend := hl.end_lt.1
    have hwhere : u32 ((st.fd fd).size + (st.fd fd).baseaddr) = r.base + r.data.length := by
      rw [addr, size, base, data, u32_of_lt (by omega), Nat.add_comm]
    have hrec : record (rs ++ [r]) st st' (.writeR fd ptr) (.written (.ok len))
        = rs ++ [{ r with data := r.data ++ ptr.take len }] := extendLast_concat _ _ _
    rw [hwhere] at fsdata
    refine ⟨by rw [fsdata, FSDATA.writef_maxSize], [_], by rw [fsdata]; rfl, ?_⟩
    rw [hrec]
    exact hsp.data (Chain.spaced hl.chain hl.wo) _

/-- The close of a session. -/
theorem Spent.closeR (hinv : WofsInv False st h) (hsp : Spent ws h) (hopen : st.isOpen fd = true) :
    (romfsCloseR fd st).fsdata.maxSize = st.fsdata.maxSize ∧
      ∃ ws', (romfsCloseR fd st).fsdata.medium.writes = st.fsdata.medium.writes ++ ws' ∧
        Spent (ws ++ ws') (record h st (romfsCloseR fd st) (.closeR fd) .closed) := by
  obtain ⟨k, pend, hl, hw⟩ := hinv.layout
  have hfs := romfsCloseR_fsdata fd st
  cases hwrite : (st.fd fd).flags.mayWrite with
  | false =>
    rw [hwrite, if_neg (by decide)] at hfs
    refine ⟨by rw [hfs], [], by rw [hfs, List.append_nil], ?_⟩
    rw [record_close_reader hwrite, List.append_nil]
    exact hsp
  | true =>
    obtain ⟨-, -, addr, size, rs, r, rfl, unfinished, -, base, data, -⟩ :=
      hw.of_mayWrite ⟨hopen, hwrite⟩
    have hs := Chain.spaced hl.chain hl.wo
    have hbase := hs.base r (by simp)
    have hlt := hl.end_lt.1
    have hwhere : sub32 (st.fd fd).baseaddr ROMFS_SIZE_LEN = r.base - 4 := by
      rw [addr, base]
      exact sub32_of_le (by unfold ROMFS_SIZE_LEN; omega) (by omega)
    rw [hwrite, if_pos rfl, romfsWriteSize, hwhere] at hfs
    refine ⟨by rw [hfs]; rfl, [_], by rw [hfs]; rfl, ?_⟩
    rw [record_close_writer hwrite]
    exact hsp.size hs unfinished (length_leBytes _ _)

end Steps

/-! ### Runs -/

/-- The invariant of a run of sessions, from the medium `fs`. -/
structure SpaceInv (fs : FSDATA) (t : Traced) : Prop where
  wofs : WofsInv False t.st t.history
  maxSize : t.st.fsdata.maxSize = fs.maxSize
  spent : ∃ ws, t.st.fsdata.medium.writes = fs.medium.writes ++ ws ∧ Spent ws t.history

theorem SpaceInv.start (hfs : Formatted fs) : SpaceInv fs ⟨romfsInit fs, []⟩ :=
  ⟨WofsInv.init (.of_formatted hfs) (by simp), rfl, [], (List.append_nil _).symm,
    .nil, by simp, by simp⟩

/-- The sum of the space check of a write does not overflow. -/
theorem SpaceInv.writeFits {t : Traced} (hinv : SpaceInv fs t)
    (halign : fs.maxSize % ROMFS_ALIGN = 0) (hmax : fs.maxSize < 2 ^ 31) {len : Nat}
    (hfd : t.st.MayWrite fd) (hlen : len < 2 ^ 31) : WriteFits (t.st.fd fd) len t.st.fsdata := by
  have hroom := hinv.wofs.room hfd (by rw [hinv.maxSize]; exact halign)
  rw [hinv.maxSize] at hroom
  exact ⟨by omega, by rw [hinv.maxSize]; exact hroom⟩

/-- **The step lemma**: a call of a session keeps the invariant, on a
medium whose size is aligned and below `2 ^ 31`. -/
theorem SpaceInv.step (halign : fs.maxSize % ROMFS_ALIGN = 0) (hmax : fs.maxSize < 2 ^ 31)
    (t : Traced) (c : Call) (t' : Traced) (hinv : SpaceInv fs t) (hok : SessionCall t.st c)
    (hstep : tracedStep t c = some t') : SpaceInv fs t' := by
  obtain ⟨⟨reply, st'⟩, hcall, rfl⟩ := Option.map_eq_some_iff.mp hstep
  obtain ⟨ws, hws, hsp⟩ := hinv.spent
  -- it is enough to know what the call has written
  have hafter : ∀ {h' : List FileRec}, WofsInv False st' h' →
      (st'.fsdata.maxSize = t.st.fsdata.maxSize ∧ ∃ ws',
        st'.fsdata.medium.writes = t.st.fsdata.medium.writes ++ ws' ∧ Spent (ws ++ ws') h') →
      SpaceInv fs ⟨st', h'⟩ := by
    rintro h' hwofs ⟨hsize, ws', hws', hsp'⟩
    exact ⟨hwofs, hsize.trans hinv.maxSize, ws ++ ws',
      by rw [hws', hws, List.append_assoc], hsp'⟩
  show SpaceInv fs ⟨st', record t.history t.st st' c reply⟩
  cases romfsCall_outcome hcall with
  | openR opened =>
    obtain ⟨rfl, hpath, hnum⟩ := hok
    exact hafter (hinv.wofs.openR (fun _ => ⟨rfl, .of_storable hpath⟩) opened)
      (Spent.openR hinv.wofs hsp hnum hpath opened)
  | closeR isOpen =>
    exact hafter (hinv.wofs.closeR isOpen) (Spent.closeR hinv.wofs hsp isOpen)
  | writeR isOpen outcome =>
    exact hafter
      (hinv.wofs.writeR isOpen (fun may => hinv.writeFits halign hmax ⟨isOpen, may⟩ hok) outcome)
      (Spent.writeR hinv.wofs hsp isOpen outcome)
  | passive passive moved =>
    rw [record_passive passive]
    refine hafter (hinv.wofs.moved moved) ⟨by rw [moved.fsdata], [], ?_, ?_⟩
    · rw [moved.fsdata, List.append_nil]
    · rw [List.append_nil]
      exact hsp

/-- The invariant gives all parts of the specification. -/
theorem SpaceInv.keepsSpace {t : Traced} (hinv : SpaceInv fs t)
    (halign : fs.maxSize % ROMFS_ALIGN = 0) (hmax : fs.maxSize < 2 ^ 31) : KeepsSpace fs t := by
  have hmarker : alignUp (dataEnd t.history) < fs.maxSize ∧
      t.st.fsdata.medium.bytes (alignUp (dataEnd t.history)) = WOFS_END_MARKER_CHAR := by
    obtain ⟨k, pend, hl, hw⟩ := hinv.wofs.layout
    rw [← hinv.maxSize]
    cases hw with
    | idle writing pending nobody settled =>
      subst pending
      have hlt := hl.end_lt.2
      rw [hl.dataEnd_eq fun r hr => (settled r hr).resolve_right id]
      exact ⟨by simpa using hlt, hl.end_marker⟩
    | busy writing mayWrite only addr size last unfinished live base data settled =>
      rw [last, dataEnd_concat, base, data]
      exact ⟨hl.fits, hl.blank _ (le_alignUp _) hl.fits⟩
  refine ⟨?_, ?_, ?_, hmarker, ?_, ?_⟩
  · obtain ⟨ws, hws, hsp⟩ := hinv.spent
    refine ⟨ws, hws, fun w hw => ?_, hsp.once⟩
    have hbelow := hsp.below w hw
    have hup := le_alignUp (dataEnd t.history)
    omega
  · intro hnum path _
    obtain ⟨k, hl, -⟩ := hinv.wofs.idle hnum
    obtain ⟨found, hfound, -⟩ := hl.exists_found path.bytes
    have hmarked := hl.invalidate hinv.wofs.names.live hfound fun _ => rfl
    have hlt := hl.end_lt.2
    rw [hinv.maxSize, List.length_nil, Nat.add_zero] at hlt
    refine ⟨found, k, hfound, hmarked.free (hinv.wofs.names.markDeleted path.bytes),
      Nat.le_of_lt hlt, ?_⟩
    rw [sub32_of_le (Nat.le_of_lt hlt) (by omega), u32_of_lt (by omega)]
  · intro fd len hfd hlen
    have hfits := hinv.writeFits halign hmax hfd hlen
    refine ⟨hfits.sum_lt, hinv.maxSize ▸ hfits.room, ?_⟩
    rw [romfsWriteLen_of_fits hfits, hinv.maxSize]
  · intro hnum
    obtain ⟨k, hl, -, hclosed⟩ := hinv.wofs.idle hnum
    have hend : closedEnd t.history = alignUp (dataEnd t.history) := by
      rw [closedEnd, List.filter_eq_self.mpr hclosed]
    refine ⟨hend, fun fname => ?_⟩
    obtain ⟨found, hfound, -, hmiss⟩ := hl.exists_found fname
    rw [hend, hl.dataEnd_eq hclosed, hfound]
    cases found with
    | ok baseaddr size na => exact .inl ⟨baseaddr, size, na, rfl⟩
    | notFound plast => exact .inr (congrArg some (hmiss rfl))
  · intro hnum garbage path
    obtain ⟨k, hl, -⟩ := hinv.wofs.idle hnum
    exact Readable.returns ⟨hinv.wofs.table, hinv.wofs.names.live, hl⟩ garbage path sessionFlags

/-- **WOFS respects its flash**: after every run of write sessions from a formatted medium, the
last of which may still be open, the ranges passed to `writef` lie inside the medium and no byte
was passed twice, no space check wraps, and the scan ends at a blank byte behind the last closed
record. While a file is open its record stands there, and a blank byte is left behind that one. -/
theorem keeps_space {fs : FSDATA} (hfs : Formatted fs) (halign : fs.maxSize % ROMFS_ALIGN = 0)
    (hmax : fs.maxSize < 2 ^ 31) {cs : List Call} {t : Traced}
    (hok : Run.AllSteps tracedStep (fun t c => SessionCall t.st c) ⟨romfsInit fs, []⟩ cs)
    (hrun : Run.run tracedStep ⟨romfsInit fs, []⟩ cs = some t) : KeepsSpace fs t :=
  (Run.invariant_run (I := SpaceInv fs) (SpaceInv.step halign hmax) cs _ _ (SpaceInv.start hfs)
    hok hrun).keepsSpace halign hmax

/-- A session that is still open, on a WOFS of 64 bytes. -/
theorem keeps_space_open : ∃ t, Run.run tracedStep ⟨romfsInit (wofsFormat 64 (by decide)), []⟩
    [.openR 0 ⟨[97], by decide⟩ sessionFlags, .writeR 0 [1, 2]] = some t ∧
      KeepsSpace (wofsFormat 64 (by decide)) t := by
  have hsome : (Run.run tracedStep ⟨romfsInit (wofsFormat 64 (by decide)), []⟩
      [.openR 0 ⟨[97], by decide⟩ sessionFlags, .writeR 0 [1, 2]]).isSome = true := by decide
  obtain ⟨t, ht⟩ := Option.isSome_iff_exists.mp hsome
  exact ⟨t, ht, keeps_space (formatted_wofsFormat (by decide) (by decide)) rfl (by decide)
    (by decide +kernel) ht⟩

/-- The name of the file that is being written stands at the end of the last closed record. -/
theorem not_always_blank : ¬ ∀ (cs : List Call) (t : Traced),
    Run.AllSteps tracedStep (fun t c => SessionCall t.st c)
      ⟨romfsInit (wofsFormat 64 (by decide)), []⟩ cs →
    Run.run tracedStep ⟨romfsInit (wofsFormat 64 (by decide)), []⟩ cs = some t →
    t.st.fsdata.medium.bytes (closedEnd t.history) = WOFS_END_MARKER_CHAR := by
  intro h
  have hrun : (Run.run tracedStep ⟨romfsInit (wofsFormat 64 (by decide)), []⟩
      [.openR 0 ⟨[97], by decide⟩ sessionFlags, .closeR 0,
        .openR 0 ⟨[98], by decide⟩ sessionFlags]).map
          (fun t => t.st.fsdata.medium.bytes (closedEnd t.history)) = some 98 := by decide
  obtain ⟨t, ht, hbyte⟩ := Option.map_eq_some_iff.mp hrun
  have hblank := h _ t (by decide +kernel) ht
  rw [hbyte] at hblank
  exact absurd hblank (by decide)

end Alcor.Proofs.Romfs
