import Mathlib.Data.Fintype.Card
import Alcor.Romfs.Directory

/-!
# `Alcor.Proofs.Romfs.Scan`: the scan of a directory

A look-up and an iteration follow the records of the medium. Each of the
two loops has one lemma about a pass over one record, and one about a
whole chain of records, by induction on the chain.

All iterations of a file system share one position. A read of one moves
the others, so a listing is complete only if nobody else reads between.

* `romfsOpenFile_of_find`, `romfsOpenFile_of_end`: what a look-up over a
  chain of records returns.
* `lists_of_chain`: what an iteration over a chain of records reports.
* `iterations_independent`: the interleavings in which every iteration
  sees the complete listing.
* `not_always_independent`: two iterations that take turns.
-/

set_option autoImplicit false

/-!
## What the two scans do on a chain of records

`romfsOpenFileBody_of_record` and `romfsReaddirBody_of_record` run one
pass of the scans on a record. From them, over a chain of records:

* `romfsOpenFile_of_find`: the scan reports the first record that has
  the name and is not deleted;
* `romfsOpenFile_of_end`: without such a record it stops at the end
  marker;
* `lists_of_chain`: a directory iteration reports the records that are
  not deleted, in order.

`romfsOpenFile_eq_none_iff` says that `none` is a scan that never
ends, so the number of passes in the definition is no restriction.
-/

namespace Alcor.Proofs.Romfs

open Lib
open Alcor.Romfs

variable {pfs : FSDATA} {i k : Nat} {r : FileRec} {fname : List UInt8} {rs : List FileRec}

/-! ### Reading the fields of a record -/

/-- The name loop of `romfs_open_file` on a name of at most `k` bytes. With exactly `k` bytes the
terminator is not read. -/
theorem romfsReadName_of_holds {name : List UInt8} :
    ∀ {i : Nat}, pfs.medium.bytes.Holds i (name ++ [0]) → 0 ∉ name → name.length ≤ k →
      i + name.length < 2 ^ 32 → romfsReadName pfs i k = name := by
  induction k generalizing name with
  | zero =>
    intro i _ _ hlen _
    rw [List.length_eq_zero_iff.mp (Nat.le_zero.mp hlen)]
    rfl
  | succ k ih =>
    intro i hm hnul hlen hlt
    cases name with
    | nil =>
      rw [List.nil_append, Mem.holds_cons] at hm
      simp [romfsReadName, romfshRead8, hm.1]
    | cons c cs =>
      rw [List.cons_append, Mem.holds_cons] at hm
      rw [List.length_cons] at hlen hlt
      have hc : c ≠ 0 := fun h => hnul (by simp [h])
      have hrest := ih hm.2 (fun h => hnul (List.mem_cons_of_mem c h)) (by omega) (by omega)
      rw [romfsReadName, romfshRead8, hm.1, if_neg hc, u32_of_lt (by omega), hrest]

/-- The name loop of `romfs_readdir_r` on a name of fewer than `k` bytes. -/
theorem readdirName_of_holds {name : List UInt8} :
    ∀ {i : Nat}, pfs.medium.bytes.Holds i (name ++ [0]) → 0 ∉ name → name.length < k →
      i + name.length + 1 < 2 ^ 32 →
      readdirName pfs i k = some (name, i + name.length + 1) := by
  induction k generalizing name with
  | zero =>
    intro i _ _ hlen _
    omega
  | succ k ih =>
    intro i hm hnul hlen hlt
    cases name with
    | nil =>
      rw [List.nil_append, Mem.holds_cons] at hm
      simp [readdirName, romfshRead8, hm.1, u32_of_lt (show i + 1 < 2 ^ 32 by simpa using hlt)]
    | cons c cs =>
      rw [List.cons_append, Mem.holds_cons] at hm
      rw [List.length_cons] at hlen hlt
      have hc : c ≠ 0 := fun h => hnul (by simp [h])
      have hrest := ih hm.2 (fun h => hnul (List.mem_cons_of_mem c h)) (by omega) (by omega)
      rw [readdirName, romfshRead8, hm.1]
      simp only [if_neg hc, u32_of_lt (show i + 1 < 2 ^ 32 by omega), hrest, Option.map_some,
        List.length_cons]
      congr 2
      omega

/-- The size field is the number its four bytes stand for. -/
theorem romfsReadSize_of_holds {j n : Nat}
    (hm : pfs.medium.bytes.Holds j (leBytes ROMFS_SIZE_LEN n)) (hn : n < 2 ^ 32)
    (hj : j + 3 < 2 ^ 32) : romfsReadSize pfs j = n := by
  simp only [ROMFS_SIZE_LEN, leBytes, Mem.holds_cons, Mem.holds_nil, and_true] at hm
  obtain ⟨h0, h1, h2, h3⟩ := hm
  rw [show j + 1 + 1 = j + 2 by omega] at h2
  rw [show j + 1 + 1 + 1 = j + 3 by omega] at h3
  unfold romfsReadSize romfshRead8
  rw [u32_of_lt (show j + 1 < 2 ^ 32 by omega), u32_of_lt (show j + 2 < 2 ^ 32 by omega),
    u32_of_lt hj, h0, h1, h2, h3]
  simp only [UInt8.toNat_ofNat', Nat.shiftLeft_eq, u32]
  omega

/-- The first byte of a record is not the end marker. -/
theorem read8_of_record (h : RecordAt pfs i r) : romfshRead8 i pfs ≠ WOFS_END_MARKER_CHAR := by
  have hm := h.name
  have hhead := h.head
  unfold romfshRead8
  cases hn : r.name with
  | nil =>
    rw [hn, List.nil_append, Mem.holds_cons] at hm
    rw [hm.1]
    decide
  | cons c cs =>
    rw [hn, List.cons_append, Mem.holds_cons] at hm
    rw [hn, List.head?_cons] at hhead
    rw [hm.1]
    exact fun hc => hhead (by rw [hc])

/-! ### One pass of the scans -/

/-- The deletion field, as both scans read it. -/
theorem isDeleted_of_record (h : RecordAt pfs i r) :
    (romfshIsWofs pfs && romfshRead8 (alignUp (i + r.name.length + 1)) pfs == WOFS_FILE_DELETED)
      = r.deleted := by
  have hmark := h.mark
  have hbase := h.base
  unfold romfshIsWofs romfshRead8
  cases hwo : pfs.flags.wo with
  | false =>
    simp only [hwo, Bool.false_eq_true, if_false] at hmark
    simp [hmark.1]
  | true =>
    rw [hwo, contentsAt, if_pos rfl] at hbase
    simp only [hwo, if_true] at hmark
    rw [hbase, Nat.add_sub_cancel] at hmark
    rw [Bool.true_and, Bool.eq_iff_iff, beq_iff_eq]
    exact hmark

/-- Where both scans find the size field. -/
theorem sizeAt_of_record (h : RecordAt pfs i r) :
    (if romfshIsWofs pfs then u32 (alignUp (i + r.name.length + 1) + WOFS_DEL_FIELD_SIZE)
      else alignUp (i + r.name.length + 1)) = r.base - 4 := by
  have hfits := h.base_lt
  rw [h.base, contentsAt] at hfits ⊢
  unfold romfshIsWofs WOFS_DEL_FIELD_SIZE ROMFS_ALIGN
  cases hwo : pfs.flags.wo with
  | false =>
    simp
  | true =>
    simp only [hwo, if_true] at hfits ⊢
    rw [u32_of_lt (by omega)]
    omega

/-- One pass of `romfs_open_file` on a record: stop if the record has the name and is not
deleted, else go on at the next record. -/
theorem romfsOpenFileBody_of_record (h : RecordAt pfs i r) (fname : List UInt8) :
    romfsOpenFileBody fname pfs i
      = if r.isHit fname then .inl (.ok r.base r.sizeField i)
        else .inr (r.next32 pfs.flags.wo) := by
  have hfits := h.base_lt
  have hname := h.name_lt_base.1
  have hi : i + r.name.length + 1 + 4 ≤ r.base := by
    split at hname <;> omega
  have hread := romfsReadName_of_holds h.name h.nulFree h.nameLen (by omega)
  have halign : romfsAlign (u32 (i + r.name.length + 1)) = alignUp (i + r.name.length + 1) := by
    rw [u32_of_lt (by omega), romfsAlign_eq (by omega)]
  have hsize := romfsReadSize_of_holds h.size h.sizeField_lt (by omega)
  have hj : u32 (r.base - 4 + ROMFS_SIZE_LEN) = r.base := by
    unfold ROMFS_SIZE_LEN
    rw [u32_of_lt (by omega)]
    omega
  unfold romfsOpenFileBody
  rw [if_neg (read8_of_record h)]
  simp only [hread, halign, isDeleted_of_record h, sizeAt_of_record h, hsize, hj]
  unfold FileRec.isHit FileRec.next32 romfshIsWofs
  split
  · rfl
  · split <;> rfl

/-- One pass of `romfs_readdir_r` on a record: report it, or go on behind it if it is deleted. -/
theorem romfsReaddirBody_of_record (h : RecordAt pfs i r) :
    romfsReaddirBody pfs i
      = if r.deleted then .inr (r.next32 pfs.flags.wo)
        else .inl (.entry r.dirent (r.next32 pfs.flags.wo)) := by
  have hfits := h.base_lt
  have hname := h.name_lt_base.1
  have hi : i + r.name.length + 1 + 4 ≤ r.base := by
    split at hname <;> omega
  have hlen : r.name.length < DM_MAX_FNAME_LENGTH + 1 := Nat.lt_succ_of_le h.nameLen
  have hread := readdirName_of_holds h.name h.nulFree hlen (by omega)
  have halign : romfsAlign (i + r.name.length + 1) = alignUp (i + r.name.length + 1) :=
    romfsAlign_eq (by omega)
  have hsize := romfsReadSize_of_holds h.size h.sizeField_lt (by omega)
  have hj : u32 (r.base - 4 + ROMFS_SIZE_LEN) = r.base := by
    unfold ROMFS_SIZE_LEN
    rw [u32_of_lt (by omega)]
    omega
  have hnext : (if romfshIsWofs pfs then romfsAlign (u32 (r.base + r.sizeField))
      else u32 (r.base + r.sizeField)) = r.next32 pfs.flags.wo := rfl
  unfold romfsReaddirBody
  rw [if_neg (read8_of_record h), hread]
  simp only [halign, isDeleted_of_record h, sizeAt_of_record h, hsize, hj, hnext]
  cases r.deleted with
  | false => rfl
  | true => rfl

/-! ### The scans as 32-bit loops -/

theorem romfsOpenFileBody_lt {i' : Nat} (h : romfsOpenFileBody fname pfs i = .inr i') :
    i' < 2 ^ 32 := by
  unfold romfsOpenFileBody at h
  split at h
  · cases h
  · dsimp only at h
    split at h
    · cases h
    · split at h
      · rw [Sum.inr.injEq] at h
        exact h ▸ romfsAlign_lt _
      · rw [Sum.inr.injEq] at h
        exact h ▸ u32_lt _

theorem romfsReaddirBody_lt {i' : Nat} (h : romfsReaddirBody pfs i = .inr i') : i' < 2 ^ 32 := by
  unfold romfsReaddirBody at h
  split at h
  · cases h
  · split at h
    · cases h
    · dsimp only at h
      split at h
      · cases h
      · rw [Sum.inr.injEq] at h
        split at h
        · exact h ▸ romfsAlign_lt _
        · exact h ▸ u32_lt _

/-- A loop over 32-bit offsets returns within `2 ^ 32` passes or never. -/
theorem run_u32_of_run {α : Type} {body : Nat → α ⊕ Nat}
    (hbody : ∀ i i', body i = .inr i' → i' < 2 ^ 32) {n : Nat} {a : α} (hi : i < 2 ^ 32)
    (h : Loop.run body n i = some a) : Loop.run body (2 ^ 32) i = some a := by
  cases hr : Loop.run body (2 ^ 32) i with
  | some b => rw [Loop.run_det h hr]
  | none =>
    -- after as many passes as there are offsets, no value comes any more
    have hnone := Loop.run_eq_none_of_card (Finset.range (2 ^ 32))
      (fun s _ s' hs' => Finset.mem_range.mpr (hbody s s' hs')) (Finset.mem_range.mpr hi)
      (by rw [Finset.card_range]; exact hr) n
    rw [h] at hnone
    exact absurd hnone (by simp)

/-- `romfs_open_file` has no result exactly when its scan never ends. -/
theorem romfsOpenFile_eq_none_iff (fname : List UInt8) (pfs : FSDATA) :
    romfsOpenFile fname pfs = none ↔
      ∀ n, Loop.run (romfsOpenFileBody fname pfs) n 0 = none := by
  constructor
  · intro h n
    cases hr : Loop.run (romfsOpenFileBody fname pfs) n 0 with
    | none => rfl
    | some a =>
      have := run_u32_of_run (fun _ _ => romfsOpenFileBody_lt) (by decide) hr
      rw [romfsOpenFile, this] at h
      exact absurd h (by simp)
  · intro h
    exact h _

/-! ### The scans over a chain -/

/-- Over a chain with a record to stop at, the scan stops at the first such record. -/
theorem run_openFile_of_find (h : Chain pfs i rs k)
    (hr : rs.find? (FileRec.isHit fname) = some r) :
    ∃ na, Loop.run (romfsOpenFileBody fname pfs) rs.length i
      = some (.ok r.base r.sizeField na) := by
  induction h with
  | nil i => simp at hr
  | @cons i k s rs head room tail ih =>
    have hbody := romfsOpenFileBody_of_record head fname
    rw [head.next32_eq room] at hbody
    by_cases hs : s.isHit fname = true
    · -- the scan stops at this record
      rw [List.find?_cons_of_pos hs, Option.some.injEq] at hr
      subst hr
      rw [if_pos hs] at hbody
      exact ⟨i, Loop.run_succ_of_inl hbody _⟩
    · rw [List.find?_cons_of_neg hs] at hr
      rw [if_neg hs] at hbody
      obtain ⟨na, hna⟩ := ih hr
      exact ⟨na, by rw [List.length_cons, Loop.run_succ_of_inr hbody, hna]⟩

/-- Over a chain without a record to stop at, the scan reaches the end of the chain. -/
theorem run_openFile_of_end (h : Chain pfs i rs k)
    (hend : romfshRead8 k pfs = WOFS_END_MARKER_CHAR)
    (hr : rs.find? (FileRec.isHit fname) = none) :
    Loop.run (romfsOpenFileBody fname pfs) (rs.length + 1) i = some (.notFound k) := by
  induction h with
  | nil i => exact Loop.run_succ_of_inl (by rw [romfsOpenFileBody, if_pos hend]) _
  | @cons i k s rs head room tail ih =>
    have hbody := romfsOpenFileBody_of_record head fname
    rw [head.next32_eq room] at hbody
    have hs : ¬ s.isHit fname = true := fun hs => by
      rw [List.find?_cons_of_pos hs] at hr
      exact absurd hr (by simp)
    rw [List.find?_cons_of_neg hs] at hr
    rw [if_neg hs] at hbody
    rw [List.length_cons, Loop.run_succ_of_inr hbody, ih hend hr]

/-- `romfs_open_file` reports the first record that has the name and is not deleted. -/
theorem romfsOpenFile_of_find (h : Chain pfs 0 rs k)
    (hr : rs.find? (FileRec.isHit fname) = some r) :
    ∃ na, romfsOpenFile fname pfs = some (.ok r.base r.sizeField na) := by
  obtain ⟨na, hna⟩ := run_openFile_of_find h hr
  exact ⟨na, run_u32_of_run (fun _ _ => romfsOpenFileBody_lt) (by decide) hna⟩

/-- Without such a record, `romfs_open_file` reports the end of the directory. -/
theorem romfsOpenFile_of_end (h : Chain pfs 0 rs k)
    (hend : romfshRead8 k pfs = WOFS_END_MARKER_CHAR)
    (hr : rs.find? (FileRec.isHit fname) = none) : romfsOpenFile fname pfs = some (.notFound k) :=
  run_u32_of_run (fun _ _ => romfsOpenFileBody_lt) (by decide) (run_openFile_of_end h hend hr)

/-! ### Directory iterations -/

/-- One call of `romfs_readdir_r` on a chain: it skips the deleted records and reports the first
one that is not deleted, or what is behind the chain. -/
theorem run_readdir_of_chain {out : Readdir} (h : Chain pfs i rs k)
    (hend : romfsReaddirBody pfs k = .inl out) :
    (rs.filter (fun r => !r.deleted) = [] ∧
      ∃ n, Loop.run (romfsReaddirBody pfs) n i = some out) ∨
    ∃ r ss j, rs.filter (fun r => !r.deleted) = r :: ss.filter (fun r => !r.deleted) ∧
      Chain pfs j ss k ∧ ss.length < rs.length ∧ j < 2 ^ 32 ∧
      ∃ n, Loop.run (romfsReaddirBody pfs) n i = some (.entry r.dirent j) := by
  induction h with
  | nil i =>
    exact .inl ⟨rfl, 1, Loop.run_succ_of_inl hend 0⟩
  | @cons i k s rs head room tail ih =>
    have hbody := romfsReaddirBody_of_record head
    rw [head.next32_eq room] at hbody
    cases hd : s.deleted with
    | false =>
      rw [hd, if_neg (by decide)] at hbody
      refine .inr ⟨s, rs, s.next pfs.flags.wo, by simp [hd], tail, by simp,
        FileRec.next_lt room, 1, Loop.run_succ_of_inl hbody 0⟩
    | true =>
      -- a deleted record costs a pass and is not reported
      rw [hd, if_pos rfl] at hbody
      have hskip : (s :: rs).filter (fun r => !r.deleted) = rs.filter (fun r => !r.deleted) := by
        simp [hd]
      rw [hskip]
      rcases ih hend with ⟨hnil, n, hn⟩ | ⟨r, ss, j, hf, hss, hlen, hj, n, hn⟩
      · exact .inl ⟨hnil, n + 1, by rw [Loop.run_succ_of_inr hbody, hn]⟩
      · refine .inr ⟨r, ss, j, hf, hss, ?_, hj, n + 1, by rw [Loop.run_succ_of_inr hbody, hn]⟩
        rw [List.length_cons]
        omega

/-- A directory iteration over a chain reports the records that are not deleted, in order.
Induction on the number of records: one call goes behind the record it reports. -/
theorem lists_of_chain :
    ∀ (n : Nat) (st : RomfsState) (rs : List FileRec), rs.length ≤ n →
      Chain st.fsdata st.romfsDirData rs k → st.romfsDirData < 2 ^ 32 →
      romfshRead8 k st.fsdata = WOFS_END_MARKER_CHAR →
      Lists st ((rs.filter (fun r => !r.deleted)).map FileRec.dirent) := by
  have hnull : ∀ pfs : FSDATA, romfshRead8 k pfs = WOFS_END_MARKER_CHAR →
      romfsReaddirBody pfs k = .inl .null := fun pfs hend => by rw [romfsReaddirBody, if_pos hend]
  intro n
  induction n with
  | zero =>
    intro st rs hn h hlt hend
    obtain rfl := List.length_eq_zero_iff.mp (Nat.le_zero.mp hn)
    rcases run_readdir_of_chain h (hnull _ hend) with ⟨_, m, hm⟩ | ⟨r, ss, j, hf, _⟩
    · have hrun := run_u32_of_run (fun _ _ => romfsReaddirBody_lt) hlt hm
      exact .done (show romfsReaddirR st = some (none, st) by rw [romfsReaddirR, hrun])
    · simp at hf
  | succ n ih =>
    intro st rs hn h hlt hend
    rcases run_readdir_of_chain h (hnull _ hend) with
      ⟨hnil, m, hm⟩ | ⟨r, ss, j, hf, hss, hlen, hj, m, hm⟩
    · have hrun := run_u32_of_run (fun _ _ => romfsReaddirBody_lt) hlt hm
      rw [hnil]
      exact .done (show romfsReaddirR st = some (none, st) by rw [romfsReaddirR, hrun])
    · have hrun := run_u32_of_run (fun _ _ => romfsReaddirBody_lt) hlt hm
      rw [hf, List.map_cons]
      exact .next (show romfsReaddirR st = some (some r.dirent, { st with romfsDirData := j }) by
          rw [romfsReaddirR, hrun])
        (ih { st with romfsDirData := j } ss (by omega) hss hj hend)

end Alcor.Proofs.Romfs

/-!
## One position for all iterations

`readdir_at` says what a read returns at the position that an
iteration alone reaches after `n` reads: entry `n`. Reads that find
this position are right (`independent_step`). The position is always
one that some number of reads reaches, so when no two entries are the
same, a read that is right has found its own position
(`undisturbed_step`).
-/

namespace Alcor.Proofs.Romfs

open Lib
open Alcor.Romfs

/-! ### One iteration -/

/-- A read changes the position and nothing else, and the end of the directory not even that. -/
theorem readdir_frame {st st' : RomfsState} {ent : Option DmDirent}
    (h : romfsReaddirR st = some (ent, st')) :
    st' = { st with romfsDirData := st'.romfsDirData } ∧ (ent = none → st' = st) := by
  unfold romfsReaddirR at h
  split at h <;> simp only [Option.some.injEq, Prod.mk.injEq, reduceCtorEq] at h
  · obtain ⟨rfl, rfl⟩ := h
    exact ⟨rfl, fun _ => rfl⟩
  · obtain ⟨rfl, rfl⟩ := h
    exact ⟨rfl, fun h => by cases h⟩

/-- Where the reads of a listing are, and what they return. Induction on the listing. -/
theorem readdir_from {st : RomfsState} {es : List DmDirent} (h : Lists st es) (n : Nat) :
    ∃ off st', positionAfter n st = some off ∧
      romfsReaddirR { st with romfsDirData := off } = some (es[n]?, st') ∧
      positionAfter (n + 1) st = some st'.romfsDirData := by
  induction h generalizing n with
  | @done st st' h =>
    obtain ⟨-, hsame⟩ := readdir_frame h
    rw [hsame rfl] at h
    -- the position stays where it is
    have hpos : ∀ n, positionAfter n st = some st.romfsDirData := by
      intro n
      induction n with
      | zero => rfl
      | succ n ih => rw [positionAfter, h, Option.bind_some, ih]
    exact ⟨st.romfsDirData, st, hpos n, h, hpos (n + 1)⟩
  | @next st st' e es h rest ih =>
    obtain ⟨hframe, -⟩ := readdir_frame h
    cases n with
    | zero =>
      refine ⟨st.romfsDirData, st', rfl, h, ?_⟩
      rw [positionAfter, h]
      rfl
    | succ n =>
      obtain ⟨off, st'', hpos, hread, hnext⟩ := ih n
      refine ⟨off, st'', by rw [positionAfter, h]; exact hpos, ?_, ?_⟩
      · rw [hframe] at hread
        exact hread
      · rw [positionAfter, h]
        exact hnext

section Listing
variable {st : RomfsState} {es : List DmDirent}
  (hlist : Lists { st with romfsDirData := 0 } es)
include hlist

/-- At the position an iteration alone reaches after `n` reads, a read returns entry `n` and goes
to the next position. -/
theorem readdir_at {n off : Nat}
    (hpos : positionAfter n { st with romfsDirData := 0 } = some off) :
    ∃ off', romfsReaddirR { st with romfsDirData := off } =
        some (es[n]?, { st with romfsDirData := off' }) ∧
      positionAfter (n + 1) { st with romfsDirData := 0 } = some off' := by
  obtain ⟨off₁, st', hpos₁, hread, hnext⟩ := readdir_from hlist n
  rw [hpos₁, Option.some.injEq] at hpos
  subst hpos
  obtain ⟨hframe, -⟩ := readdir_frame hread
  refine ⟨st'.romfsDirData, ?_, hnext⟩
  rw [hframe] at hread
  exact hread

/-- Behind the last entry the position stays. -/
theorem positionAfter_end {n : Nat} (hn : es.length ≤ n) :
    positionAfter n { st with romfsDirData := 0 } =
      positionAfter es.length { st with romfsDirData := 0 } := by
  induction n, hn using Nat.le_induction with
  | base => rfl
  | succ n hn ih =>
    obtain ⟨off, st', hpos, hread, hnext⟩ := readdir_from hlist n
    obtain ⟨-, hsame⟩ := readdir_frame hread
    rw [hnext, hsame (List.getElem?_eq_none hn), ← ih, hpos]

end Listing

/-! ### Interleavings -/

theorem listing_succ (es : List DmDirent) (n : Nat) :
    listing es (n + 1) = listing es n ++ [es[n]?] := by
  rw [listing, List.range_succ, List.map_append]
  rfl

/-- The listing grows by one read. -/
theorem listing_append_iff {es : List DmDirent} {seen : List (Option DmDirent)}
    (h : seen = listing es seen.length) (ent : Option DmDirent) :
    seen ++ [ent] = listing es (seen ++ [ent]).length ↔ ent = es[seen.length]? := by
  rw [List.length_append, List.length_singleton, listing_succ, ← h]
  constructor
  · intro heq
    exact List.singleton_inj.mp (List.append_cancel_left heq)
  · rintro rfl
    rfl

/-- What one iteration has seen says nothing about the others. -/
theorem independent_update {es : List DmDirent} {s : Dirs} (hind : Independent es s)
    (st : RomfsState) (i : Nat) {it : Iteration} (hseen : it.seen = listing es it.seen.length) :
    Independent es ⟨st, Function.update s.its i (some it)⟩ := by
  intro j jt hjt
  replace hjt : Function.update s.its i (some it) j = some jt := hjt
  by_cases hj : j = i
  · rw [hj, Function.update_self, Option.some.injEq] at hjt
    exact hjt ▸ hseen
  · rw [Function.update_of_ne hj] at hjt
    exact hind j jt hjt

/-- What holds in every interleaving: the contents stay, and the position is one that some number
of reads reaches. -/
def Placed (st : RomfsState) (s : Dirs) : Prop :=
  s.st = { st with romfsDirData := s.st.romfsDirData } ∧
    ∃ n, positionAfter n { st with romfsDirData := 0 } = some s.st.romfsDirData

section Steps
variable {st : RomfsState} {es : List DmDirent} {s s' : Dirs} {c : DirCall}
  (hlist : Lists { st with romfsDirData := 0 } es)

/-- A call that reads nothing sets the position to the start, or leaves it. -/
theorem placed_zero (its : Nat → Option Iteration) :
    Placed st ⟨{ st with romfsDirData := 0 }, its⟩ :=
  ⟨rfl, 0, rfl⟩

theorem opendir_cases (rest : List UInt8) (st : RomfsState) :
    romfsOpendirR (some rest) st = none ∨
      romfsOpendirR (some rest) st = some { st with romfsDirData := 0 } := by
  unfold romfsOpendirR
  split
  · simp at *
  · split
    · exact .inr rfl
    · exact .inl rfl

/-- What a call does. An open is refused by the file system and changes nothing, or sets the
position to the start, with or without a handle; a close sets it to the start too. -/
theorem dirStep_cases (hstep : dirStep s c = some s') :
    (∃ i rest malloc, c = .opendir i rest malloc ∧ (s' = s ∨ s' = ⟨{ s.st with romfsDirData := 0 },
        if malloc then Function.update s.its i (some {}) else s.its⟩)) ∨
      (∃ i it ent st', c = .readdir i ∧ s.its i = some it ∧ it.isOpen = true ∧
        romfsReaddirR s.st = some (ent, st') ∧
        s' = ⟨st', Function.update s.its i (some { it with seen := it.seen ++ [ent] })⟩) ∨
      ∃ i it, c = .closedir i ∧ s.its i = some it ∧ it.isOpen = true ∧
        s' = ⟨{ s.st with romfsDirData := 0 },
          Function.update s.its i (some { it with isOpen := false })⟩ := by
  cases c with
  | opendir i rest malloc =>
    refine .inl ⟨i, rest, malloc, rfl, ?_⟩
    simp only [dirStep] at hstep
    split at hstep
    · cases hstep
    · rw [Option.some.injEq] at hstep
      subst hstep
      rcases opendir_cases rest s.st with hopen | hopen
      · exact .inl (by rw [hopen, Option.elim_none])
      · exact .inr (by rw [hopen, Option.elim_some])
  | readdir i =>
    simp only [dirStep, Option.bind_eq_some_iff] at hstep
    obtain ⟨it, hit, hstep⟩ := hstep
    split at hstep
    · next hopen =>
        rw [Option.map_eq_some_iff] at hstep
        obtain ⟨⟨ent, st'⟩, hread, rfl⟩ := hstep
        exact .inr (.inl ⟨i, it, ent, st', rfl, hit, hopen, hread, rfl⟩)
    · cases hstep
  | closedir i =>
    simp only [dirStep, Option.bind_eq_some_iff] at hstep
    obtain ⟨it, hit, hstep⟩ := hstep
    split at hstep
    · next hopen => exact .inr (.inr ⟨i, it, rfl, hit, hopen, (Option.some.inj hstep).symm⟩)
    · cases hstep

include hlist

theorem placed_step (hs : Placed st s) (hstep : dirStep s c = some s') : Placed st s' := by
  obtain ⟨hst, n, hpos⟩ := hs
  obtain ⟨i, rest, malloc, rfl, rfl | rfl⟩ | ⟨i, it, ent, st', rfl, -, -, hread, rfl⟩ |
    ⟨i, it, rfl, -, -, rfl⟩ := dirStep_cases hstep
  · exact ⟨hst, n, hpos⟩
  · rw [hst]
    exact placed_zero _
  · -- one read further
    obtain ⟨off', hread', hnext⟩ := readdir_at hlist hpos
    rw [hst, hread', Option.some.injEq] at hread
    cases hread
    exact ⟨rfl, n + 1, hnext⟩
  · rw [hst]
    exact placed_zero _

/-- A read of an open iteration has an outcome. -/
theorem readdir_step (hs : Placed st s) {i : Nat} {it : Iteration} (hit : s.its i = some it)
    (hopen : it.isOpen = true) :
    ∃ n st', positionAfter n { st with romfsDirData := 0 } = some s.st.romfsDirData ∧
      dirStep s (.readdir i) = some ⟨st', Function.update s.its i
        (some { it with seen := it.seen ++ [es[n]?] })⟩ := by
  obtain ⟨hst, n, hpos⟩ := hs
  obtain ⟨off', hread, -⟩ := readdir_at hlist hpos
  rw [← hst] at hread
  exact ⟨n, { st with romfsDirData := off' }, hpos, by
    simp only [dirStep, hit, Option.bind_some, if_pos hopen, hread, Option.map_some]⟩

/-- Reads at the right position keep all iterations independent. -/
theorem independent_step (hs : Placed st s) (hind : Independent es s) (hok : Undisturbed s c)
    (hstep : dirStep s c = some s') : Independent es s' := by
  obtain ⟨i, rest, malloc, rfl, rfl | rfl⟩ | ⟨i, it, ent, st', rfl, hit, hopen, hread, rfl⟩ |
    ⟨i, it, rfl, hit, -, rfl⟩ := dirStep_cases hstep
  · exact hind
  · cases malloc with
    | false => exact hind
    | true => exact independent_update hind _ i rfl
  · -- the iteration is where it would be alone, so that the read returns its next entry
    have hpos := hok it hit hopen
    have hzero : ({ s.st with romfsDirData := 0 } : RomfsState)
        = { st with romfsDirData := 0 } := by rw [hs.1]
    rw [hzero] at hpos
    obtain ⟨off', hread', -⟩ := readdir_at hlist hpos
    rw [← hs.1, hread, Option.some.injEq] at hread'
    have hent : ent = es[it.seen.length]? := congrArg Prod.fst hread'
    exact independent_update hind _ i ((listing_append_iff (hind i it hit) ent).mpr hent)
  · exact independent_update hind _ i (hind i it hit)

/-- When no two entries are the same, a read that is right was at the right position. -/
theorem undisturbed_step (hnodup : es.Nodup) (hs : Placed st s) (hind : Independent es s)
    (hafter : ∀ s', dirStep s c = some s' → Independent es s') : Undisturbed s c := by
  cases c with
  | opendir i rest malloc => trivial
  | closedir i => trivial
  | readdir i =>
    intro it hit hopen
    obtain ⟨n, st', hpos, hstep⟩ := readdir_step hlist hs hit hopen
    have hseen := hafter _ hstep i { it with seen := it.seen ++ [es[n]?] } (by simp)
    have hentry := (listing_append_iff (hind i it hit) es[n]?).mp hseen
    have hzero : ({ s.st with romfsDirData := 0 } : RomfsState)
        = { st with romfsDirData := 0 } := by rw [hs.1]
    rw [hzero, ← hpos]
    -- The entry tells which of the reads it is, up to those behind the last entry.
    rcases Nat.lt_or_ge n es.length with hn | hn
    · have heq : n = it.seen.length := (List.getElem?_inj hn hnodup).mp hentry
      rw [heq]
    · rw [List.getElem?_eq_none hn] at hentry
      have hlen := List.getElem?_eq_none_iff.mp hentry.symm
      rw [positionAfter_end hlist hn, positionAfter_end hlist hlen]

end Steps

/-! ### Runs -/

/-- **Directory iterations on one file system**, whose entries are `es`. In every interleaving in
which each read finds the position where its own iteration has left it, every iteration sees the
complete listing in order, as if it ran alone. If no two entries are the same, the iterations see
this in no other interleaving. -/
theorem iterations_independent {st : RomfsState} {es : List DmDirent}
    (hlist : Lists { st with romfsDirData := 0 } es) (calls : List DirCall) :
    (Run.AllSteps dirStep Undisturbed (Dirs.start st) calls →
      ∀ pre s, pre <+: calls → Run.run dirStep (Dirs.start st) pre = some s → Independent es s) ∧
    (es.Nodup →
      (∀ pre s, pre <+: calls → Run.run dirStep (Dirs.start st) pre = some s →
        Independent es s) →
      Run.AllSteps dirStep Undisturbed (Dirs.start st) calls) := by
  have hplaced : Placed st (Dirs.start st) := placed_zero _
  have hind : Independent es (Dirs.start st) := by
    intro i it hit
    cases hit
  generalize Dirs.start st = s at hplaced hind
  refine ⟨fun hok pre s' hpre hrun => ?_, fun hnodup hall => ?_⟩
  · -- the condition on the whole run is one on its beginning
    have hpre : Run.AllSteps dirStep Undisturbed s pre := by
      obtain ⟨post, rfl⟩ := hpre
      exact Run.AllSteps.of_append hok
    exact (Run.invariant_run (I := fun s => Placed st s ∧ Independent es s)
      (fun s c s' hs hok hstep => ⟨placed_step hlist hs.1 hstep,
        independent_step hlist hs.1 hs.2 hok hstep⟩) pre s s' ⟨hplaced, hind⟩ hpre hrun).2
  · induction calls generalizing s with
    | nil => trivial
    | cons c calls ih =>
      have hstates : ∀ {s₁}, dirStep s c = some s₁ → ∀ pre s', pre <+: calls →
          Run.run dirStep s₁ pre = some s' → Independent es s' := by
        intro s₁ hstep pre s' hpre hrun
        refine hall (c :: pre) s' (List.cons_prefix_cons.mpr ⟨rfl, hpre⟩) ?_
        rw [Run.run, hstep, Option.bind_some, hrun]
      have hafter : ∀ s₁, dirStep s c = some s₁ → Independent es s₁ :=
        fun s₁ hstep => hstates hstep [] s₁ List.nil_prefix rfl
      exact ⟨undisturbed_step hlist hnodup hplaced hind hafter, fun s₁ hstep =>
        ih s₁ (placed_step hlist hplaced hstep) (hafter s₁ hstep) (hstates hstep)⟩

/-- A ROMFS with the empty files `a` and `b`. -/
def twoFiles : FSDATA :=
  ⟨⟨fun x => [0x61, 0, 0, 0, 0, 0, 0, 0, 0x62, 0, 0, 0, 0, 0, 0, 0].getD x 0xFF, []⟩, {}, 17,
    by decide⟩

theorem twoFiles_lists :
    Lists { romfsInit twoFiles with romfsDirData := 0 } [⟨[0x61], 0⟩, ⟨[0x62], 0⟩] := by
  have hlast : Lists { romfsInit twoFiles with romfsDirData := 16 } [] := .done rfl
  have hsecond : Lists { romfsInit twoFiles with romfsDirData := 8 } [⟨[0x62], 0⟩] :=
    .next rfl hlast
  exact .next rfl hsecond

/-- One iteration after another, and the first read of the second one. -/
theorem iterations_independent_sequel :
    ∃ s, Run.run dirStep (Dirs.start (romfsInit twoFiles))
        [.opendir 0 [] true, .readdir 0, .closedir 0, .opendir 1 [] true, .readdir 1] = some s ∧
      Independent [⟨[0x61], 0⟩, ⟨[0x62], 0⟩] s := by
  obtain ⟨s, hs⟩ : ∃ s, Run.run dirStep (Dirs.start (romfsInit twoFiles))
      [.opendir 0 [] true, .readdir 0, .closedir 0, .opendir 1 [] true, .readdir 1] = some s :=
    ⟨_, rfl⟩
  exact ⟨s, hs, (iterations_independent twoFiles_lists _).1 (by decide +kernel) _ s
    List.prefix_rfl hs⟩

/-- Two iterations that take turns: the second one never sees the first entry. -/
theorem not_always_independent :
    ¬ ∀ (st : RomfsState) (es : List DmDirent), Lists { st with romfsDirData := 0 } es →
      ∀ calls s, Run.run dirStep (Dirs.start st) calls = some s → Independent es s := by
  intro h
  have hind := h _ _ twoFiles_lists
    [.opendir 0 [] true, .opendir 1 [] true, .readdir 0, .readdir 1] _ rfl 1
    ⟨true, [some ⟨[0x62], 0⟩]⟩ rfl
  exact absurd hind (by decide)

end Alcor.Proofs.Romfs
