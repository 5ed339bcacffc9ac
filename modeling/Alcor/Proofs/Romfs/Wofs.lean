import Alcor.Proofs.Romfs.Descriptors
import Alcor.Proofs.Romfs.Layout
import Mathlib.Data.List.Pairwise

/-!
# `Alcor.Proofs.Romfs.Wofs`: the invariant of WOFS

`WofsInv cuts st h` ties a state to the history `h` of its run: the
medium is laid out with the records of `h`, the live names are
distinct, and at most one descriptor writes, to the last file of `h`.
`cuts` says whether power may have been cut in the run; without that,
every file but the one that is being written has its size in its
record.

* `WofsInv.openR`, `WofsInv.closeR`, `WofsInv.writeR`: the calls that
  write to the medium keep the invariant.
* `WofsInv.call`: the step lemma, for the calls that meet `CallOk`.
  These are all calls but three kinds: an open that creates a file
  without asking for write access, one that creates a file under a name
  the format has no place for, and a write that overflows the 32-bit
  sum of the space check.
* `WofsInv.run`: every run of such calls keeps the invariant.
-/

set_option autoImplicit false

namespace Alcor.Proofs.Romfs

open Lib
open Alcor.Romfs

variable {h rs : List FileRec} {st st' : RomfsState} {cuts : Prop} {k fd garbage : Nat}
  {pfs fs : FSDATA} {fname pend : List UInt8} {r : FileRec} {pfd : FD} {flags : OpenFlags}
  {path name : CStr} {res : Except Errno Nat} {found : OpenFile}

/-! ### Names -/

/-- A name the format has a place for, and not the one the search for free space asks for. -/
structure WofsName (name : CStr) : Prop where
  length_le : name.bytes.length ≤ DM_MAX_FNAME_LENGTH
  head : name.bytes.head? ≠ some WOFS_END_MARKER_CHAR
  ne_one : name.bytes ≠ [1]

theorem WofsName.of_storable (h : StorableName name) : WofsName name :=
  ⟨h.length_le, h.head, fun heq => h.head_ne_one (by rw [heq]; rfl)⟩

/-- The names of a history: they fit, and those of the live files are distinct. -/
structure Names (h : List FileRec) : Prop where
  length_le : ∀ r ∈ h, r.name.length ≤ DM_MAX_FNAME_LENGTH
  ne_one : ∀ r ∈ h, r.name ≠ [1]
  distinct : h.Pairwise fun r s =>
    r.deleted = false → s.deleted = false → lower r.name ≠ lower s.name

theorem Names.nil : Names [] := ⟨by simp, by simp, .nil⟩

/-- The same without a condition on the name that the search for free space asks for. -/
structure LiveNames (h : List FileRec) : Prop where
  length_le : ∀ r ∈ h, r.name.length ≤ DM_MAX_FNAME_LENGTH
  distinct : h.Pairwise fun r s =>
    r.deleted = false → s.deleted = false → lower r.name ≠ lower s.name

theorem Names.live (hn : Names h) : LiveNames h := ⟨hn.length_le, hn.distinct⟩

theorem lower_one {name : List UInt8} (h : lower [1] = lower name) : name = [1] := by
  have hlen := congrArg List.length h
  rw [length_lower, length_lower, List.length_singleton] at hlen
  obtain ⟨c, rfl⟩ := List.length_eq_one_iff.mp hlen.symm
  have hc : tolower c = tolower 1 := by simpa [lower] using h.symm
  rw [eq_of_tolower (d := 1) (by decide) hc]

/-- The search for free space stops at no record. -/
theorem Names.find_one (hn : Names h) : h.find? (FileRec.isHit [1]) = none := by
  rw [List.find?_eq_none]
  intro r hr hhit
  exact hn.ne_one r hr (lower_one ((FileRec.isHit_iff (hn.length_le r hr)).mp hhit).1)

theorem mem_markDeleted {s : FileRec} (hs : s ∈ markDeleted fname h) :
    ∃ r ∈ h, s.name = r.name ∧ s.closed = r.closed ∧ (r.deleted = true → s.deleted = true) ∧
      (s.deleted = false → s = r ∧ ¬ r.isHit fname = true) := by
  obtain ⟨r, hr, rfl⟩ := List.mem_map.mp hs
  refine ⟨r, hr, ?_⟩
  split
  · exact ⟨rfl, rfl, fun _ => rfl, fun hd => by cases hd⟩
  · rename_i hhit
    exact ⟨rfl, rfl, id, fun _ => ⟨rfl, hhit⟩⟩

theorem LiveNames.markDeleted (hn : LiveNames h) (fname : List UInt8) :
    LiveNames (markDeleted fname h) := by
  refine ⟨?_, ?_⟩
  · intro s hs
    obtain ⟨r, hr, hname, -⟩ := mem_markDeleted hs
    exact hname ▸ hn.length_le r hr
  · refine List.pairwise_map.mpr (hn.distinct.imp ?_)
    intro r s hne
    split <;> split
    · exact fun hd => by cases hd
    · exact fun hd => by cases hd
    · exact fun _ hd => by cases hd
    · exact hne

theorem Names.markDeleted (hn : Names h) (fname : List UInt8) : Names (markDeleted fname h) := by
  have hm := hn.live.markDeleted fname
  refine ⟨hm.length_le, ?_, hm.distinct⟩
  intro s hs
  obtain ⟨r, hr, hname, -⟩ := mem_markDeleted hs
  exact hname ▸ hn.ne_one r hr

/-- Without a live version there is nothing to mark. -/
theorem markDeleted_of_none (hnone : h.find? (FileRec.isHit fname) = none) :
    markDeleted fname h = h := by
  rw [List.find?_eq_none] at hnone
  unfold markDeleted
  conv => rhs; rw [← List.map_id h]
  refine List.map_congr_left fun r hr => ?_
  rw [if_neg (hnone r hr), id]

/-- Names are distinct, so there is one live version to mark, the one that the scan finds. -/
theorem LiveNames.markDeleted_of_find (hn : LiveNames h)
    (hr : h.find? (FileRec.isHit fname) = some r) :
    ∃ as bs, h = as ++ r :: bs ∧
      Alcor.Romfs.markDeleted fname h = as ++ { r with deleted := true } :: bs := by
  obtain ⟨hhit, as, bs, rfl, hbefore⟩ := List.find?_eq_some_iff_append.mp hr
  have has : Alcor.Romfs.markDeleted fname as = as :=
    markDeleted_of_none (List.find?_eq_none.mpr fun a ha => by simpa using hbefore a ha)
  have hlive := (FileRec.isHit_iff (hn.length_le r (by simp))).mp hhit
  have hbs : Alcor.Romfs.markDeleted fname bs = bs := by
    refine markDeleted_of_none (List.find?_eq_none.mpr fun b hb hhitb => ?_)
    have hb' := (FileRec.isHit_iff (hn.length_le b (by simp [hb]))).mp hhitb
    have hpair := (List.pairwise_append.mp hn.distinct).2.1
    exact List.rel_of_pairwise_cons hpair hb hlive.2 hb'.2 (hlive.1.symm.trans hb'.1)
  refine ⟨as, bs, rfl, ?_⟩
  unfold Alcor.Romfs.markDeleted at has hbs ⊢
  rw [List.map_append, List.map_cons, has, hbs, if_pos hhit]

/-- A new file, when the older versions are marked. -/
theorem LiveNames.create (hn : LiveNames h) (hname : name.bytes.length ≤ DM_MAX_FNAME_LENGTH)
    (base : Nat) : LiveNames (Alcor.Romfs.markDeleted name.bytes h ++ [.new name.bytes base]) := by
  have hm := hn.markDeleted name.bytes
  refine ⟨?_, ?_⟩
  · intro r hr
    rcases List.mem_append.mp hr with hr | hr
    · exact hm.length_le r hr
    · rw [List.mem_singleton] at hr
      exact hr ▸ hname
  · refine List.pairwise_append.mpr ⟨hm.distinct, List.pairwise_singleton _ _, ?_⟩
    intro s hs t ht hlive _ heq
    rw [List.mem_singleton] at ht
    obtain ⟨r, hr, -, -, -, hkept⟩ := mem_markDeleted hs
    obtain ⟨rfl, hmiss⟩ := hkept hlive
    refine hmiss ((FileRec.isHit_iff (hn.length_le s hr)).mpr ⟨?_, hlive⟩)
    rw [List.take_of_length_le hname, heq, ht]
    rfl

theorem Names.create (hn : Names h) (hname : WofsName name) (base : Nat) :
    Names (Alcor.Romfs.markDeleted name.bytes h ++ [.new name.bytes base]) := by
  have hlive := hn.live.create hname.length_le base
  refine ⟨hlive.length_le, ?_, hlive.distinct⟩
  intro r hr
  rcases List.mem_append.mp hr with hr | hr
  · exact (hn.markDeleted name.bytes).ne_one r hr
  · rw [List.mem_singleton] at hr
    exact hr ▸ hname.ne_one

/-- Names do not see what a session adds to its file. -/
theorem Names.replace_last {s : FileRec} (hn : Names (h ++ [r])) (hname : s.name = r.name)
    (hdel : s.deleted = r.deleted) : Names (h ++ [s]) := by
  refine ⟨?_, ?_, ?_⟩
  · intro t ht
    rcases List.mem_append.mp ht with ht | ht
    · exact hn.length_le t (by simp [ht])
    · rw [List.mem_singleton] at ht
      rw [ht, hname]
      exact hn.length_le r (by simp)
  · intro t ht
    rcases List.mem_append.mp ht with ht | ht
    · exact hn.ne_one t (by simp [ht])
    · rw [List.mem_singleton] at ht
      rw [ht, hname]
      exact hn.ne_one r (by simp)
  · obtain ⟨h1, -, h2⟩ := List.pairwise_append.mp hn.distinct
    refine List.pairwise_append.mpr ⟨h1, List.pairwise_singleton _ _, ?_⟩
    intro t ht u hu
    rw [List.mem_singleton] at hu
    rw [hu, hname, hdel]
    exact h2 t ht r (by simp)

/-- The scan for the name of a live file stops at this file. -/
theorem LiveNames.find_of_mem (hn : LiveNames h) (hr : r ∈ h) (hlive : r.deleted = false)
    {name : List UInt8} (hname : lower (name.take DM_MAX_FNAME_LENGTH) = lower r.name) :
    h.find? (FileRec.isHit name) = some r := by
  have hhit := (FileRec.isHit_iff (hn.length_le r hr)).mpr ⟨hname, hlive⟩
  cases hs : h.find? (FileRec.isHit name) with
  | none => exact absurd hhit (List.find?_eq_none.mp hs r hr)
  | some s =>
    have hmem := List.mem_of_find?_eq_some hs
    have hs' := (FileRec.isHit_iff (hn.length_le s hmem)).mp (List.find?_some hs)
    have : Std.Symm fun r s : FileRec =>
        r.deleted = false → s.deleted = false → lower r.name ≠ lower s.name :=
      ⟨fun a b hab hb ha => (hab ha hb).symm⟩
    by_contra hne
    have hdist := hn.distinct.forall hmem hr (fun heq => hne (by rw [heq]))
    exact hdist hs'.2 hlive (hs'.1.symm.trans hname)

/-! ### The invariant -/

/-- The session of the file is over: it was closed, unless power may have been cut. -/
def Settled (cuts : Prop) (r : FileRec) : Prop := r.closed = true ∨ cuts

/-- Who writes to the pending bytes. -/
inductive Writers (cuts : Prop) (st : RomfsState) (h : List FileRec) (k : Nat)
    (pend : List UInt8) : Prop where
  /-- No descriptor may write. -/
  | idle (writing : st.fsdata.flags.writing = false) (pending : pend = [])
      (nobody : ∀ fd, ¬ st.MayWrite fd) (settled : ∀ r ∈ h, Settled cuts r)
  /-- One descriptor writes to the last file of the history. -/
  | busy {w : Nat} {rs : List FileRec} {r : FileRec} (writing : st.fsdata.flags.writing = true)
      (mayWrite : st.MayWrite w) (only : ∀ fd, st.MayWrite fd → fd = w)
      (addr : (st.fd w).baseaddr = k) (size : (st.fd w).size = pend.length)
      (last : h = rs ++ [r]) (unfinished : r.closed = false) (live : r.deleted = false)
      (base : r.base = k) (data : r.data = pend) (settled : ∀ s ∈ rs, Settled cuts s)

/-- The invariant of WOFS: what the medium and the descriptors are, after a run with the history
`h`. -/
structure WofsInv (cuts : Prop) (st : RomfsState) (h : List FileRec) : Prop where
  table : Table st
  names : Names h
  layout : ∃ k pend, Layout st.fsdata h k pend ∧ Writers cuts st h k pend

/-- The call creates a file: it passes all checks, and there is room. -/
def CreatesFile (garbage : Nat) (path : CStr) (flags : OpenFlags) (st : RomfsState) : Prop :=
  ∃ found free, Creates path flags st found ∧
    romfsOpenFile [1] (romfsInvalidate found st.fsdata) = some free ∧
    noSpace path (free.plastOr (found.plastOr garbage)) (romfsInvalidate found st.fsdata) = false

/-- The space check of a write of `len` bytes does not overflow, and the contents do not start in
the last bytes of the medium. -/
structure WriteFits (pfd : FD) (len : Nat) (pfs : FSDATA) : Prop where
  sum_lt : pfd.baseaddr + pfd.size + len < 2 ^ 32
  room : pfd.baseaddr + pfd.size + ROMFS_ALIGN ≤ pfs.maxSize

/-- The calls that keep the invariant. -/
def CallOk (st : RomfsState) : Call → Prop
  | .openR garbage path flags => CreatesFile garbage path flags st →
      (openFlagsToFdFlags flags).mayWrite = true ∧ WofsName path
  | .writeR fd ptr => (st.fd fd).flags.mayWrite = true →
      WriteFits (st.fd fd) ptr.length st.fsdata
  | _ => True

/-- A freshly started file system with the files of `h` on the medium. -/
structure Mounted (fs : FSDATA) (h : List FileRec) : Prop where
  names : Names h
  writing : fs.flags.writing = false
  layout : ∃ k, Layout fs h k []

theorem layout_of_formatted (h : Formatted fs) : Layout fs [] 0 [] :=
  ⟨h.wo, .nil 0, rfl, fun x _ hx => h.blank x hx, h.maxSize_pos⟩

theorem Mounted.of_formatted (h : Formatted fs) : Mounted fs [] :=
  ⟨.nil, h.writing, 0, layout_of_formatted h⟩

theorem not_mayWrite_init (fs : FSDATA) (fd : Nat) : ¬ (romfsInit fs).MayWrite fd := by
  rintro ⟨hopen, -⟩
  have hlt := lt_of_isOpen hopen
  unfold RomfsState.isOpen at hopen
  rw [fd_of_lt hlt] at hopen
  have hmem := List.get_mem (romfsInit fs).fdTable ⟨fd, hlt⟩
  rw [List.eq_of_mem_replicate hmem] at hopen
  exact absurd hopen (by decide)

theorem WofsInv.init (hfs : Mounted fs h) (hsettled : ∀ r ∈ h, Settled cuts r) :
    WofsInv cuts (romfsInit fs) h := by
  obtain ⟨k, hlayout⟩ := hfs.layout
  exact ⟨Table.init fs, hfs.names, k, [], hlayout,
    .idle hfs.writing rfl (not_mayWrite_init fs) hsettled⟩

/-- Marking keeps the sessions that are over. -/
theorem settled_markDeleted (hs : ∀ r ∈ h, Settled cuts r) (fname : List UInt8) :
    ∀ r ∈ Alcor.Romfs.markDeleted fname h, Settled cuts r := by
  intro r hr
  obtain ⟨s, hsmem, -, hclosed, -⟩ := mem_markDeleted hr
  unfold Settled
  rw [hclosed]
  exact hs s hsmem

/-! ### Who may write after a call -/

/-- A descriptor that keeps its address and its flags may write if it could before. -/
theorem mayWrite_of_set (htab : Table st) {i : Nat} (hopen : st.isOpen i = true)
    (hset : st'.fdTable = st.fdTable.set i pfd) (hbase : pfd.baseaddr = (st.fd i).baseaddr)
    (hflags : pfd.flags = (st.fd i).flags) (fd : Nat) : st'.MayWrite fd ↔ st.MayWrite fd := by
  have hi := lt_of_isOpen hopen
  have hmem := List.get_mem st.fdTable ⟨i, hi⟩
  rw [← fd_of_lt hi] at hmem
  have halign := htab.aligned _ hmem (by simpa [RomfsState.isOpen] using hopen)
  unfold RomfsState.MayWrite RomfsState.isOpen
  rw [fd_of_set hset hi]
  by_cases heq : fd = i
  · subst heq
    rw [if_pos rfl, hflags, isUnused_of_aligned halign,
      isUnused_of_aligned (show pfd.baseaddr % ROMFS_ALIGN = 0 by rw [hbase]; exact halign)]
  · rw [if_neg heq]

/-- A new descriptor stands in a slot that was free, and may write if its flags say so. -/
theorem romfsInstallFd_spec (halign : pfd.baseaddr % ROMFS_ALIGN = 0)
    (h : romfsInstallFd pfd st = some (res, st')) :
    ∃ i, res = .ok i ∧ st'.fsdata = st.fsdata ∧
      (∀ fd, st'.fd fd = if fd = i then pfd else st.fd fd) ∧ ¬ st.MayWrite i ∧
      ∀ fd, st'.MayWrite fd ↔ (fd = i ∧ pfd.flags.mayWrite = true) ∨ st.MayWrite fd := by
  obtain ⟨i, hres, hi, hclosed, rfl⟩ := romfsInstallFd_eq h
  have hfd : ∀ fd, RomfsState.fd { st with
      fdTable := st.fdTable.set i pfd, romfsNumFd := st.romfsNumFd + 1 } fd
        = if fd = i then pfd else st.fd fd := fd_of_set rfl hi
  have hfree : ¬ st.MayWrite i := fun hw => by
    have hused := hw.1
    rw [hclosed] at hused
    cases hused
  refine ⟨i, hres, rfl, hfd, hfree, fun fd => ?_⟩
  unfold RomfsState.MayWrite RomfsState.isOpen at hfree ⊢
  rw [hfd]
  by_cases heq : fd = i
  · subst heq
    simp only [if_pos, isUnused_of_aligned halign, Bool.not_false, true_and]
    exact ⟨.inl, fun h => h.resolve_right hfree⟩
  · simp [heq]

/-- A closed descriptor may not write. -/
theorem mayWrite_of_close {i : Nat} (hopen : st.isOpen i = true) (fd : Nat) :
    (romfsCloseR i st).MayWrite fd ↔ fd ≠ i ∧ st.MayWrite fd := by
  have hi := lt_of_isOpen hopen
  have hset : (romfsCloseR i st).fdTable = st.fdTable.set i FD.unused := rfl
  unfold RomfsState.MayWrite RomfsState.isOpen
  rw [fd_of_set hset hi]
  by_cases heq : fd = i
  · subst heq
    simp [FD.isUnused, FD.unused]
  · simp [heq]

/-- The writers are the same when the medium, the flags and what the writers look at are. -/
theorem Writers.of_same (hw : Writers cuts st h k pend)
    (hflag : st'.fsdata.flags.writing = st.fsdata.flags.writing)
    (hmay : ∀ fd, st'.MayWrite fd ↔ st.MayWrite fd)
    (hfd : ∀ fd, st.MayWrite fd → (st'.fd fd).baseaddr = (st.fd fd).baseaddr ∧
      (st'.fd fd).size = (st.fd fd).size) : Writers cuts st' h k pend := by
  cases hw with
  | idle writing pending nobody settled =>
    exact .idle (hflag.trans writing) pending (fun fd => (hmay fd).not.mpr (nobody fd)) settled
  | @busy w rs r writing mayWrite only addr size last unfinished live base data settled =>
    obtain ⟨haddr, hsize⟩ := hfd w mayWrite
    exact .busy (hflag.trans writing) ((hmay w).mpr mayWrite)
      (fun fd hfd => only fd ((hmay fd).mp hfd)) (haddr.trans addr) (hsize.trans size) last
      unfinished live base data settled

/-! ### Lookups on a laid out medium -/

/-- A file that is found is the first live one with the name, if no bytes are pending. -/
theorem Layout.find_of_ok {baseaddr size nameaddr : Nat} (hl : Layout pfs h k [])
    (hfound : romfsOpenFile fname pfs = some (.ok baseaddr size nameaddr)) :
    ∃ r, h.find? (FileRec.isHit fname) = some r ∧ r.base = baseaddr ∧ r.sizeField = size := by
  cases hr : h.find? (FileRec.isHit fname) with
  | none =>
    rw [romfsOpenFile_of_end hl.chain hl.end_marker hr] at hfound
    cases hfound
  | some r =>
    obtain ⟨na, hna⟩ := romfsOpenFile_of_find hl.chain hr
    rw [hna, Option.some.injEq, OpenFile.ok.injEq] at hfound
    exact ⟨r, rfl, hfound.1, hfound.2.1⟩

/-- A file that is not found has no live version, whatever is pending. -/
theorem Layout.find_of_notFound {plast : Nat} (hl : Layout pfs h k pend)
    (hmiss : romfsOpenFile fname pfs = some (.notFound plast)) :
    h.find? (FileRec.isHit fname) = none := by
  cases hr : h.find? (FileRec.isHit fname) with
  | none => rfl
  | some r =>
    obtain ⟨na, hna⟩ := romfsOpenFile_of_find hl.chain hr
    rw [hna] at hmiss
    cases hmiss

/-- The deletion field of a record, as `romfs_open_r` computes its address. -/
theorem Layout.mark_addr (hl : Layout pfs h k pend) (hr : r ∈ h) :
    sub32 (sub32 r.base ROMFS_SIZE_LEN) WOFS_DEL_FIELD_SIZE = r.base - 8 := by
  obtain ⟨j, -, hrec, -⟩ := hl.chain.recordAt hr
  have hpos := hrec.name_lt_base.1
  have hlt := hrec.base_lt
  rw [hl.wo, if_pos rfl] at hpos
  unfold ROMFS_SIZE_LEN WOFS_DEL_FIELD_SIZE ROMFS_ALIGN
  rw [sub32_of_le (by omega) hlt, sub32_of_le (by omega) (by omega)]
  omega

/-- After the deletion mark, or the first bytes of it, the medium is laid out with the marked
history. -/
theorem Layout.invalidate_take {n : Nat} {baseaddr size nameaddr : Nat} (hl : Layout pfs h k [])
    (hn : LiveNames h) (hfound : romfsOpenFile fname pfs = some (.ok baseaddr size nameaddr))
    (hpos : 0 < n) :
    Layout (pfs.writef (deletedMark.take n)
        (sub32 (sub32 baseaddr ROMFS_SIZE_LEN) WOFS_DEL_FIELD_SIZE))
      (Alcor.Romfs.markDeleted fname h) k [] := by
  obtain ⟨r, hr, hbase, -⟩ := hl.find_of_ok hfound
  obtain ⟨as, bs, heq, hmarked⟩ := hn.markDeleted_of_find hr
  rw [hmarked]
  subst heq
  have haddr := hl.mark_addr (r := r) (by simp)
  rw [hbase] at haddr
  rw [haddr, ← hbase]
  obtain ⟨n, rfl⟩ : ∃ m, n = m + 1 := ⟨n - 1, by omega⟩
  rw [deletedMark, List.take_succ_cons]
  refine hl.mark ?_
  rw [List.length_take]
  exact Nat.min_le_right _ _

theorem Layout.invalidate (hl : Layout pfs h k pend) (hn : LiveNames h)
    (hfound : romfsOpenFile fname pfs = some found) (hpend : found.isOk = true → pend = []) :
    Layout (romfsInvalidate found pfs) (Alcor.Romfs.markDeleted fname h) k pend := by
  cases found with
  | notFound plast =>
    rw [markDeleted_of_none (hl.find_of_notFound hfound)]
    exact hl
  | ok baseaddr size nameaddr =>
    obtain rfl := hpend rfl
    have hmark := hl.invalidate_take hn hfound (n := deletedMark.length) (by decide)
    rw [List.take_length] at hmark
    rw [romfsInvalidate_ok]
    exact hmark

/-- The end of the directory, as the search for free space finds it. -/
theorem Layout.free (hl : Layout pfs h k []) (hn : Names h) :
    romfsOpenFile [1] pfs = some (.notFound k) :=
  romfsOpenFile_of_end hl.chain hl.end_marker hn.find_one

/-! ### Opening -/

/-- A file is only replaced by an open that asks for write access. -/
theorem mayWrite_of_replace (h : mustCreate flags true = true) :
    (openFlagsToFdFlags flags).mayWrite = true := by
  obtain ⟨wronly, rdwr, append, creat, trunc, excl, sync⟩ := flags
  cases wronly <;> cases rdwr <;> simp_all [mustCreate, openFlagsToFdFlags, FdFlags.mayWrite]

/-- While no file is being written, no bytes are pending. -/
theorem Writers.of_not_writing (hw : Writers cuts st h k pend)
    (hflag : st.fsdata.flags.writing = false) :
    pend = [] ∧ (∀ fd, ¬ st.MayWrite fd) ∧ ∀ r ∈ h, Settled cuts r := by
  cases hw with
  | idle writing pending nobody settled => exact ⟨pending, nobody, settled⟩
  | busy writing _ _ _ _ _ _ _ _ _ _ =>
    rw [hflag] at writing
    cases writing

/-- An open for writing that passes the checks finds no writer. -/
theorem Creates.not_writing (checks : Creates path flags st found)
    (hmay : (openFlagsToFdFlags flags).mayWrite = true) : st.fsdata.flags.writing = false := by
  have h := checks.notWriting
  rw [hmay, Bool.true_and] at h
  exact h

/-- An open that creates a file finds no writer, and adds its record at the end of the
directory. -/
theorem WofsInv.create (hinv : WofsInv cuts st h) {free : OpenFile}
    (hok : CallOk st (.openR garbage path flags)) (checks : Creates path flags st found)
    (lookup : romfsOpenFile [1] (romfsInvalidate found st.fsdata) = some free)
    (at_end : k = free.plastOr (found.plastOr garbage))
    (space : noSpace path k (romfsInvalidate found st.fsdata) = false) :
    (openFlagsToFdFlags flags).mayWrite = true ∧ WofsName path ∧ (∀ fd, ¬ st.MayWrite fd) ∧
      (∀ r ∈ h, Settled cuts r) ∧ Layout st.fsdata h k [] ∧
      Layout (romfsWriteName path k (romfsInvalidate found st.fsdata))
        (Alcor.Romfs.markDeleted path.bytes h ++ [.new path.bytes (romfsNewBase path k)])
        (romfsNewBase path k) [] := by
  obtain ⟨k', pend, hl, hw⟩ := hinv.layout
  obtain ⟨hmay, hname⟩ := hok ⟨found, free, checks, lookup, at_end ▸ space⟩
  obtain ⟨rfl, hnobody, hsettled⟩ := hw.of_not_writing (checks.not_writing hmay)
  have hmarked := hl.invalidate hinv.names.live checks.lookup fun _ => rfl
  -- The search for free space finds the end of the directory.
  have hk : k = k' := by
    rw [hmarked.free (hinv.names.markDeleted path.bytes), Option.some.injEq] at lookup
    rw [at_end, ← lookup]
    rfl
  subst hk
  exact ⟨hmay, hname, hnobody, hsettled, hl, hmarked.create hname.length_le hname.head space⟩

/-- An open that is refused leaves the history as it is. -/
theorem record_refused {e : Errno} (check : e ≠ .ENOSPC) :
    record h st st' (.openR garbage path flags) (.opened (.error e)) = h := by
  cases e <;> first | rfl | exact absurd rfl check

/-- An open that meets `CallOk` keeps the invariant, whether it is
refused, opens a file for reading or creates one. -/
theorem WofsInv.openR (hinv : WofsInv cuts st h) (hok : CallOk st (.openR garbage path flags))
    (hopen : romfsOpenR garbage path flags st = some (res, st')) :
    WofsInv cuts st' (record h st st' (.openR garbage path flags) (.opened res)) := by
  have htab := hinv.table.openR hopen
  obtain ⟨k, pend, hl, hw⟩ := hinv.layout
  cases romfsOpenR_outcome hopen with
  | refused check =>
    rw [record_refused check]
    exact hinv
  | existing numFd lookup keep readOnly install =>
    -- one more reader, and the writer is the same as before
    obtain ⟨i, rfl, hfs, hfd, hfree, hmay⟩ :=
      romfsInstallFd_spec (romfsOpenFile_ok lookup).1 install
    have hrec : record h st st' (.openR garbage path flags) (.opened (.ok i)) = h := by
      show (if _ then _ else h) = h
      rw [readOnly, if_neg (by decide)]
    rw [hrec]
    refine ⟨htab, hinv.names, k, pend, hfs ▸ hl, hw.of_same (by rw [hfs]) ?_ ?_⟩
    · intro fd
      rw [hmay]
      simp [readOnly]
    · intro fd hw'
      have hne : fd ≠ i := fun heq => hfree (heq ▸ hw')
      rw [hfd, if_neg hne]
      exact ⟨rfl, rfl⟩
  | @full found free checks lookup space =>
    -- the old version is marked although there is no room for the new one
    have hpend : found.isOk = true → pend = [] ∧ (∀ fd, ¬ st.MayWrite fd) ∧
        ∀ r ∈ h, Settled cuts r := by
      intro hfound
      have hcreate := checks.create
      rw [hfound] at hcreate
      exact hw.of_not_writing (checks.not_writing (mayWrite_of_replace hcreate))
    refine ⟨htab, hinv.names.markDeleted path.bytes, k, pend,
      hl.invalidate hinv.names.live checks.lookup fun hfound => (hpend hfound).1, ?_⟩
    show Writers cuts _ (Alcor.Romfs.markDeleted path.bytes h) k pend
    cases hfound : found.isOk with
    | false =>
      cases found with
      | ok _ _ _ => cases hfound
      | notFound plast =>
        rw [markDeleted_of_none (hl.find_of_notFound checks.lookup)]
        exact hw
    | true =>
      obtain ⟨hnil, hnobody, hsettled⟩ := hpend hfound
      have hcreate := checks.create
      rw [hfound] at hcreate
      refine .idle ?_ hnil hnobody (settled_markDeleted hsettled path.bytes)
      show (romfsInvalidate found st.fsdata).flags.writing = false
      rw [romfsInvalidate_flags]
      exact checks.not_writing (mayWrite_of_replace hcreate)
  | @created found free k' res st' checks lookup at_end space install =>
    -- the new descriptor is the only writer
    obtain ⟨hmay, hname, hnobody, hsettled, -, hnew⟩ :=
      hinv.create hok checks lookup at_end space
    obtain ⟨i, rfl, hfs, hfd, -, hmay'⟩ :=
      romfsInstallFd_spec (romfsNewBase_mod path k') install
    have hi := hfd i
    rw [if_pos rfl] at hi
    have hrec : record h st st' (.openR garbage path flags) (.opened (.ok i))
        = Alcor.Romfs.markDeleted path.bytes h ++ [.new path.bytes (romfsNewBase path k')] := by
      show (if _ then _ else h) = _
      rw [hmay, if_pos rfl, hi]
    rw [hrec]
    refine ⟨htab, hinv.names.create hname _, romfsNewBase path k', [], hfs ▸ hnew, ?_⟩
    refine .busy (w := i) (by rw [hfs]; rfl) ((hmay' i).mpr (.inl ⟨rfl, hmay⟩)) ?_
      (by rw [hi]) (by rw [hi]; rfl) rfl rfl rfl rfl rfl
      (settled_markDeleted hsettled path.bytes)
    intro fd hw'
    rcases (hmay' fd).mp hw' with hnew | hold
    · exact hnew.1
    · exact absurd hold (hnobody fd)

/-! ### Closing -/

/-- The last file of a history, with its data extended. -/
theorem extendLast_concat (bs : List UInt8) (h : List FileRec) (r : FileRec) :
    extendLast bs (h ++ [r]) = h ++ [{ r with data := r.data ++ bs }] :=
  List.modifyLast_concat _ _ _

theorem closeLast_concat (h : List FileRec) (r : FileRec) :
    closeLast (h ++ [r]) = h ++ [{ r with closed := true }] :=
  List.modifyLast_concat _ _ _

/-- The instance after a close. -/
theorem romfsCloseR_fsdata (fd : Nat) (st : RomfsState) :
    (romfsCloseR fd st).fsdata = if (st.fd fd).flags.mayWrite then
      romfsWriteSize (st.fd fd) st.fsdata else st.fsdata := rfl

/-- The close of the writer turns the pending bytes into the contents of the last file. -/
theorem Layout.writeSize (hl : Layout pfs (rs ++ [r]) k r.data) (hbase : r.base = k)
    (haddr : pfd.baseaddr = k) (hsize : pfd.size = r.data.length) :
    Layout (romfsWriteSize pfd pfs) (rs ++ [{ r with closed := true }])
      (alignUp (k + r.data.length)) [] := by
  subst hbase
  have hclosed := hl.close
  obtain ⟨j, -, hrec, -⟩ := hl.chain.recordAt (r := r) (by simp)
  have hpos := hrec.name_lt_base.1
  have hlt := hrec.base_lt
  rw [hl.wo, if_pos rfl] at hpos
  have hat : sub32 pfd.baseaddr ROMFS_SIZE_LEN = r.base - 4 := by
    rw [haddr]
    exact sub32_of_le (by unfold ROMFS_SIZE_LEN; omega) (by omega)
  unfold romfsWriteSize
  rw [hat, hsize]
  exact hclosed.of_eq rfl rfl rfl

/-- The history after a descriptor is closed that only reads. -/
theorem record_close_reader (hread : (st.fd fd).flags.mayWrite = false) :
    record h st st' (.closeR fd) .closed = h := by
  show (if _ then _ else h) = h
  rw [hread, if_neg (by decide)]

/-- The history after the descriptor of the last file is closed, which may write. -/
theorem record_close_writer (hwrite : (st.fd fd).flags.mayWrite = true) :
    record (rs ++ [r]) st st' (.closeR fd) .closed = rs ++ [{ r with closed := true }] := by
  show (if _ then _ else _) = _
  rw [hwrite, if_pos rfl, closeLast_concat]

/-- A close keeps the invariant. The descriptor that writes stores the
size of its file, any other one only goes. -/
theorem WofsInv.closeR (hinv : WofsInv cuts st h) (hopen : st.isOpen fd = true) :
    WofsInv cuts (romfsCloseR fd st) (record h st (romfsCloseR fd st) (.closeR fd) .closed) := by
  have htab := hinv.table.closeR hopen
  have hmay := mayWrite_of_close hopen
  have hfs := romfsCloseR_fsdata fd st
  obtain ⟨k, pend, hl, hw⟩ := hinv.layout
  cases hwrite : (st.fd fd).flags.mayWrite with
  | false =>
    -- a reader is no writer of the invariant, so the writer stays
    have hother : ∀ fd', st.MayWrite fd' → fd' ≠ fd := by
      rintro fd' hw' rfl
      rw [hw'.2] at hwrite
      cases hwrite
    rw [hwrite, if_neg (by decide)] at hfs
    rw [record_close_reader hwrite]
    refine ⟨htab, hinv.names, k, pend, hfs ▸ hl, hw.of_same (by rw [hfs]) ?_ ?_⟩
    · intro fd'
      rw [hmay]
      exact ⟨fun hw' => hw'.2, fun hw' => ⟨hother fd' hw', hw'⟩⟩
    · intro fd' hw'
      have hset : (romfsCloseR fd st).fdTable = st.fdTable.set fd FD.unused := rfl
      rw [fd_of_set hset (lt_of_isOpen hopen), if_neg (hother fd' hw')]
      exact ⟨rfl, rfl⟩
  | true =>
    cases hw with
    | idle writing pending nobody settled => exact absurd ⟨hopen, hwrite⟩ (nobody fd)
    | @busy w rs r writing mayWrite only addr size last unfinished live base data settled =>
      obtain rfl := only fd ⟨hopen, hwrite⟩
      subst last
      subst data
      -- the size makes the pending bytes the contents of the last record
      rw [record_close_writer hwrite]
      rw [hwrite, if_pos rfl] at hfs
      refine ⟨htab, hinv.names.replace_last rfl rfl, alignUp (k + r.data.length), [], ?_,
        .idle ?_ rfl ?_ ?_⟩
      · rw [hfs]
        exact hl.writeSize base addr size
      · rw [hfs]
        rfl
      · intro fd' hw'
        obtain ⟨hne, hold⟩ := (hmay fd').mp hw'
        exact hne (only fd' hold)
      · intro s hs
        rcases List.mem_append.mp hs with hs | hs
        · exact settled s hs
        · rw [List.mem_singleton] at hs
          exact .inl (by rw [hs])

/-! ### Writing -/

/-- What a write stores, without the wrap-around. -/
theorem romfsWriteLen_of_fits {len : Nat} (h : WriteFits pfd len pfs) :
    romfsWriteLen pfd len pfs
      = min len (pfs.maxSize - (pfd.baseaddr + pfd.size) - ROMFS_ALIGN) := by
  obtain ⟨hsum, hroom⟩ := h
  have hmax := pfs.maxSize_lt
  unfold romfsWriteLen
  unfold ROMFS_ALIGN at hroom ⊢
  rw [u32_of_lt hsum, sub32_of_le (by omega) hmax, u32_of_lt (by omega),
    sub32_of_le (by omega) hmax, sub32_of_le (by omega) (by omega)]
  split <;> omega

/-- A write that fits stores its bytes at the end of the contents, with room for the end marker
behind them. -/
theorem WriteFits.stored {n len : Nat} (h : WriteFits pfd n pfs)
    (length : len = romfsWriteLen pfd n pfs) :
    len ≤ n ∧ u32 (pfd.size + pfd.baseaddr) = pfd.baseaddr + pfd.size ∧
      pfd.baseaddr + pfd.size + len + ROMFS_ALIGN ≤ pfs.maxSize := by
  have hlen := length.trans (romfsWriteLen_of_fits h)
  have hsum := h.sum_lt
  have hroom := h.room
  refine ⟨by omega, ?_, by omega⟩
  rw [Nat.add_comm, u32_of_lt (by omega)]

/-- The writer is the descriptor that may write. -/
theorem Writers.of_mayWrite (hw : Writers cuts st h k pend) (hfd : st.MayWrite fd) :
    st.fsdata.flags.writing = true ∧ (∀ fd', st.MayWrite fd' → fd' = fd) ∧
      (st.fd fd).baseaddr = k ∧ (st.fd fd).size = pend.length ∧
      ∃ rs r, h = rs ++ [r] ∧ r.closed = false ∧ r.deleted = false ∧ r.base = k ∧
        r.data = pend ∧ ∀ s ∈ rs, Settled cuts s := by
  cases hw with
  | idle _ _ nobody _ => exact absurd hfd (nobody fd)
  | busy writing mayWrite only addr size last unfinished live base data settled =>
    obtain rfl := only fd hfd
    exact ⟨writing, only, addr, size, _, _, last, unfinished, live, base, data, settled⟩

/-- Behind the contents of the file that is being written there is room for the end marker: both
ends of the medium are multiples of 4. -/
theorem WofsInv.room (hinv : WofsInv cuts st h) (hfd : st.MayWrite fd)
    (hmax : st.fsdata.maxSize % ROMFS_ALIGN = 0) :
    (st.fd fd).baseaddr + (st.fd fd).size + ROMFS_ALIGN ≤ st.fsdata.maxSize := by
  obtain ⟨k, pend, hl, hw⟩ := hinv.layout
  obtain ⟨-, -, addr, size, -⟩ := hw.of_mayWrite hfd
  have hfits := hl.fits
  have halign := hl.aligned
  rw [addr, size]
  unfold ROMFS_ALIGN at hmax ⊢
  unfold alignUp at hfits
  omega

/-- The history after a write away from the end of the file. -/
theorem record_ignored {ptr : List UInt8} :
    record (rs ++ [r]) st st' (.writeR fd ptr) (.written (.ok 0)) = rs ++ [r] := by
  show extendLast _ _ = _
  rw [extendLast_concat, List.take_zero, List.append_nil]

/-- A write that meets `CallOk` keeps the invariant, whether it stores
something or not. -/
theorem WofsInv.writeR (hinv : WofsInv cuts st h) {ptr : List UInt8}
    (hopen : st.isOpen fd = true) (hok : CallOk st (.writeR fd ptr))
    (hout : WriteOutcome fd ptr st res st') :
    WofsInv cuts st' (record h st st' (.writeR fd ptr) (.written res)) := by
  obtain ⟨k, pend, hl, hw⟩ := hinv.layout
  have hi := lt_of_isOpen hopen
  cases hout with
  | refused readOnly => exact hinv
  | ignored mayWrite offset table numFd fsdata =>
    obtain ⟨-, -, -, -, rs, r, rfl, -⟩ := hw.of_mayWrite ⟨hopen, mayWrite⟩
    rw [record_ignored]
    refine ⟨hinv.table.set_used hopen table rfl numFd, hinv.names, k, pend, fsdata ▸ hl,
      hw.of_same (by rw [fsdata]) (mayWrite_of_set hinv.table hopen table rfl rfl) ?_⟩
    intro fd' _
    rw [fd_of_set table hi]
    split
    · rename_i heq
      rw [heq]
      exact ⟨rfl, rfl⟩
    · exact ⟨rfl, rfl⟩
  | @stored len st' mayWrite offset length table numFd fsdata =>
    have hfits : WriteFits (st.fd fd) ptr.length st.fsdata := hok mayWrite
    obtain ⟨writing, only, addr, size, rs, r, rfl, unfinished, live, base, data, settled⟩ :=
      hw.of_mayWrite ⟨hopen, mayWrite⟩
    have hmax := st.fsdata.maxSize_lt
    obtain ⟨hlen, hwhere, hroom⟩ := hfits.stored length
    rw [addr, size] at hroom
    have htake : (ptr.take len).length = len := by
      rw [List.length_take]
      omega
    -- the bytes go behind the pending ones
    have hnew := hl.append (ptr.take len) (by rw [htake]; omega)
    rw [hwhere, addr, size] at fsdata
    rw [← fsdata] at hnew
    have hrec : record (rs ++ [r]) st st' (.writeR fd ptr) (.written (.ok len))
        = rs ++ [{ r with data := pend ++ ptr.take len }] := by
      show extendLast _ _ = _
      rw [extendLast_concat, data]
    have hmay := mayWrite_of_set hinv.table hopen table rfl rfl
    have hfd := fd_of_set table hi fd
    rw [if_pos rfl] at hfd
    rw [hrec]
    refine ⟨hinv.table.set_used hopen table rfl numFd, hinv.names.replace_last rfl rfl, k,
      pend ++ ptr.take len, ?_, .busy (w := fd) ?_ ((hmay fd).mpr ⟨hopen, mayWrite⟩)
        (fun fd' hw' => only fd' ((hmay fd').mp hw')) ?_ ?_ rfl unfinished live base rfl settled⟩
    · exact hnew.set_data unfinished _
    · rw [fsdata, FSDATA.writef_flags]
      exact writing
    · rw [hfd]
      exact addr
    · rw [hfd, List.length_append, htake]
      show u32 ((st.fd fd).size + len) = _
      rw [size]
      exact u32_of_lt (by omega)

/-! ### All calls -/

theorem record_passive {c : Call} {reply : Reply} (hc : Passive c) :
    record h st st' c reply = h := by
  cases c with
  | openR _ _ _ => exact hc.elim
  | closeR _ => exact hc.elim
  | writeR _ _ => exact hc.elim
  | readR _ _ | lseekR _ _ _ | opendirR _ | readdirR | closedirR => rfl

/-- A call that touches neither the medium nor the set of open descriptors. -/
theorem WofsInv.moved (hinv : WofsInv cuts st h) (hmoved : Moved st st') : WofsInv cuts st' h := by
  obtain ⟨k, pend, hl, hw⟩ := hinv.layout
  have hfs := hmoved.fsdata
  rcases hmoved.table with htab | ⟨fd, offset, hopen, htab⟩
  · have hfd : ∀ fd, st'.fd fd = st.fd fd := fun fd => by
      unfold RomfsState.fd
      rw [htab]
    refine ⟨hinv.table.of_eq htab hmoved.numFd, hinv.names, k, pend, hfs ▸ hl,
      hw.of_same (by rw [hfs]) ?_ ?_⟩
    · intro fd
      unfold RomfsState.MayWrite RomfsState.isOpen
      rw [hfd]
    · intro fd _
      rw [hfd]
      exact ⟨rfl, rfl⟩
  · refine ⟨hinv.table.set_used hopen htab rfl hmoved.numFd, hinv.names, k, pend, hfs ▸ hl,
      hw.of_same (by rw [hfs]) (mayWrite_of_set hinv.table hopen htab rfl rfl) ?_⟩
    intro fd' _
    rw [fd_of_set htab (lt_of_isOpen hopen)]
    split
    · rename_i heq
      rw [heq]
      exact ⟨rfl, rfl⟩
    · exact ⟨rfl, rfl⟩

/-- Every call that meets `CallOk` keeps the invariant. -/
theorem WofsInv.call (hinv : WofsInv cuts st h) {c : Call} {reply : Reply} (hok : CallOk st c)
    (hcall : romfsCall st c = some (reply, st')) : WofsInv cuts st' (record h st st' c reply) := by
  cases romfsCall_outcome hcall with
  | openR opened => exact hinv.openR hok opened
  | closeR isOpen => exact hinv.closeR isOpen
  | writeR isOpen outcome => exact hinv.writeR isOpen hok outcome
  | passive passive moved =>
    rw [record_passive passive]
    exact hinv.moved moved

/-- Every run of such calls keeps the invariant. By the run rule, from
the step lemma `WofsInv.call`. -/
theorem WofsInv.run {t t' : Traced} (hinv : WofsInv cuts t.st t.history) {cs : List Call}
    (hok : Run.AllSteps tracedStep (fun t c => CallOk t.st c) t cs)
    (hrun : Run.run tracedStep t cs = some t') : WofsInv cuts t'.st t'.history := by
  refine Run.invariant_run (I := fun t => WofsInv cuts t.st t.history) ?_ cs t t' hinv hok hrun
  intro t c t' hinv hok hstep
  obtain ⟨⟨reply, st'⟩, hcall, rfl⟩ := Option.map_eq_some_iff.mp hstep
  exact hinv.call hok hcall

end Alcor.Proofs.Romfs
