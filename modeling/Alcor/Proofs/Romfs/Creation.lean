import Alcor.Proofs.Romfs.Wofs

/-!
# `Alcor.Proofs.Romfs.Creation`: which names a file can be created under

`romfs_open_r` writes any path it is given. Its readers take less:
`romfs_open_file` and `romfs_readdir_r` stop at a first byte `0xFF`,
and `dm_shared_fname` has room for 30 bytes and a zero.

* `creation_safe` compares the two for one open, on any WOFS with a
  directory that can be read (`Readable`).
* `creationSafe_of_ok` and `ok_of_creationSafe` are its two directions;
  `readdirName_overrun` is a name that is too long for the iteration.
* `Readable.firstfree`: one more name does harm. The search for free
  space asks for the name `"\1"`, and where a file has it, an open that
  replaces another file goes on with a variable that nothing was stored
  in (`Misled`).
-/

set_option autoImplicit false

namespace Alcor.Proofs.Romfs

open Lib
open Alcor.Romfs

variable {st : RomfsState} {k garbage : Nat} {h : List FileRec} {path : CStr} {flags : OpenFlags}

/-- A WOFS whose directory, the records of `h`, can be read up to its end at `k`. -/
structure Readable (st : RomfsState) (h : List FileRec) (k : Nat) : Prop where
  table : Table st
  names : LiveNames h
  layout : Layout st.fsdata h k []

/-- The files after an open that returns a descriptor with the address `base`. -/
def openedFiles (path : CStr) (flags : OpenFlags) (base : Nat) (h : List FileRec) :
    List FileRec :=
  if mustCreate flags (h.any (FileRec.isHit path.bytes)) then
    markDeleted path.bytes h ++ [.new path.bytes base]
  else h

/-- The file that was opened under `path` is found, and so are all others, with their contents;
a directory iteration lists all files. Both have room for the names they read: an iteration that
overran `dm_shared_fname` would have no outcome. -/
structure StaysParseable (path : CStr) (fd : Nat) (st : RomfsState) (h : List FileRec) :
    Prop where
  opened : ∃ size na, romfsOpenFile path.bytes st.fsdata
    = some (.ok (st.fd fd).baseaddr size na)
  found : ∀ r ∈ h, r.deleted = false → ∀ name : List UInt8,
    lower (name.take DM_MAX_FNAME_LENGTH) = lower r.name →
    ∃ na, romfsOpenFile name st.fsdata = some (.ok r.base r.sizeField na)
  contents : ∀ r ∈ h, r.closed = true → st.fsdata.medium.bytes.Holds r.base r.data
  listed : Lists { st with romfsDirData := 0 }
    ((h.filter fun r => !r.deleted).map FileRec.dirent)
  fsname : ∀ i, (romfsReadName st.fsdata i DM_MAX_FNAME_LENGTH).length ≤ DM_MAX_FNAME_LENGTH

/-- The open returns, and it fails or the directory can be read behind it. -/
def CreationSafe (garbage : Nat) (path : CStr) (flags : OpenFlags) (st : RomfsState)
    (h : List FileRec) : Prop :=
  ∃ res st', romfsOpenR garbage path flags st = some (res, st') ∧
    ∀ fd, res = .ok fd →
      StaysParseable path fd st' (openedFiles path flags (st'.fd fd).baseaddr h)

/-- The path replaces a file, and the search for free space finds another one. -/
def Misled (path : CStr) (h : List FileRec) : Prop :=
  h.any (FileRec.isHit path.bytes) = true ∧
    (markDeleted path.bytes h).any (FileRec.isHit [1]) = true

/-- A path that creates a file fits and does not start with the end marker, and the place for it
is the end of the directory at `k`. -/
def CreationOk (garbage : Nat) (path : CStr) (flags : OpenFlags) (st : RomfsState)
    (h : List FileRec) (k : Nat) : Prop :=
  CreatesFile garbage path flags st →
    path.bytes.length ≤ DM_MAX_FNAME_LENGTH ∧
      path.bytes.head? ≠ some WOFS_END_MARKER_CHAR ∧ (Misled path h → garbage = k)

/-! ### Lookups on a readable WOFS -/

theorem length_romfsReadName_le (pfs : FSDATA) :
    ∀ n i, (romfsReadName pfs i n).length ≤ n := by
  intro n
  induction n with
  | zero => exact fun i => Nat.le_refl 0
  | succ n ih =>
    intro i
    rw [romfsReadName]
    split
    · exact Nat.zero_le _
    · exact Nat.succ_le_succ (ih _)

/-- A lookup ends; it finds a file if one has the name. -/
theorem Layout.exists_found {pfs : FSDATA} (hl : Layout pfs h k []) (fname : List UInt8) :
    ∃ found, romfsOpenFile fname pfs = some found ∧
      found.isOk = h.any (FileRec.isHit fname) ∧ (found.isOk = false → found = .notFound k) := by
  cases hr : h.find? (FileRec.isHit fname) with
  | none =>
    refine ⟨_, romfsOpenFile_of_end hl.chain hl.end_marker hr, ?_, fun _ => rfl⟩
    exact (List.any_eq_false.mpr (List.find?_eq_none.mp hr)).symm
  | some r =>
    obtain ⟨na, hna⟩ := romfsOpenFile_of_find hl.chain hr
    refine ⟨_, hna, ?_, fun hok => by cases hok⟩
    exact (List.any_eq_true.mpr ⟨r, List.mem_of_find?_eq_some hr, List.find?_some hr⟩).symm

/-- What is opened on a readable WOFS, behind an open that keeps it readable. -/
theorem staysParseable_of_layout {fd : Nat} (hl : Layout st.fsdata h k []) (hn : LiveNames h)
    (hopened : ∃ size na, romfsOpenFile path.bytes st.fsdata
      = some (.ok (st.fd fd).baseaddr size na)) : StaysParseable path fd st h := by
  refine ⟨hopened, ?_, ?_, ?_, fun i => length_romfsReadName_le _ _ i⟩
  · intro r hr hlive name hname
    exact romfsOpenFile_of_find hl.chain (hn.find_of_mem hr hlive hname)
  · intro r hr hclosed
    obtain ⟨j, -, hrec, -⟩ := hl.chain.recordAt hr
    exact hrec.contents hclosed
  · exact lists_of_chain _ { st with romfsDirData := 0 } h (Nat.le_refl _) hl.chain
      (show 0 < 2 ^ 32 by decide) hl.end_marker

/-- An open returns if its lookups do. -/
theorem romfsOpenR_returns (htab : Table st) {found : OpenFile}
    (hfound : romfsOpenFile path.bytes st.fsdata = some found)
    (hfree : ∃ free, romfsOpenFile [1] (romfsInvalidate found st.fsdata) = some free) :
    ∃ res st', romfsOpenR garbage path flags st = some (res, st') := by
  obtain ⟨free, hfree⟩ := hfree
  unfold romfsOpenR
  split
  · exact ⟨_, _, rfl⟩
  rename_i hnum
  have hinstall : ∀ pfd fsdata, ∃ res st',
      romfsInstallFd pfd { st with fsdata := fsdata } = some (res, st') := by
    intro pfd fsdata
    have htab' : Table { st with fsdata := fsdata } := htab.of_eq rfl rfl
    obtain ⟨i, st', h⟩ := htab'.exists_install hnum pfd
    exact ⟨_, st', h⟩
  rw [hfound, Option.bind_some]
  dsimp only
  -- the checks, one after the other
  split
  · exact ⟨_, _, rfl⟩
  split
  · exact ⟨_, _, rfl⟩
  split
  · exact ⟨_, _, rfl⟩
  split
  · exact ⟨_, _, rfl⟩
  split
  · rw [romfsCreate, hfree, Option.bind_some]
    dsimp only
    split
    · exact ⟨_, _, rfl⟩
    · exact hinstall _ _
  · cases found with
    | notFound plast => exact ⟨_, _, rfl⟩
    | ok baseaddr size nameaddr => exact hinstall _ st.fsdata

/-! ### An open with a name that fits -/

/-- Where the new file goes, unless the search for free space is misled. -/
theorem Readable.firstfree (hst : Readable st h k) {found free : OpenFile} (garbage : Nat)
    (hfound : romfsOpenFile path.bytes st.fsdata = some found)
    (hfree : romfsOpenFile [1] (romfsInvalidate found st.fsdata) = some free)
    (hk : Misled path h → garbage = k) : free.plastOr (found.plastOr garbage) = k := by
  have hmarked := hst.layout.invalidate hst.names hfound fun _ => rfl
  obtain ⟨found', hfound', hany, hmiss⟩ := hst.layout.exists_found path.bytes
  rw [hfound, Option.some.injEq] at hfound'
  subst hfound'
  obtain ⟨free', hfree', hany', hmiss'⟩ := hmarked.exists_found [1]
  rw [hfree, Option.some.injEq] at hfree'
  subst hfree'
  -- each lookup that finds nothing ends at the end of the directory, and the last one counts
  cases free with
  | notFound plast =>
    have heq := hmiss' rfl
    rw [OpenFile.notFound.injEq] at heq
    exact heq
  | ok _ _ _ =>
    cases found with
    | notFound plast =>
      have heq := hmiss rfl
      rw [OpenFile.notFound.injEq] at heq
      exact heq
    | ok _ _ _ => exact hk ⟨hany.symm, hany'.symm⟩

theorem Readable.returns (hst : Readable st h k) (garbage : Nat) (path : CStr)
    (flags : OpenFlags) : ∃ res st', romfsOpenR garbage path flags st = some (res, st') := by
  obtain ⟨found, hfound, -⟩ := hst.layout.exists_found path.bytes
  have hmarked := hst.layout.invalidate hst.names hfound fun _ => rfl
  obtain ⟨free, hfree, -⟩ := hmarked.exists_found [1]
  exact romfsOpenR_returns hst.table hfound ⟨free, hfree⟩

/-- An open of a name that fits, whose file goes to the end of the
directory, leaves the directory readable. -/
theorem creationSafe_of_ok (hst : Readable st h k) (hok : CreationOk garbage path flags st h k) :
    CreationSafe garbage path flags st h := by
  obtain ⟨res, st', hopen⟩ := hst.returns garbage path flags
  refine ⟨res, st', hopen, fun fd hres => ?_⟩
  obtain ⟨found, hfound, hany, -⟩ := hst.layout.exists_found path.bytes
  cases romfsOpenR_outcome hopen with
  | refused check => cases hres
  | full checks lookup space => cases hres
  | @existing baseaddr size nameaddr _ _ numFd lookup keep readOnly install =>
    rw [lookup, Option.some.injEq] at hfound
    subst hfound
    obtain ⟨i, rfl, hfs, hfd, -⟩ :=
      romfsInstallFd_spec (romfsOpenFile_ok lookup).1 install
    cases hres
    -- nothing is written
    have hfiles : openedFiles path flags (st'.fd fd).baseaddr h = h := by
      rw [openedFiles, ← hany]
      exact if_neg (by rw [show OpenFile.isOk (.ok baseaddr size nameaddr) = true from rfl, keep]
                       decide)
    rw [hfiles]
    refine staysParseable_of_layout (hfs ▸ hst.layout) hst.names ⟨size, nameaddr, ?_⟩
    rw [hfs, hfd, if_pos rfl]
    exact lookup
  | @created found' free k' _ _ checks lookup at_end space install =>
    -- the name goes to the end of the directory, behind the mark on the old version
    rw [checks.lookup, Option.some.injEq] at hfound
    subst hfound
    obtain ⟨hlen, hhead, hk⟩ := hok ⟨found', free, checks, lookup, at_end ▸ space⟩
    have hend := hst.firstfree garbage checks.lookup lookup hk
    rw [hend] at at_end
    subst at_end
    obtain ⟨i, rfl, hfs, hfd, -⟩ := romfsInstallFd_spec (romfsNewBase_mod path k') install
    cases hres
    have hbase : (st'.fd fd).baseaddr = romfsNewBase path k' := by
      rw [hfd, if_pos rfl]
    have hfiles : openedFiles path flags (st'.fd fd).baseaddr h
        = markDeleted path.bytes h ++ [.new path.bytes (romfsNewBase path k')] := by
      rw [openedFiles, ← hany, checks.create, if_pos rfl, hbase]
    have hmarked := hst.layout.invalidate hst.names checks.lookup fun _ => rfl
    have hnew := hmarked.create hlen hhead space
    have hnames := hst.names.create hlen (romfsNewBase path k')
    rw [hfiles]
    -- the new file ends where its contents start
    refine staysParseable_of_layout (k := romfsNewBase path k') (hfs ▸ hnew) hnames ?_
    have hfind : List.find? (FileRec.isHit path.bytes)
        (markDeleted path.bytes h ++ [.new path.bytes (romfsNewBase path k')])
          = some (.new path.bytes (romfsNewBase path k')) :=
      hnames.find_of_mem (by simp) rfl (by rw [List.take_of_length_le hlen]; rfl)
    obtain ⟨na, hna⟩ := romfsOpenFile_of_find hnew.chain hfind
    exact ⟨_, na, by rw [hfs, hbase]; exact hna⟩

/-! ### An open with a name that does not fit -/

/-- After the marks no live version is left. -/
theorem find_markDeleted (fname : List UInt8) (h : List FileRec) :
    (markDeleted fname h).find? (FileRec.isHit fname) = none := by
  rw [List.find?_eq_none]
  intro s hs hhit
  obtain ⟨r, -, -, -, -, hlive⟩ := mem_markDeleted hs
  cases hd : s.deleted with
  | true => simp [FileRec.isHit, hd] at hhit
  | false =>
    obtain ⟨rfl, hmiss⟩ := hlive hd
    exact hmiss hhit

/-- A name that is longer than `dm_shared_fname` overruns it. -/
theorem readdirName_overrun {pfs : FSDATA} {bs : List UInt8} :
    ∀ {n off : Nat}, pfs.medium.bytes.Holds off bs → 0 ∉ bs → n ≤ bs.length →
      off + bs.length < 2 ^ 32 → readdirName pfs off n = none := by
  induction bs with
  | nil =>
    intro n off _ _ hn _
    obtain rfl : n = 0 := by simpa using hn
    rfl
  | cons b bs ih =>
    intro n off hm hnul hn hlt
    cases n with
    | zero => rfl
    | succ n =>
      -- one more byte is copied, for none of them is the zero that ends the copy
      rw [Mem.holds_cons] at hm
      rw [List.length_cons] at hn hlt
      have hb : ¬ romfshRead8 off pfs = 0 := by
        rw [romfshRead8, hm.1]
        exact fun hzero => hnul (by simp [hzero])
      rw [readdirName]
      dsimp only
      rw [if_neg hb, u32_of_lt (by omega),
        ih hm.2 (fun hmem => hnul (List.mem_cons_of_mem b hmem)) (by omega) (by omega)]
      rfl

theorem not_lists_of_none {es : List DmDirent} (hnone : romfsReaddirR st = none) :
    ¬ Lists st es := by
  intro hlists
  cases hlists with
  | done h =>
    rw [hnone] at h
    cases h
  | next h _ =>
    rw [hnone] at h
    cases h

/-- No iteration gets over a record that overruns `dm_shared_fname`. -/
theorem not_lists_of_overrun :
    ∀ (n : Nat) (st : RomfsState) (rs : List FileRec) (es : List DmDirent), rs.length ≤ n →
      Chain st.fsdata st.romfsDirData rs k → st.romfsDirData < 2 ^ 32 →
      romfsReaddirBody st.fsdata k = .inl .overrun → ¬ Lists st es := by
  intro n
  -- each read ends at the bad record or leaves fewer records before it
  induction n with
  | zero =>
    intro st rs es hn h hlt hend hlists
    obtain ⟨-, m, hm⟩ | ⟨r, ss, j, -, -, hlen, -⟩ := run_readdir_of_chain h hend
    · exact not_lists_of_none
        (by rw [romfsReaddirR, run_u32_of_run (fun _ _ => romfsReaddirBody_lt) hlt hm]) hlists
    · exact absurd (Nat.lt_of_lt_of_le hlen hn) (Nat.not_lt_zero _)
  | succ n ih =>
    intro st rs es hn h hlt hend hlists
    obtain ⟨-, m, hm⟩ | ⟨r, ss, j, -, hss, hlen, hj, m, hm⟩ := run_readdir_of_chain h hend
    · exact not_lists_of_none
        (by rw [romfsReaddirR, run_u32_of_run (fun _ _ => romfsReaddirBody_lt) hlt hm]) hlists
    · have hsome : romfsReaddirR st = some (some r.dirent, { st with romfsDirData := j }) := by
        rw [romfsReaddirR, run_u32_of_run (fun _ _ => romfsReaddirBody_lt) hlt hm]
      cases hlists with
      | done h' =>
        rw [hsome] at h'
        cases h'
      | next h' rest =>
        rw [hsome] at h'
        cases h'
        exact ih { st with romfsDirData := j } ss _ (by omega) hss hj hend rest

/-- What an open has done that creates a file. -/
theorem CreatesFile.outcome {st' : RomfsState} {res : Except Errno Nat}
    (hcreates : CreatesFile garbage path flags st)
    (hopen : romfsOpenR garbage path flags st = some (res, st')) :
    ∃ found free k fd, Creates path flags st found ∧
      romfsOpenFile [1] (romfsInvalidate found st.fsdata) = some free ∧
      k = free.plastOr (found.plastOr garbage) ∧
      noSpace path k (romfsInvalidate found st.fsdata) = false ∧ res = .ok fd ∧
      st'.fsdata = romfsWriteName path k (romfsInvalidate found st.fsdata) := by
  obtain ⟨found, free, checks, lookup, space⟩ := hcreates
  rw [romfsOpenR_of_creates checks, romfsCreate] at hopen
  dsimp only at hopen
  rw [lookup, Option.bind_some] at hopen
  rw [space, if_neg (by decide)] at hopen
  obtain ⟨i, hres, -, -, rfl⟩ := romfsInstallFd_eq hopen
  exact ⟨found, free, _, i, checks, lookup, rfl, space, hres, rfl⟩

/-- An open that leaves the directory readable had a name that fits,
unless the search for free space was misled. -/
theorem ok_of_creationSafe (hst : Readable st h k) (hright : ¬ Misled path h)
    (hsafe : CreationSafe garbage path flags st h) : CreationOk garbage path flags st h k := by
  intro hcreates
  obtain ⟨res, st', hopen, hstays⟩ := hsafe
  obtain ⟨found, free, k', fd, checks, lookup, hk, space, rfl, hfs⟩ := hcreates.outcome hopen
  rw [hst.firstfree garbage checks.lookup lookup fun hm => absurd hm hright] at hk
  subst hk
  have hparse := hstays fd rfl
  have hmarked := hst.layout.invalidate hst.names checks.lookup fun _ => rfl
  have hbelow : Mem.Agree (romfsInvalidate found st.fsdata).medium.bytes
      st'.fsdata.medium.bytes 0 k' := by
    rw [hfs]
    exact Mem.agree_store_below _ _ _
  have hchain : Chain st'.fsdata 0 (markDeleted path.bytes h) k' :=
    hmarked.chain.frame (by rw [hfs]; rfl) hbelow
  have hname : st'.fsdata.medium.bytes.Holds k' (path.bytes ++ [0]) := by
    rw [hfs]
    exact Mem.holds_store_self _ _ _
  have hlt := hmarked.end_lt.2
  have hroom := noSpace_eq_false (by simpa using hlt) space
  have hmax := (romfsInvalidate found st.fsdata).maxSize_lt
  have hhead : path.bytes.head? ≠ some WOFS_END_MARKER_CHAR := by
    intro hhead
    -- the end of the directory is where it was
    obtain ⟨bs, hbs⟩ : ∃ bs, path.bytes = WOFS_END_MARKER_CHAR :: bs :=
      List.head?_eq_some_iff.mp hhead
    rw [hbs, List.cons_append, Mem.holds_cons] at hname
    obtain ⟨size, na, hopened⟩ := hparse.opened
    rw [romfsOpenFile_of_end hchain hname.1 (find_markDeleted path.bytes h)] at hopened
    cases hopened
  refine ⟨?_, hhead, fun hm => absurd hm hright⟩
  by_contra hlong
  -- the iteration overruns at the new record
  have hfirst : romfshRead8 k' st'.fsdata ≠ WOFS_END_MARKER_CHAR := by
    intro hfirst
    cases hbytes : path.bytes with
    | nil =>
      rw [hbytes] at hlong
      exact hlong (Nat.zero_le _)
    | cons c cs =>
      rw [hbytes, List.cons_append, Mem.holds_cons] at hname
      rw [hbytes, List.head?_cons] at hhead
      exact hhead (congrArg some (hname.1.symm.trans hfirst))
  have hbody : romfsReaddirBody st'.fsdata k' = .inl .overrun := by
    rw [Mem.holds_append] at hname
    rw [romfsReaddirBody, if_neg hfirst,
      readdirName_overrun hname.1 path.nulFree (by omega) (by omega)]
  exact not_lists_of_overrun _ { st' with romfsDirData := 0 } _ _ (Nat.le_refl _) hchain
    (show 0 < 2 ^ 32 by decide) hbody hparse.listed

/-- **Creating a file** on a readable WOFS: the open fails or leaves the directory readable if
the path fits, does not start with the end marker and the file goes to the end of the directory.
If the search for free space is not misled, then only so. -/
theorem creation_safe {st : RomfsState} {h : List FileRec} {k : Nat} (hst : Readable st h k)
    (garbage : Nat) (path : CStr) (flags : OpenFlags) :
    (CreationOk garbage path flags st h k → CreationSafe garbage path flags st h) ∧
      (¬ Misled path h → CreationSafe garbage path flags st h →
        CreationOk garbage path flags st h k) :=
  ⟨creationSafe_of_ok hst, ok_of_creationSafe hst⟩

theorem readable_wofsFormat : Readable (romfsInit (wofsFormat 64 (by decide))) [] 0 :=
  ⟨Table.init _, Names.nil.live, layout_of_formatted (formatted_wofsFormat (by decide) (by decide))⟩

/-- The file `a`, on a WOFS of 64 bytes. -/
theorem creation_safe_a : CreationSafe 0 ⟨[97], by decide⟩ sessionFlags
    (romfsInit (wofsFormat 64 (by decide))) [] :=
  (creation_safe readable_wofsFormat 0 ⟨[97], by decide⟩ sessionFlags).1
    fun _ => ⟨by decide, by decide, fun h => absurd h.1 (by decide)⟩

/-- A name of 31 bytes: the directory iteration behind it overruns `dm_shared_fname`. -/
theorem not_creation_safe : ¬ ∀ (st : RomfsState) (h : List FileRec) (k : Nat), Readable st h k →
    ∀ garbage path flags, CreationSafe garbage path flags st h := by
  intro hall
  obtain ⟨res, st', hopen, hstays⟩ := hall _ _ _ readable_wofsFormat 0
    ⟨List.replicate 31 97, by decide⟩ sessionFlags
  have hrun : (romfsOpenR 0 ⟨List.replicate 31 97, by decide⟩ sessionFlags
      (romfsInit (wofsFormat 64 (by decide)))).map (fun out =>
        (out.1, (romfsReaddirR { out.2 with romfsDirData := 0 }).isNone))
      = some (.ok 0, true) := by decide
  rw [hopen, Option.map_some, Option.some.injEq, Prod.mk.injEq] at hrun
  obtain ⟨rfl, hnone⟩ := hrun
  exact not_lists_of_none (Option.isNone_iff_eq_none.mp hnone) (hstays 0 rfl).listed

end Alcor.Proofs.Romfs
