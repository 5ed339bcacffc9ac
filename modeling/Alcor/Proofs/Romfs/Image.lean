import Alcor.Proofs.Romfs.Scan
import Alcor.Romfs.Directory

/-!
# `Alcor.Proofs.Romfs.Image`: the firmware reads what `mkfs.lua` wrote

The image is computed as the records of the files one after the other
(`encodeFiles`) and the end marker. It is read back as the chain of
records `imageRecs`. The two programs meet in these two statements, and
the scan lemmas of `Scan.lean` do the rest. The memory behind the image
is arbitrary, so a scan that left the image could not have one result.

Two limits of the format stand in the hypotheses of the main result.
The scan offset is a 32-bit value, so an image of more than `2 ^ 32`
bytes is not read back. A name is compared up to its first 30 bytes, so
a longer name is found when these 30 are a name of the list.

* `mkfs_eq`: the bytes that `mkfs.lua` writes for a list of files.
* `chain_of_holds`: a memory that holds the image carries the records.
* `mkfs_reads_back`: every file of the list is found with its size and
  contents, no other name is, and the listing is the list.
* `mkfs_not_reads_back`: an input beyond each of the two limits.
-/

set_option autoImplicit false

namespace Alcor.Proofs.Romfs

open Lib
open Alcor.Romfs

/-- A file for the image: its name and its contents. -/
structure ImageFile where
  /-- Name of the file. -/
  name : CStr
  /-- The contents. -/
  data : List UInt8

variable {f : ImageFile}

/-- The input list of `mkfs` for regular files. -/
def hostFiles (files : List ImageFile) : List (List UInt8 × HostFile) :=
  files.map fun f => (f.name.bytes, .regular f.data)

/-! ### The bytes of the image -/

/-- The bytes of one file at offset `c`. -/
def encodeFile (c : Nat) (f : ImageFile) : List UInt8 :=
  f.name.bytes ++ [0]
    ++ List.replicate (alignUp (c + f.name.bytes.length + 1) - (c + f.name.bytes.length + 1)) 0
    ++ leBytes 4 f.data.length ++ f.data

/-- The bytes of the files from offset `c` on. -/
def encodeFiles : Nat → List ImageFile → List UInt8
  | _, []      => []
  | c, f :: fs => encodeFile c f ++ encodeFiles (c + (encodeFile c f).length) fs

/-- The record of a file at offset `c`. -/
def imageRec (c : Nat) (f : ImageFile) : FileRec :=
  ⟨f.name.bytes, contentsAt false c f.name.bytes.length, f.data, true, false⟩

/-- The records of the files from offset `c` on. -/
def imageRecs : Nat → List ImageFile → List FileRec
  | _, []      => []
  | c, f :: fs => imageRec c f :: imageRecs (c + (encodeFile c f).length) fs

theorem addString_eq (data : List UInt8) (s : MkfsState) :
    addString data s = ⟨s.bytecnt + data.length, s.out ++ data⟩ := by
  unfold addString
  induction data generalizing s with
  | nil => simp
  | cons b bs ih =>
    rw [List.foldl_cons, ih]
    simp only [addData, List.length_cons, List.append_assoc, List.singleton_append]
    congr 1
    omega

/-- The padding loop stops at the next multiple of the alignment. -/
theorem addPadding_eq (k : Nat) (s : MkfsState) (hk : alignUp s.bytecnt - s.bytecnt ≤ k) :
    addPadding k s = ⟨alignUp s.bytecnt,
      s.out ++ List.replicate (alignUp s.bytecnt - s.bytecnt) 0⟩ := by
  have hle : s.bytecnt ≤ alignUp s.bytecnt := by unfold alignUp; omega
  induction k generalizing s with
  | zero =>
    have h : alignUp s.bytecnt = s.bytecnt := by omega
    simp [addPadding, h]
  | succ k ih =>
    unfold addPadding MKFS_ALIGNMENT
    split
    · rename_i hmod
      have hup : alignUp (s.bytecnt + 1) = alignUp s.bytecnt := by unfold alignUp; omega
      have hlt : s.bytecnt + 1 ≤ alignUp s.bytecnt := by unfold alignUp; omega
      have hrep : alignUp s.bytecnt - s.bytecnt = alignUp s.bytecnt - (s.bytecnt + 1) + 1 := by
        omega
      rw [ih (addData 0 s) (by simp only [addData, hup]; omega)
        (by simp only [addData, hup]; omega)]
      simp only [addData, hup, List.append_assoc, List.singleton_append]
      rw [hrep, List.replicate_succ]
    · rename_i hmod
      have h : alignUp s.bytecnt = s.bytecnt := by unfold alignUp; omega
      simp [h]

theorem length_encodeFile (c : Nat) (f : ImageFile) :
    c + (encodeFile c f).length = (imageRec c f).base + f.data.length := by
  unfold encodeFile imageRec contentsAt
  simp only [List.length_append, List.length_replicate, length_leBytes, List.length_cons,
    List.length_nil]
  have : c + f.name.bytes.length + 1 ≤ alignUp (c + f.name.bytes.length + 1) := by
    unfold alignUp
    omega
  simp
  omega

/-- One pass of the loop appends the bytes of the file. -/
theorem mkfsFile_eq (f : ImageFile) (s : MkfsState) (hs : s.bytecnt = s.out.length)
    (hlen : f.data.length < 2 ^ 31) :
    mkfsFile f.name.bytes f.data s
      = some ⟨s.bytecnt + (encodeFile s.bytecnt f).length, s.out ++ encodeFile s.bytecnt f⟩ := by
  have hpad : alignUp (s.bytecnt + f.name.bytes.length + 1)
      - (s.bytecnt + f.name.bytes.length + 1) ≤ MKFS_ALIGNMENT := by
    unfold alignUp MKFS_ALIGNMENT
    omega
  unfold mkfsFile packInt
  rw [if_pos hlen, Option.map_some]
  simp only [addString_eq, addData]
  rw [addPadding_eq _ _ hpad]
  simp only [length_encodeFile]
  simp only [imageRec, contentsAt, encodeFile, length_leBytes, Bool.false_eq_true, if_false,
    List.append_assoc]

theorem mkfsFiles_eq (files : List ImageFile) :
    ∀ (s : MkfsState), s.bytecnt = s.out.length →
      (∀ f ∈ files, f.name.bytes.length ≤ MKFS_MAXLEN ∧ f.data.length < 2 ^ 31) →
      mkfsFiles (hostFiles files) s
        = some ⟨s.bytecnt + (encodeFiles s.bytecnt files).length,
            s.out ++ encodeFiles s.bytecnt files⟩ := by
  induction files with
  | nil =>
    intro s _ _
    simp [hostFiles, mkfsFiles, encodeFiles]
  | cons f fs ih =>
    intro s hs hfiles
    have hf := hfiles f (by simp)
    have hrec := ih ⟨s.bytecnt + (encodeFile s.bytecnt f).length,
        s.out ++ encodeFile s.bytecnt f⟩ (by simp [hs]) (fun g hg => hfiles g (by simp [hg]))
    rw [hostFiles] at hrec ⊢
    rw [List.map_cons, mkfsFiles, if_neg (by omega)]
    simp only [mkfsFile_eq f s hs hf.2, Option.bind_some]
    rw [hrec]
    simp only [encodeFiles, List.length_append, List.append_assoc, Nat.add_assoc]

/-- The image of a list of files. -/
theorem mkfs_eq (files : List ImageFile)
    (hfiles : ∀ f ∈ files, f.name.bytes.length ≤ MKFS_MAXLEN ∧ f.data.length < 2 ^ 31) :
    mkfs (hostFiles files) = some (encodeFiles 0 files ++ [0xFF]) := by
  unfold mkfs
  rw [mkfsFiles_eq files ⟨0, []⟩ rfl hfiles]
  simp [addData]

/-! ### Reading the image -/

/-- A memory that holds the bytes of a file at `c` has its record there. -/
theorem recordAt_of_holds {pfs : FSDATA} {c : Nat} (hrom : pfs.flags.wo = false)
    (hlen : f.name.bytes.length ≤ DM_MAX_FNAME_LENGTH)
    (hhead : f.name.bytes.head? ≠ some WOFS_END_MARKER_CHAR) (hlt : (imageRec c f).base < 2 ^ 32)
    (hsize : f.data.length < 2 ^ 32) (hm : pfs.medium.bytes.Holds c (encodeFile c f)) :
    RecordAt pfs c (imageRec c f) := by
  unfold encodeFile at hm
  rw [Mem.holds_append, Mem.holds_append, Mem.holds_append] at hm
  obtain ⟨⟨⟨hname, -⟩, hsz⟩, hdata⟩ := hm
  simp only [List.length_append, List.length_replicate, length_leBytes, List.length_cons,
    List.length_nil] at hsz hdata
  have hle : c + f.name.bytes.length + 1 ≤ alignUp (c + f.name.bytes.length + 1) := by
    unfold alignUp
    omega
  have hbase : (imageRec c f).base = alignUp (c + f.name.bytes.length + 1) + 4 := rfl
  -- The padding ends where the size starts.
  have hpad : f.name.bytes.length + (0 + 1) + (alignUp (c + f.name.bytes.length + 1)
      - (c + f.name.bytes.length + 1)) = alignUp (c + f.name.bytes.length + 1) - c := by omega
  rw [hpad, show c + (alignUp (c + f.name.bytes.length + 1) - c) = (imageRec c f).base - 4 by
    omega] at hsz
  rw [hpad, show c + (alignUp (c + f.name.bytes.length + 1) - c + 4) = (imageRec c f).base by
    omega] at hdata
  refine ⟨hlen, f.name.nulFree, hhead, hname, ?_, ?_, hsz, fun _ => hdata, hlt, hsize⟩
  · rw [hrom]
    rfl
  · rw [hrom, if_neg (by decide)]
    exact ⟨rfl, rfl⟩

/-- A memory that holds the image carries the chain of its records. -/
theorem chain_of_holds {pfs : FSDATA} (hrom : pfs.flags.wo = false) (files : List ImageFile) :
    ∀ (c : Nat), (∀ f ∈ files, f.name.bytes.length ≤ DM_MAX_FNAME_LENGTH ∧
        f.name.bytes.head? ≠ some WOFS_END_MARKER_CHAR) →
      c + (encodeFiles c files).length < 2 ^ 32 →
      pfs.medium.bytes.Holds c (encodeFiles c files) →
      Chain pfs c (imageRecs c files) (c + (encodeFiles c files).length) := by
  induction files with
  | nil =>
    intro c _ _ _
    exact .nil c
  | cons f fs ih =>
    intro c hfiles hlt hm
    rw [encodeFiles, Mem.holds_append] at hm
    rw [encodeFiles, List.length_append, ← Nat.add_assoc] at hlt ⊢
    have hend := length_encodeFile c f
    have hf := hfiles f (by simp)
    have hrec : RecordAt pfs c (imageRec c f) :=
      recordAt_of_holds hrom hf.1 hf.2 (by omega) (by omega) hm.1
    have hnext : (imageRec c f).next pfs.flags.wo = c + (encodeFile c f).length := by
      rw [hrom, hend]
      rfl
    have htail := ih (c + (encodeFile c f).length) (fun g hg => hfiles g (by simp [hg])) hlt hm.2
    rw [imageRecs]
    have hroom : (imageRec c f).Room pfs.flags.wo := by
      rw [hrom]
      show (imageRec c f).base + f.data.length + 0 < 2 ^ 32
      omega
    exact .cons hrec hroom (by rw [hnext]; exact htail)

theorem imageRecs_map_dirent (files : List ImageFile) :
    ∀ c, ((imageRecs c files).filter (fun r => !r.deleted)).map FileRec.dirent
      = files.map fun f => ⟨f.name.bytes, f.data.length⟩ := by
  induction files with
  | nil => intro c; rfl
  | cons f fs ih =>
    intro c
    rw [imageRecs, List.filter_cons_of_pos (by rfl), List.map_cons, List.map_cons, ih]
    rfl

theorem mem_imageRecs {r : FileRec} (files : List ImageFile) :
    ∀ c, r ∈ imageRecs c files → ∃ f ∈ files, ∃ c', r = imageRec c' f := by
  induction files with
  | nil => intro c h; simp [imageRecs] at h
  | cons f fs ih =>
    intro c h
    rw [imageRecs, List.mem_cons] at h
    rcases h with h | h
    · exact ⟨f, by simp, c, h⟩
    · obtain ⟨g, hg, c', hr⟩ := ih _ h
      exact ⟨g, by simp [hg], c', hr⟩

/-- With distinct names, the scan for a name of the list stops at the record of that file. -/
theorem find_imageRecs {name : List UInt8} (files : List ImageFile) :
    ∀ c, (∀ g ∈ files, g.name.bytes.length ≤ DM_MAX_FNAME_LENGTH) →
      files.Pairwise (fun g g' => lower g.name.bytes ≠ lower g'.name.bytes) → f ∈ files →
      lower name = lower f.name.bytes →
      ∃ c', (imageRecs c files).find? (FileRec.isHit name) = some (imageRec c' f) := by
  induction files with
  | nil => intro c _ _ h; simp at h
  | cons g gs ih =>
    intro c hlen hdist hf hname
    have hflen := hlen f hf
    have hnlen : name.length ≤ DM_MAX_FNAME_LENGTH := by
      have := congrArg List.length hname
      rw [length_lower, length_lower] at this
      omega
    rw [List.pairwise_cons] at hdist
    have hhit : (imageRec c g).isHit name = true ↔ _ := FileRec.isHit_iff (hlen g (by simp))
    rw [List.take_of_length_le hnlen, hname] at hhit
    by_cases hg : lower f.name.bytes = lower g.name.bytes
    · have hfg : f = g := by
        rcases List.mem_cons.mp hf with h | h
        · exact h
        · exact absurd hg.symm (hdist.1 f h)
      subst hfg
      exact ⟨c, by rw [imageRecs, List.find?_cons_of_pos (hhit.mpr ⟨rfl, rfl⟩)]⟩
    · have hmem : f ∈ gs := by
        rcases List.mem_cons.mp hf with h | h
        · exact absurd (by rw [h]) hg
        · exact h
      rw [imageRecs, List.find?_cons_of_neg (fun h => hg (hhit.mp h).1)]
      exact ih _ (fun g' hg' => hlen g' (by simp [hg'])) hdist.2 hmem hname

/-! ### The round trip -/

/-- The file lists `mkfs.lua` is made for. -/
structure AcceptedFiles (files : List ImageFile) : Prop where
  storable : ∀ f ∈ files, StorableName f.name
  distinct : files.Pairwise fun f g => lower f.name.bytes ≠ lower g.name.bytes
  length_lt : ∀ f ∈ files, f.data.length < 2 ^ 31

/-- The firmware reads the image of `files` back from memory `m`; `Absent` says which names are
not in the list. -/
structure ReadsBack (Absent : List ImageFile → CStr → Prop) (files : List ImageFile)
    (image : List UInt8) (m : Mem) : Prop where
  /-- Every file is found under its name in any letter case, with its size and contents, at a
  multiple of 4 inside the image. -/
  found : ∀ f ∈ files, ∀ name : CStr, lower name.bytes = lower f.name.bytes →
    ∃ base na, romfsOpenFile name.bytes (romfsFsdata m image.length)
        = some (.ok base f.data.length na) ∧
      base % 4 = 0 ∧ base + f.data.length < image.length ∧ m.Holds base f.data
  /-- A directory iteration reports the files in the order of the list. -/
  listed : Lists (romfsInit (romfsFsdata m image.length))
    (files.map fun f => ⟨f.name.bytes, f.data.length⟩)
  /-- Another name is not found, and the scan has stopped inside the image. -/
  absent : ∀ name : CStr, Absent files name → ∃ k,
    romfsOpenFile name.bytes (romfsFsdata m image.length) = some (.notFound k) ∧ k < image.length

/-- The name is not in the list, up to case. -/
def NotListed (files : List ImageFile) (name : CStr) : Prop :=
  ∀ f ∈ files, lower name.bytes ≠ lower f.name.bytes

/-- The first 30 bytes of the name are not in the list, up to case. -/
def NotListedUpTo30 (files : List ImageFile) (name : CStr) : Prop :=
  ∀ f ∈ files, lower (name.bytes.take DM_MAX_FNAME_LENGTH) ≠ lower f.name.bytes

/-- **Images**: the firmware reads back every image of at most `2 ^
32` bytes, whatever stands behind it in memory: each file of the list
with its size and contents, no file under any other name, and the list
as the directory. -/
theorem mkfs_reads_back (files : List ImageFile) (hfiles : AcceptedFiles files) :
    ∃ image, mkfs (hostFiles files) = some image ∧
      (image.length ≤ 2 ^ 32 → ∀ m : Mem, m.Holds 0 image →
        ReadsBack NotListedUpTo30 files image m) := by
  have hshort : ∀ f ∈ files, f.name.bytes.length ≤ DM_MAX_FNAME_LENGTH :=
    fun f hf => (hfiles.storable f hf).length_le
  refine ⟨_, mkfs_eq files fun f hf => ⟨hshort f hf, hfiles.length_lt f hf⟩, ?_⟩
  intro hlen m hm
  rw [List.length_append, List.length_singleton] at hlen
  rw [Mem.holds_append, Mem.holds_cons, Nat.zero_add] at hm
  -- The instance carries the chain of the records, and the end marker stands behind it.
  have hchain : Chain (romfsFsdata m (encodeFiles 0 files ++ [0xFF]).length) 0
      (imageRecs 0 files) (encodeFiles 0 files).length := by
    have hrom : (romfsFsdata m (encodeFiles 0 files ++ [0xFF]).length).flags.wo = false := rfl
    have h := chain_of_holds hrom files 0
      (fun f hf => ⟨hshort f hf, (hfiles.storable f hf).head⟩) (by omega) hm.1
    rwa [Nat.zero_add] at h
  have hend : romfshRead8 (encodeFiles 0 files).length
      (romfsFsdata m (encodeFiles 0 files ++ [0xFF]).length) = WOFS_END_MARKER_CHAR := hm.2.1
  refine ⟨?_, ?_, ?_⟩
  · intro f hf name hname
    obtain ⟨c', hfind⟩ := find_imageRecs files 0 hshort hfiles.distinct hf hname
    obtain ⟨na, hopen⟩ := romfsOpenFile_of_find hchain hfind
    obtain ⟨j, -, hrec, hle⟩ := hchain.recordAt (List.mem_of_find?_eq_some hfind)
    refine ⟨(imageRec c' f).base, na, hopen, hrec.name_lt_base.2, ?_, hrec.contents rfl⟩
    rw [List.length_append, List.length_singleton]
    exact Nat.lt_succ_of_le hle
  · rw [← imageRecs_map_dirent files 0]
    exact lists_of_chain _ _ _ (Nat.le_refl _) hchain (show 0 < 2 ^ 32 by decide) hend
  · intro name hname
    have hnone : (imageRecs 0 files).find? (FileRec.isHit name.bytes) = none := by
      rw [List.find?_eq_none]
      intro r hr hhit
      obtain ⟨f, hf, c', rfl⟩ := mem_imageRecs files 0 hr
      exact hname f hf ((FileRec.isHit_iff (r := imageRec c' f) (hshort f hf)).mp hhit).1
    refine ⟨_, romfsOpenFile_of_end hchain hend hnone, ?_⟩
    rw [List.length_append, List.length_singleton]
    omega

/-- The hypotheses of `mkfs_reads_back` hold of two files, a name of
odd length and an empty one, in a memory that is zero behind the
image. -/
theorem mkfs_reads_back_two :
    ReadsBack NotListedUpTo30 [⟨⟨[97], by decide⟩, [1, 2, 3]⟩, ⟨⟨[66, 50, 51], by decide⟩, []⟩]
      [97, 0, 0, 0, 3, 0, 0, 0, 1, 2, 3, 66, 50, 51, 0, 0, 0, 0, 0, 0, 0xFF]
      (Mem.store (fun _ => 0) 0
        [97, 0, 0, 0, 3, 0, 0, 0, 1, 2, 3, 66, 50, 51, 0, 0, 0, 0, 0, 0, 0xFF]) := by
  obtain ⟨image, himage, hread⟩ := mkfs_reads_back
    [⟨⟨[97], by decide⟩, [1, 2, 3]⟩, ⟨⟨[66, 50, 51], by decide⟩, []⟩]
    ⟨by simp only [List.forall_mem_cons, List.not_mem_nil, false_implies, implies_true, and_true]
        exact ⟨⟨by decide, by decide, by decide, by decide⟩, by decide, by decide, by decide,
          by decide⟩,
      by decide, by decide⟩
  have hdec : mkfs (hostFiles [⟨⟨[97], by decide⟩, [1, 2, 3]⟩, ⟨⟨[66, 50, 51], by decide⟩, []⟩])
      = some [97, 0, 0, 0, 3, 0, 0, 0, 1, 2, 3, 66, 50, 51, 0, 0, 0, 0, 0, 0, 0xFF] := by
    decide
  rw [hdec, Option.some.injEq] at himage
  subst himage
  exact hread (by decide) _ (Mem.holds_store_self _ _ _)

/-! ### Where the format has its limits -/

/-- Three files of which the second ends behind `2 ^ 32`: the scan for the third wraps around into
the contents of the first. -/
def wrapFiles (da db : List UInt8) : List ImageFile :=
  [⟨⟨[97], by decide⟩, da⟩, ⟨⟨[98], by decide⟩, db⟩, ⟨⟨[99], by decide⟩, []⟩]

/-- The scan steps over a file with another name, in 32-bit arithmetic. -/
theorem openFileBody_imageRec {m : Mem} {n c : Nat} {name : List UInt8}
    (h : RecordAt (romfsFsdata m n) c (imageRec c f))
    (hne : strncasecmpEq name f.name.bytes DM_MAX_FNAME_LENGTH = false) :
    romfsOpenFileBody name (romfsFsdata m n) c
      = .inr (u32 (contentsAt false c f.name.bytes.length + f.data.length)) := by
  have hhit : (imageRec c f).isHit name = false := by
    unfold FileRec.isHit imageRec
    rw [hne, Bool.false_and]
  rw [romfsOpenFileBody_of_record h, hhit, if_neg (by decide)]
  rfl

/-- With contents of `2 ^ 31 - 1` bytes each, the scan is back at offset 15 after the second
record, and stops there on a byte of the first file. -/
theorem openFile_wrapFiles {m : Mem} {n : Nat} {da db : List UInt8} (hda : da.length = 2 ^ 31 - 1)
    (hdb : db.length = 2 ^ 31 - 1) (hff : da[7]? = some 0xFF)
    (hm : m.Holds 0 (encodeFiles 0 (wrapFiles da db) ++ [0xFF])) :
    romfsOpenFile [99] (romfsFsdata m n) = some (.notFound 15) := by
  simp only [wrapFiles, encodeFiles, Mem.holds_append] at hm
  obtain ⟨⟨ha, hb, -⟩, -⟩ := hm
  have hbaseA : contentsAt false 0 1 = 8 := by decide
  have hbaseB : contentsAt false 2147483655 1 = 2147483664 := by decide
  have hlenA := length_encodeFile 0 ⟨⟨[97], by decide⟩, da⟩
  rw [Nat.zero_add] at hlenA
  rw [Nat.zero_add, hlenA, show (imageRec 0 ⟨⟨[97], by decide⟩, da⟩).base = 8 from hbaseA,
    show 8 + da.length = 2147483655 by omega] at hb
  have hrecA : RecordAt (romfsFsdata m n) 0 (imageRec 0 ⟨⟨[97], by decide⟩, da⟩) :=
    recordAt_of_holds rfl (show [97].length ≤ _ by decide)
      (show [97].head? ≠ some WOFS_END_MARKER_CHAR by decide)
      (show contentsAt false 0 1 < 2 ^ 32 by decide) (show da.length < 2 ^ 32 by omega) ha
  have hrecB :
      RecordAt (romfsFsdata m n) 2147483655 (imageRec 2147483655 ⟨⟨[98], by decide⟩, db⟩) :=
    recordAt_of_holds rfl (show [98].length ≤ _ by decide)
      (show [98].head? ≠ some WOFS_END_MARKER_CHAR by decide)
      (show contentsAt false 2147483655 1 < 2 ^ 32 by decide) (show db.length < 2 ^ 32 by omega) hb
  -- The byte at offset 15 is the eighth of the first file.
  have h15 : m 15 = 0xFF := by
    have hdata : m.Holds (contentsAt false 0 1) da := hrecA.contents rfl
    rw [hbaseA] at hdata
    have hc := (Mem.holds_iff_getElem m 8 da).mp hdata 7 (by omega)
    rw [List.getElem?_eq_getElem (show 7 < da.length by omega), Option.some.injEq] at hff
    rw [List.get_eq_getElem] at hc
    exact hc.trans hff
  have hstep1 : romfsOpenFileBody [99] (romfsFsdata m n) 0 = .inr 2147483655 := by
    rw [openFileBody_imageRec hrecA (show strncasecmpEq [99] [97] _ = false by decide)]
    show Sum.inr (u32 (contentsAt false 0 1 + da.length)) = _
    rw [hbaseA, hda]
    rfl
  have hstep2 : romfsOpenFileBody [99] (romfsFsdata m n) 2147483655 = .inr 15 := by
    rw [openFileBody_imageRec hrecB (show strncasecmpEq [99] [98] _ = false by decide)]
    show Sum.inr (u32 (contentsAt false 2147483655 1 + db.length)) = _
    rw [hbaseB, hdb]
    rfl
  have hstep3 : romfsOpenFileBody [99] (romfsFsdata m n) 15 = .inl (.notFound 15) := by
    rw [romfsOpenFileBody, if_pos (show romfshRead8 15 (romfsFsdata m n) = WOFS_END_MARKER_CHAR
      from h15)]
  refine run_u32_of_run (n := 3) (fun _ _ => romfsOpenFileBody_lt) (by decide) ?_
  rw [Loop.run_succ_of_inr hstep1, Loop.run_succ_of_inr hstep2, Loop.run_succ_of_inl hstep3]

/-- Neither limit of `mkfs_reads_back` can go. A name of 31 bytes is found when its first 30 are in
the list. And the last of three files is not found behind `2 ^ 32` bytes of contents. -/
theorem mkfs_not_reads_back :
    (∃ files image m, AcceptedFiles files ∧ mkfs (hostFiles files) = some image ∧
      image.length ≤ 2 ^ 32 ∧ m.Holds 0 image ∧ ¬ ReadsBack NotListed files image m) ∧
    (∃ files image m, AcceptedFiles files ∧ mkfs (hostFiles files) = some image ∧
      m.Holds 0 image ∧ ¬ ReadsBack NotListedUpTo30 files image m) := by
  constructor
  · refine ⟨[⟨⟨List.replicate 30 97, by decide⟩, []⟩],
      List.replicate 30 97 ++ [0, 0, 0, 0, 0, 0, 0xFF],
      Mem.store (fun _ => 0) 0 (List.replicate 30 97 ++ [0, 0, 0, 0, 0, 0, 0xFF]),
      ⟨?_, by simp, ?_⟩, by decide, by decide, Mem.holds_store_self _ _ _, ?_⟩
    · intro f hf
      rw [List.mem_singleton] at hf
      subst hf
      exact ⟨by decide, by decide, by decide, by decide⟩
    · intro f hf
      rw [List.mem_singleton] at hf
      subst hf
      decide
    · intro h
      obtain ⟨k, hk, -⟩ := h.absent ⟨List.replicate 31 97, by decide⟩ (by
        intro f hf
        rw [List.mem_singleton] at hf
        subst hf
        decide)
      have hfound : romfsOpenFile (List.replicate 31 97)
          (romfsFsdata (Mem.store (fun _ => 0) 0
            (List.replicate 30 97 ++ [0, 0, 0, 0, 0, 0, 0xFF])) 37) = some (.ok 36 0 0) := by
        decide
      rw [show (List.replicate 30 97 ++ [0, 0, 0, 0, 0, 0, 0xFF] : List UInt8).length = 37 from rfl,
        hfound] at hk
      exact absurd hk (by simp)
  · -- Contents of the largest length, the eighth byte of the first file the end marker.
    obtain ⟨da, hda, hff⟩ : ∃ da : List UInt8, da.length = 2 ^ 31 - 1 ∧ da[7]? = some 0xFF := by
      refine ⟨[0, 0, 0, 0, 0, 0, 0, 0xFF] ++ List.replicate (2 ^ 31 - 9) 0, ?_, rfl⟩
      rw [List.length_append, List.length_replicate]
      rfl
    obtain ⟨db, hdb⟩ : ∃ db : List UInt8, db.length = 2 ^ 31 - 1 :=
      ⟨List.replicate (2 ^ 31 - 1) 0, List.length_replicate⟩
    have hacc : AcceptedFiles (wrapFiles da db) := by
      refine ⟨?_, ?_, ?_⟩
      · intro f hf
        simp only [wrapFiles, List.mem_cons, List.not_mem_nil, or_false] at hf
        rcases hf with rfl | rfl | rfl
        · show StorableName ⟨[97], _⟩
          exact ⟨by decide, by decide, by decide, by decide⟩
        · show StorableName ⟨[98], _⟩
          exact ⟨by decide, by decide, by decide, by decide⟩
        · exact ⟨by decide, by decide, by decide, by decide⟩
      · refine (List.pairwise_map (f := fun f : ImageFile => lower f.name.bytes)
          (R := fun a b => a ≠ b)).mp ?_
        show List.Pairwise _ [lower [97], lower [98], lower [99]]
        decide
      · intro f hf
        simp only [wrapFiles, List.mem_cons, List.not_mem_nil, or_false] at hf
        rcases hf with rfl | rfl | rfl
        · show da.length < 2 ^ 31
          omega
        · show db.length < 2 ^ 31
          omega
        · decide
    refine ⟨wrapFiles da db, _, Mem.store (fun _ => 0) 0 _, hacc, mkfs_eq _ (fun f hf =>
      ⟨(hacc.storable f hf).length_le, hacc.length_lt f hf⟩), Mem.holds_store_self _ _ _, ?_⟩
    intro h
    obtain ⟨base, na, hopen, -⟩ := h.found ⟨⟨[99], by decide⟩, []⟩ (by simp [wrapFiles])
      ⟨[99], by decide⟩ rfl
    rw [openFile_wrapFiles hda hdb hff (Mem.holds_store_self _ _ _)] at hopen
    exact absurd hopen (by simp)

end Alcor.Proofs.Romfs
