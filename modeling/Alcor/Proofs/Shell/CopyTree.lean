import Alcor.Proofs.Shell.Destination

/-!
# `Alcor.Proofs.Shell.CopyTree`: what the callback of `cp -R` and `mv -R` keeps

What `shellh_cp_walkdir_cb` does where the walk does not come to what it
makes (`Clear`), as far as it goes down the tree. The invariant on the
calls so far has two parts:

* `Listing`: a directory that the walk enters has the entries that match
  until the first call for it, and the directories for as long as the
  walk may read it a second time;
* `Contents`: the destination of a file that a call was for has what the
  file had at the start, the file is there after a copy and gone after a
  move, and the other files of the disk are as they were.

Every call of the callback keeps both (`keeps_progress`). Where
`shellh_cp_file` takes the two names for those of one file, no call
changes a file (`keeps_refused`), and where a directory is copied or
moved to itself it stays as it is (`keeps_self`).
-/

set_option autoImplicit false

namespace Alcor.Proofs.Shell

open Alcor.Shell

variable {q q' : Path} {dir dir' : Dir} {e ent e' : Dirent}

/-- A tree at a path of a file system, and the path of a directory to
copy it to, both in normal form. At the place of a file there is no
directory, and at that of a directory there is no file. -/
structure Source (st : Disk) (src dst : Path) (tree : Dir) : Prop where
  normal : Normal src
  normal_dst : Normal dst
  distinct : tree.Distinct
  dirs : ∀ q dir, InTree src tree q dir → st.dir q = some dir.entries
  files : ∀ q dir e, InTree src tree q dir → e ∈ dir.entries → e.isDir = false →
    ∃ c, st.file (child q e.fname) = some c
  no_dir : ∀ q dir e, InTree src tree q dir → e ∈ dir.entries → e.isDir = false →
    st.dir (destOf src dst (child q e.fname)) = none
  no_file : ∀ q dir, InTree src tree q dir → st.file (destOf src dst q) = none

/-- The walk of a tree does not come to what it makes: no directory that
it enters is where one of them goes, and if the first of them is new in
a directory that the walk enters, it does not go down from there. -/
structure Clear (pattern : Path) (hasdirs : Path → Bool) (st : Disk) (src dst : Path)
    (tree : Dir) : Prop where
  apart : ∀ {q q' : Path} {dir dir' : Dir}, Reached pattern true hasdirs src tree q dir →
    Reached pattern true hasdirs src tree q' dir' → q ≠ destOf src dst q'
  stays : st.dir (destRoot src dst) = none → ∀ {dir : Dir},
    Reached pattern true hasdirs src tree dst dir →
      goesDown pattern true hasdirs dst dir = false ∧
        (dst = src ∨ cmnPatternMatches (lastName src) pattern = false)

section
variable {pattern : Path} {hasdirs : Path → Bool} {st : Disk} {src dst : Path} {tree : Dir}

/-! ### The tree -/

/-- A name is in one entry of a directory of the tree. -/
theorem Source.entry_unique (h : Source st src dst tree) (hin : InTree src tree q dir)
    (hin' : InTree src tree q dir') (he : e ∈ dir.entries) (he' : e' ∈ dir'.entries)
    (hname : e.fname = e'.fname) : e = e' := by
  have hentries : dir.entries = dir'.entries :=
    Option.some.inj ((h.dirs q dir hin).symm.trans (h.dirs q dir' hin'))
  rw [← hentries] at he'
  exact List.inj_on_of_nodup_map (nodup_entries (hin.distinct h.distinct)) he he' hname

/-- Entries of the tree with one path are one. -/
theorem Source.child_unique (h : Source st src dst tree) (hin : InTree src tree q dir)
    (hin' : InTree src tree q' dir') (he : e ∈ dir.entries) (he' : e' ∈ dir'.entries)
    (heq : child q e.fname = child q' e'.fname) : q = q' ∧ e = e' := by
  obtain ⟨name, hname⟩ := name_of_mem_entries he
  obtain ⟨name', hname'⟩ := name_of_mem_entries he'
  rw [hname, hname'] at heq
  obtain ⟨rfl, hpath⟩ := child_injective heq
  exact ⟨rfl, h.entry_unique hin hin' he he' (by rw [hname, hname', hpath])⟩

/-- No directory of the tree has the path of a file of it. -/
theorem Source.ne_file (h : Source st src dst tree) (hin : InTree src tree q dir)
    (hin' : InTree src tree q' dir') (he : e ∈ dir'.entries) (hfile : e.isDir = false) :
    q ≠ child q' e.fname := by
  intro heq
  cases hin with
  | top => exact not_under_of_child q' e.fname (heq ▸ hin'.under)
  | @down q'' dir'' p h'' hp =>
    have hsub : subEntry p ∈ dir''.entries := by
      have hmem : subEntry p ∈ dir''.entries.filter Dirent.isDir := by
        rw [filter_isDir_entries]
        exact List.mem_map.mpr ⟨p, hp, rfl⟩
      exact List.mem_of_mem_filter hmem
    obtain ⟨-, hent⟩ := h.child_unique h'' hin' hsub he heq
    rw [← hent] at hfile
    cases hfile

/-- The directory that the one of a directory is made in. -/
theorem Reached.parent_destOf (dst : Path) (h : Reached pattern true hasdirs src tree q dir) :
    q = src ∧ parent (destOf src dst q) = dst ∨
      ∃ q' dir', Reached pattern true hasdirs src tree q' dir' ∧
        parent (destOf src dst q) = destOf src dst q' := by
  cases h with
  | top =>
    refine .inl ⟨rfl, ?_⟩
    rw [destOf_src, parent_destRoot]
  | @down q' dir' p h' hgo hp =>
    refine .inr ⟨q', dir', h', ?_⟩
    rw [destOf_child h'.inTree.under, parent_child _ p.1.no_slash]

theorem Reached.device (h : Reached pattern true hasdirs src tree q dir) (hsrc : Normal src)
    (dst : Path) :
    Shell.device q = Shell.device src ∧
      Shell.device (destOf src dst q) = Shell.device (destRoot src dst) := by
  induction h with
  | top => exact ⟨rfl, by rw [destOf_src]⟩
  | @down q' dir' p h' _ _ ih =>
    have hne : destOf src dst q' ≠ [] := by
      unfold destOf destRoot child
      simp
    rw [destOf_child h'.inTree.under, device_child (h'.inTree.normal hsrc).ne_nil,
      device_child hne]
    exact ih

/-! ### The directories -/

/-- The directories after some calls, those that the walk enters and
those that it has made. -/
structure Listing (pattern : Path) (hasdirs : Path → Bool) (st : Disk) (src dst : Path)
    (tree : Dir) (calls : List Call) (s : Disk) : Prop where
  root : s.dir (destRoot src dst) = none → st.dir (destRoot src dst) = none
  made : ∀ p, s.dir p ≠ none → st.dir p ≠ none ∨
    ∃ q dir, Reached pattern true hasdirs src tree q dir ∧ p = destOf src dst q
  listed : ∀ q dir, Reached pattern true hasdirs src tree q dir → ∃ l, s.dir q = some l ∧
    l.length ≤ dir.entries.length + 1 ∧
    (s.dir (destRoot src dst) = none → l.length ≤ dir.entries.length) ∧
    ((∀ c ∈ calls, c.path ≠ q) → (l.filter fun e => cmnPatternMatches e.fname pattern) =
      dir.entries.filter fun e => cmnPatternMatches e.fname pattern) ∧
    (goesDown pattern true hasdirs q dir = true →
      l.filter Dirent.isDir = dir.entries.filter Dirent.isDir)

section
variable {fails : Nat → Bool} {move : Bool} {calls : List Call} {s t : Disk}

/-- At the start there are the directories of the tree. -/
theorem Source.listing (h : Source st src dst tree) (hdir : s.dir = st.dir) :
    Listing pattern hasdirs st src dst tree [] s where
  root hnone := by rwa [hdir] at hnone
  made p hp := .inl (by rwa [hdir] at hp)
  listed q dir hin := by
    refine ⟨dir.entries, (congrFun hdir q).trans (h.dirs q dir hin.inTree), Nat.le_succ _,
      fun _ => Nat.le_refl _, fun _ => rfl, fun _ => rfl⟩

theorem Listing.congr (h : Listing pattern hasdirs st src dst tree calls s)
    (hdir : t.dir = s.dir) : Listing pattern hasdirs st src dst tree calls t where
  root := by
    rw [hdir]
    exact h.root
  made := by
    rw [hdir]
    exact h.made
  listed := by
    rw [hdir]
    exact h.listed

/-- A call that changes no directory. -/
theorem Listing.append (h : Listing pattern hasdirs st src dst tree calls s)
    (more : List Call) : Listing pattern hasdirs st src dst tree (calls ++ more) s where
  root := h.root
  made := h.made
  listed q dir hin := by
    obtain ⟨l, hl, hlen, hroot, hfirst, hagain⟩ := h.listed q dir hin
    exact ⟨l, hl, hlen, hroot,
      fun hnone => hfirst fun c hc => hnone c (List.mem_append_left _ hc), hagain⟩

/-- A directory of the destination is made. Only the first can be new in
a directory that the walk enters, which then has been opened, or has no
more entries that match than before. -/
theorem Listing.make (hclear : Clear pattern hasdirs st src dst tree)
    (h : Listing pattern hasdirs st src dst tree calls s)
    (hin : Reached pattern true hasdirs src tree q dir) (hnone : s.dir (destOf src dst q) = none) :
    Listing pattern hasdirs st src dst tree (calls ++ [⟨q, none, .BEFORE_READDIR⟩])
      (s.make (destOf src dst q)) := by
  have hdir := dir_make s (destOf src dst q)
  have hiff : ∀ p, p ≠ destOf src dst q →
      ((s.make (destOf src dst q)).dir p = none ↔ s.dir p = none) := by
    intro p hp
    rw [hdir, if_neg hp]
    split
    · exact Option.map_eq_none_iff
    · rfl
  refine ⟨fun hroot => ?_, fun p hp => ?_, fun q' dir' hin' => ?_⟩
  · refine h.root ((hiff _ fun heq => ?_).mp hroot)
    rw [hdir, if_pos heq] at hroot
    cases hroot
  · by_cases heq : p = destOf src dst q
    · exact .inr ⟨q, dir, hin, heq⟩
    · exact h.made p fun hno => hp ((hiff p heq).mpr hno)
  obtain ⟨l, hl, hlen, hroot, hfirst, hagain⟩ := h.listed q' dir' hin'
  have hne : q' ≠ destOf src dst q := hclear.apart hin' hin
  by_cases hparent : q' = parent (destOf src dst q)
  · -- the new directory is in one that the walk enters: it is the first one
    rcases hin.parent_destOf dst with ⟨rfl, hdst⟩ | ⟨q'', dir'', hin'', hparent'⟩
    · rw [hdst] at hparent
      subst hparent
      rw [destOf_src] at hnone hdir
      obtain ⟨hgo, hmatch⟩ := hclear.stays (h.root hnone) hin'
      have hname : lastName (destRoot q q') = lastName q :=
        lastName_child q' (slash_notMem_lastName q)
      refine ⟨l ++ [{ fname := lastName q, isDir := true }], ?_, ?_, fun hno => ?_,
        fun hfresh => ?_, fun hyes => ?_⟩
      · rw [destOf_src, hdir, if_neg (by rwa [destOf_src] at hne), parent_destRoot, if_pos rfl,
          hl, hname]
        rfl
      · have hle := hroot hnone
        rw [List.length_append, List.length_singleton]
        omega
      · rw [destOf_src, hdir, if_pos rfl] at hno
        cases hno
      · have hold := hfirst fun c hc => hfresh c (List.mem_append_left _ hc)
        rcases hmatch with rfl | hmatch
        · exact absurd rfl (hfresh _ (List.mem_append_right _ List.mem_cons_self))
        · rw [List.filter_append, hold, List.filter_singleton, hmatch]
          simp
      · rw [hgo] at hyes
        cases hyes
    · rw [hparent'] at hparent
      exact absurd hparent (hclear.apart hin' hin'')
  · have hsame : (s.make (destOf src dst q)).dir q' = s.dir q' := by
      rw [hdir, if_neg hne, if_neg hparent]
    refine ⟨l, hsame.trans hl, hlen, fun hno => hroot ?_,
      fun hfresh => hfirst fun c hc => hfresh c (List.mem_append_left _ hc), hagain⟩
    by_cases heq : destRoot src dst = destOf src dst q
    · rw [hdir, if_pos heq] at hno
      cases hno
    · exact (hiff _ heq).mp hno

/-- A file goes from a directory that the walk enters to one that it does
not enter. -/
theorem Listing.transferred (hclear : Clear pattern hasdirs st src dst tree)
    (h : Listing pattern hasdirs st src dst tree calls s) {name : Name}
    (hin : Reached pattern true hasdirs src tree q dir)
    (htrans : Transferred fails move (child q name.path) (destOf src dst (child q name.path)) s t)
    (more : List Call) (hmore : ∃ c ∈ more, c.path = q) :
    Listing pattern hasdirs st src dst tree (calls ++ more) t := by
  have hiff : ∀ p, t.dir p = none ↔ s.dir p = none := by
    intro p
    rw [← Option.map_eq_none_iff (f := List.filter Dirent.isDir), htrans.entries.dirs,
      Option.map_eq_none_iff]
  have hfrom : parent (child q name.path) = q := parent_child q name.no_slash
  have hto : parent (destOf src dst (child q name.path)) = destOf src dst q := by
    rw [destOf_child hin.inTree.under, parent_child _ name.no_slash]
  refine ⟨fun hroot => h.root ((hiff _).mp hroot),
    fun p hp => h.made p fun hno => hp ((hiff p).mpr hno), fun q' dir' hin' => ?_⟩
  obtain ⟨l, hl, hlen, hroot, hfirst, hagain⟩ := h.listed q' dir' hin'
  by_cases heq : q' = q
  · -- a move takes the entry out, and the call is one for the directory
    subst heq
    obtain ⟨l', hl', hlen', hfilter⟩ := htrans.source
      (by rw [hfrom, hto]; exact hclear.apart hin hin) l (by rw [hfrom]; exact hl)
    rw [hfrom] at hl'
    refine ⟨l', hl', hlen'.trans hlen, fun hno => hlen'.trans (hroot ((hiff _).mp hno)),
      fun hfresh => ?_, fun hgo => hfilter.trans (hagain hgo)⟩
    obtain ⟨c, hc, hpath⟩ := hmore
    exact absurd hpath (hfresh c (List.mem_append_right _ hc))
  · have hsame : t.dir q' = s.dir q' :=
      htrans.dir q' (by rwa [hfrom]) (by rw [hto]; exact hclear.apart hin' hin)
    exact ⟨l, hsame.trans hl, hlen, fun hno => hroot ((hiff _).mp hno),
      fun hfresh => hfirst fun c hc => hfresh c (List.mem_append_left _ hc), hagain⟩

/-- There is no directory where a file of the tree goes. -/
theorem Listing.no_dir (hst : Source st src dst tree)
    (h : Listing pattern hasdirs st src dst tree calls s)
    (hin : Reached pattern true hasdirs src tree q dir) (he : e ∈ dir.entries)
    (hfile : e.isDir = false) : s.dir (destOf src dst (child q e.fname)) = none := by
  by_contra hne
  rcases h.made _ hne with hold | ⟨q', dir', hin', heq⟩
  · exact hold (hst.no_dir q dir e hin.inTree he hfile)
  · have hunder := hin.inTree.under.trans (under_child q e.fname)
    exact hst.ne_file hin'.inTree hin.inTree he hfile
      (destOf_injective hunder hin'.inTree.under heq).symm

/-! ### The files -/

/-- The files after some calls. -/
structure Contents (pattern : Path) (hasdirs : Path → Bool) (fails : Nat → Bool) (move : Bool)
    (st : Disk) (src dst : Path) (tree : Dir) (calls : List Call) (s : Disk) : Prop where
  known : ∀ q e, (q, e) ∈ visited calls →
    ∃ dir, Reached pattern true hasdirs src tree q dir ∧ e ∈ dir.entries
  other : ∀ p, (∀ q e, (q, e) ∈ visited calls → e.isDir = false →
    p ≠ child q e.fname ∧ p ≠ destOf src dst (child q e.fname)) → s.file p = st.file p
  kept : move = false → ∀ q e, (q, e) ∈ visited calls → e.isDir = false →
    s.file (child q e.fname) = st.file (child q e.fname)
  moved : AllSucceed fails → move = true → ∀ q e, (q, e) ∈ visited calls → e.isDir = false →
    s.file (child q e.fname) = none
  copied : AllSucceed fails → ∀ q e, (q, e) ∈ visited calls → e.isDir = false →
    s.file (destOf src dst (child q e.fname)) = st.file (child q e.fname)

theorem contents_nil (hfile : s.file = st.file) :
    Contents pattern hasdirs fails move st src dst tree [] s where
  known _ _ hv := nomatch hv
  other p _ := congrFun hfile p
  kept _ _ _ hv := nomatch hv
  moved _ _ _ _ hv := nomatch hv
  copied _ _ _ hv := nomatch hv

/-- A disk with the same files has the same contents. -/
theorem Contents.congr (h : Contents pattern hasdirs fails move st src dst tree calls s)
    (hfile : t.file = s.file) :
    Contents pattern hasdirs fails move st src dst tree calls t where
  known := h.known
  other := by
    rw [hfile]
    exact h.other
  kept := by
    rw [hfile]
    exact h.kept
  moved := by
    rw [hfile]
    exact h.moved
  copied := by
    rw [hfile]
    exact h.copied

/-- A call that is for no entry. -/
theorem Contents.none (h : Contents pattern hasdirs fails move st src dst tree calls s)
    (q : Path) (info : FsInfo) :
    Contents pattern hasdirs fails move st src dst tree (calls ++ [⟨q, none, info⟩]) s := by
  have hv : visited (calls ++ [⟨q, Option.none, info⟩]) = visited calls := by
    rw [visited_append, visited_single_none, List.append_nil]
  constructor
  · rw [hv]
    exact h.known
  · rw [hv]
    exact h.other
  · rw [hv]
    exact h.kept
  · rw [hv]
    exact h.moved
  · rw [hv]
    exact h.copied

theorem mem_visited_snoc :
    (q', e) ∈ visited (calls ++ [⟨q, some ent, .INSIDE_READDIR⟩]) ↔
      (q', e) ∈ visited calls ∨ q' = q ∧ e = ent := by
  rw [visited_append, visited_single_entry, List.mem_append, List.mem_singleton, Prod.mk.injEq]

theorem Contents.known_snoc (h : Contents pattern hasdirs fails move st src dst tree calls s)
    (hin : Reached pattern true hasdirs src tree q dir) (hent : ent ∈ dir.entries) (q' : Path)
    (e : Dirent) (hv : (q', e) ∈ visited (calls ++ [⟨q, some ent, .INSIDE_READDIR⟩])) :
    ∃ dir, Reached pattern true hasdirs src tree q' dir ∧ e ∈ dir.entries := by
  rcases mem_visited_snoc.mp hv with hv | ⟨rfl, rfl⟩
  · exact h.known q' e hv
  · exact ⟨dir, hin, hent⟩

/-- A call for a directory changes nothing. -/
theorem Contents.dirEntry (h : Contents pattern hasdirs fails move st src dst tree calls s)
    (hin : Reached pattern true hasdirs src tree q dir) (hent : ent ∈ dir.entries)
    (hdir : ent.isDir = true) :
    Contents pattern hasdirs fails move st src dst tree
      (calls ++ [⟨q, some ent, .INSIDE_READDIR⟩]) s := by
  have hfile : ∀ {q' : Path} {e : Dirent},
      (q', e) ∈ visited (calls ++ [⟨q, some ent, .INSIDE_READDIR⟩]) → e.isDir = false →
      (q', e) ∈ visited calls := by
    intro q' e hv hfalse
    rcases mem_visited_snoc.mp hv with hv | ⟨-, rfl⟩
    · exact hv
    · rw [hdir] at hfalse
      cases hfalse
  exact ⟨h.known_snoc hin hent,
    fun p hp => h.other p fun q' e hv => hp q' e (mem_visited_snoc.mpr (.inl hv)),
    fun hmove q' e hv hfalse => h.kept hmove q' e (hfile hv hfalse) hfalse,
    fun hall hmove q' e hv hfalse => h.moved hall hmove q' e (hfile hv hfalse) hfalse,
    fun hall q' e hv hfalse => h.copied hall q' e (hfile hv hfalse) hfalse⟩

/-- No file of a directory that the walk enters is where one of them goes. -/
theorem Clear.ne_dest (hclear : Clear pattern hasdirs st src dst tree)
    (hin : Reached pattern true hasdirs src tree q dir) (he : e ∈ dir.entries)
    (hin' : Reached pattern true hasdirs src tree q' dir') (he' : e' ∈ dir'.entries) :
    child q e.fname ≠ destOf src dst (child q' e'.fname) := by
  obtain ⟨name, hname⟩ := name_of_mem_entries he
  obtain ⟨name', hname'⟩ := name_of_mem_entries he'
  intro heq
  rw [destOf_child hin'.inTree.under, hname, hname'] at heq
  exact hclear.apart hin hin' (child_injective heq).1

/-- A file that no call was for is as it was. -/
theorem Contents.fresh (hst : Source st src dst tree)
    (hclear : Clear pattern hasdirs st src dst tree)
    (h : Contents pattern hasdirs fails move st src dst tree calls s)
    (hin : Reached pattern true hasdirs src tree q dir) (hent : ent ∈ dir.entries)
    (hnew : (q, ent) ∉ visited calls) :
    s.file (child q ent.fname) = st.file (child q ent.fname) := by
  refine h.other _ fun q' e hv _ => ?_
  obtain ⟨dir', hin', he⟩ := h.known q' e hv
  refine ⟨fun heq => ?_, hclear.ne_dest hin hent hin' he⟩
  obtain ⟨rfl, rfl⟩ := hst.child_unique hin.inTree hin'.inTree hent he heq
  exact hnew hv

/-- A call for a file, of which the contents have been transferred. -/
theorem Contents.fileEntry (hst : Source st src dst tree)
    (hclear : Clear pattern hasdirs st src dst tree)
    (h : Contents pattern hasdirs fails move st src dst tree calls s)
    (hin : Reached pattern true hasdirs src tree q dir) (hent : ent ∈ dir.entries)
    (hfile : ent.isDir = false) (hnew : (q, ent) ∉ visited calls)
    (htrans : Transferred fails move (child q ent.fname) (destOf src dst (child q ent.fname)) s t) :
    Contents pattern hasdirs fails move st src dst tree
      (calls ++ [⟨q, some ent, .INSIDE_READDIR⟩]) t := by
  have hold := h.fresh hst hclear hin hent hnew
  -- the two paths of the file are none of another one that a call was for
  have hpath : ∀ {q' e}, (q', e) ∈ visited calls → child q' e.fname ≠ child q ent.fname ∧
      child q' e.fname ≠ destOf src dst (child q ent.fname) := by
    intro q' e hv
    obtain ⟨dir', hin', he⟩ := h.known q' e hv
    refine ⟨fun heq => ?_, hclear.ne_dest hin' he hin hent⟩
    obtain ⟨rfl, rfl⟩ := hst.child_unique hin'.inTree hin.inTree he hent heq
    exact hnew hv
  have hdest : ∀ {q' e}, (q', e) ∈ visited calls →
      destOf src dst (child q' e.fname) ≠ child q ent.fname ∧
      destOf src dst (child q' e.fname) ≠ destOf src dst (child q ent.fname) := by
    intro q' e hv
    obtain ⟨dir', hin', he⟩ := h.known q' e hv
    refine ⟨(hclear.ne_dest hin hent hin' he).symm, fun heq => ?_⟩
    exact (hpath hv).1 (destOf_injective (hin'.inTree.under.trans (under_child _ _))
      (hin.inTree.under.trans (under_child _ _)) heq)
  refine ⟨h.known_snoc hin hent, fun p hp => ?_, fun hmove q' e hv hfalse => ?_,
    fun hall hmove q' e hv hfalse => ?_, fun hall q' e hv hfalse => ?_⟩
  · obtain ⟨ha, hb⟩ := hp q ent (mem_visited_snoc.mpr (.inr ⟨rfl, rfl⟩)) hfile
    rw [htrans.file p ha hb]
    exact h.other p fun q' e hv => hp q' e (mem_visited_snoc.mpr (.inl hv))
  · rcases mem_visited_snoc.mp hv with hv | ⟨rfl, rfl⟩
    · rw [htrans.file _ (hpath hv).1 (hpath hv).2]
      exact h.kept hmove q' e hv hfalse
    · exact (htrans.kept hmove).trans hold
  · rcases mem_visited_snoc.mp hv with hv | ⟨rfl, rfl⟩
    · rw [htrans.file _ (hpath hv).1 (hpath hv).2]
      exact h.moved hall hmove q' e hv hfalse
    · exact htrans.moved hall hmove
  · rcases mem_visited_snoc.mp hv with hv | ⟨rfl, rfl⟩
    · rw [htrans.file _ (hdest hv).1 (hdest hv).2]
      exact h.copied hall q' e hv hfalse
    · obtain ⟨c, hc⟩ := hst.files q' dir e hin.inTree hent hfalse
      rw [hc]
      exact htrans.copied hall c (hold.trans hc)

/-- There is no file where a directory of the tree goes. -/
theorem Contents.no_file (hst : Source st src dst tree)
    (h : Contents pattern hasdirs fails move st src dst tree calls s)
    (hin : Reached pattern true hasdirs src tree q dir) :
    s.file (destOf src dst q) = Option.none := by
  rw [← hst.no_file q dir hin.inTree]
  refine h.other _ fun q' e hv hfile => ?_
  obtain ⟨dir', hin', he⟩ := h.known q' e hv
  constructor
  · -- a file of the tree is there, and none is where a directory goes
    intro heq
    obtain ⟨c, hc⟩ := hst.files q' dir' e hin'.inTree he hfile
    have hnone := hst.no_file q dir hin.inTree
    rw [heq, hc] at hnone
    cases hnone
  · intro heq
    exact hst.ne_file hin.inTree hin'.inTree he hfile (destOf_injective hin.inTree.under
      (hin'.inTree.under.trans (under_child _ _)) heq)

end
end

/-! ### What the callback keeps -/

section
variable {enough : Prop} {fails : Nat → Bool} {pattern : Path} {hasdirs : Path → Bool}
  {st : Disk} {src dst : Path} {tree : Dir} {flags : Flags}

/-- The names that a command takes for those of one file: they differ at
most in the case of letters, and no `rename` comes before a copy. -/
def Refuses (src dst : Path) (move : Bool) : Prop :=
  Lib.lower src = Lib.lower (destRoot src dst) ∧
    (move = true → src = destRoot src dst ∨ device src ≠ device (destRoot src dst))

/-- The callback keeps the invariant, if files are not refused. -/
theorem keeps_progress (hst : Source st src dst tree)
    (hclear : Clear pattern hasdirs st src dst tree) (hnot : ¬ Refuses src dst flags.move)
    {size n : Nat} (hsize : 0 < size) (hsim : flags.simulateOnly = false)
    (hn : ∀ q dir e c, InTree src tree q dir → e ∈ dir.entries →
      st.file (child q e.fname) = some c → c.length < n) :
    Keeps fails pattern true hasdirs src tree
      (cpWalkdirCb (diskEnv fails hasdirs) size n (copyState src dst flags))
      (fun calls s => Listing pattern hasdirs st src dst tree calls s ∧
        Contents pattern hasdirs fails flags.move st src dst tree calls s) where
  tick h := ⟨h.1.congr rfl, h.2.congr rfl⟩
  first h hin hfresh := by
    obtain ⟨l, hl, hlen, -, hfirst, -⟩ := h.1.listed _ _ hin
    exact ⟨l, hl, hlen, hfirst hfresh⟩
  again h hin hgo := by
    obtain ⟨l, hl, hlen, -, -, hagain⟩ := h.1.listed _ _ hin
    exact ⟨l, hl, hlen, hagain hgo⟩
  entry := by
    rintro calls s q dir ent ⟨hdirs, hfiles⟩ hin hent - hnew
    have hq := hin.inTree.normal hst.normal
    have hunder := hin.inTree.under
    obtain ⟨name, hname⟩ := name_of_mem_entries hent
    cases hfile : ent.isDir with
    | true =>
      exact runs_insideReaddir_dir size n q hfile
        ⟨hdirs.append _, hfiles.dirEntry hin hent hfile⟩
    | false =>
      -- the file is still as it was: only entries that were visited have been touched
      obtain ⟨c, hc⟩ := hst.files q dir ent hin.inTree hent hfile
      have hsrc := (hfiles.fresh hst hclear hin hent hnew).trans hc
      have hne := hclear.ne_dest hin hent hin hent
      have hroot : src ≠ destRoot src dst := by
        rw [← destOf_src]
        exact hclear.apart .top .top
      have hdevice := hin.device hst.normal dst
      have hcase : Lib.lower (child q ent.fname) ≠ Lib.lower (destOf src dst (child q ent.fname)) ∨
          flags.move = true ∧
            device (child q ent.fname) = device (destOf src dst (child q ent.fname)) := by
        by_contra hno
        rw [not_or, not_not, lower_destOf_iff (hunder.trans (under_child _ _)), destOf_child hunder,
          device_child hq.ne_nil, device_child (normal_destOf hst.normal hst.normal_dst hq
          hunder).ne_nil, hdevice.1, hdevice.2] at hno
        exact hnot ⟨hno.1, fun hmove => .inr fun heq => hno.2 ⟨hmove, heq⟩⟩
      refine (runs_insideReaddir hst.normal hst.normal_dst hq hunder hname hfile
        (runs_cpOrMvFile hsize hsim hne hcase (fun _ => hn q dir ent c hin.inTree hent hc) hsrc
          (hdirs.no_dir hst hin hent hfile))).mono fun go t ht => ?_
      obtain ⟨rfl, htrans⟩ := ht
      refine ⟨?_, hfiles.fileEntry hst hclear hin hent hfile hnew htrans⟩
      rw [hname] at htrans
      exact hdirs.transferred hclear hin htrans _ ⟨_, List.mem_singleton.mpr rfl, rfl⟩
  other := by
    rintro calls s q dir info ⟨hdirs, hfiles⟩ hin (rfl | rfl | rfl)
    · refine runs_beforeReaddir hst.normal hst.normal_dst size n hsim
        (hin.inTree.normal hst.normal) hin.inTree.under (fun _ t hfile hdir => ?_)
        (fun hnone t hfile hdir => ?_) (hfiles.no_file hst hin)
      · exact ⟨(hdirs.congr hdir).append _, (hfiles.congr hfile).none q _⟩
      · have hmade : (t.make (destOf src dst q)).file = s.file := hfile
        exact ⟨(hdirs.congr hdir).make hclear hin (by rwa [hdir]), (hfiles.congr hmade).none q _⟩
    · exact runs_pure ⟨hdirs.append _, hfiles.none q _⟩
    · exact runs_pure ⟨hdirs.append _, hfiles.none q _⟩
  failed _ _ := runs_pure rfl

/-- A file that is refused stays as it is. -/
theorem runs_refused (hst : Source st src dst tree) (href : Refuses src dst flags.move)
    (size n : Nat) {s : Disk} (hin : Reached pattern true hasdirs src tree q dir)
    (hent : ent ∈ dir.entries) (hfile : ent.isDir = false) :
    Runs enough (fun go t => go = true ∧ Same s t)
      (cpWalkdirCb (diskEnv fails hasdirs) size n (copyState src dst flags) q (some ent)
        .INSIDE_READDIR) s := by
  have hq := hin.inTree.normal hst.normal
  have hunder := hin.inTree.under
  have hunder' := hunder.trans (under_child q ent.fname)
  have hdevice := hin.device hst.normal dst
  obtain ⟨name, hname⟩ := name_of_mem_entries hent
  refine runs_insideReaddir hst.normal hst.normal_dst hq hunder hname hfile
    (runs_cpOrMvFile_refused size n flags (.inr ⟨?_, fun hmove => ?_⟩))
  · exact (lower_destOf_iff hunder').mpr href.1
  · refine (href.2 hmove).imp (fun hroot => (destOf_eq_self hunder' hroot).symm) fun hne => ?_
    rwa [destOf_child hunder, device_child hq.ne_nil, device_child (normal_destOf hst.normal
      hst.normal_dst hq hunder).ne_nil, hdevice.1, hdevice.2]

/-- The callback changes no file that is refused; it makes directories. -/
theorem keeps_refused (hst : Source st src dst tree)
    (hclear : Clear pattern hasdirs st src dst tree) (href : Refuses src dst flags.move)
    (size n : Nat) (hsim : flags.simulateOnly = false) :
    Keeps fails pattern true hasdirs src tree
      (cpWalkdirCb (diskEnv fails hasdirs) size n (copyState src dst flags))
      (fun calls s => Listing pattern hasdirs st src dst tree calls s ∧ s.file = st.file) where
  tick h := ⟨h.1.congr rfl, h.2⟩
  first h hin hfresh := by
    obtain ⟨l, hl, hlen, -, hfirst, -⟩ := h.1.listed _ _ hin
    exact ⟨l, hl, hlen, hfirst hfresh⟩
  again h hin hgo := by
    obtain ⟨l, hl, hlen, -, -, hagain⟩ := h.1.listed _ _ hin
    exact ⟨l, hl, hlen, hagain hgo⟩
  entry := by
    rintro calls s q dir ent ⟨hdirs, hfiles⟩ hin hent - -
    cases hfile : ent.isDir with
    | true => exact runs_insideReaddir_dir size n q hfile ⟨hdirs.append _, hfiles⟩
    | false =>
      refine (runs_refused hst href size n hin hent hfile).mono fun go t ht => ?_
      obtain ⟨rfl, hsame⟩ := ht
      exact ⟨(hdirs.congr hsame.dir).append _, hsame.file.trans hfiles⟩
  other := by
    rintro calls s q dir info ⟨hdirs, hfiles⟩ hin (rfl | rfl | rfl)
    · refine runs_beforeReaddir hst.normal hst.normal_dst size n hsim
        (hin.inTree.normal hst.normal) hin.inTree.under (fun _ t hfile hdir => ?_)
        (fun hnone t hfile hdir => ?_) (by rw [hfiles]; exact hst.no_file q dir hin.inTree)
      · exact ⟨(hdirs.congr hdir).append _, hfile.trans hfiles⟩
      · exact ⟨(hdirs.congr hdir).make hclear hin (by rwa [hdir]), hfile.trans hfiles⟩
    · exact runs_pure ⟨hdirs.append _, hfiles⟩
    · exact runs_pure ⟨hdirs.append _, hfiles⟩
  failed _ _ := runs_pure rfl

/-- A directory that is copied or moved to itself stays as it is. -/
theorem keeps_self (hst : Source st src dst tree) (hroot : src = destRoot src dst)
    (size n : Nat) (hsim : flags.simulateOnly = false) :
    Keeps fails pattern true hasdirs src tree
      (cpWalkdirCb (diskEnv fails hasdirs) size n (copyState src dst flags))
      (fun _ s => s.dir = st.dir ∧ s.file = st.file) where
  tick h := h
  first h hin _ := ⟨_, by rw [h.1]; exact hst.dirs _ _ hin.inTree, Nat.le_succ _, rfl⟩
  again h hin _ := ⟨_, by rw [h.1]; exact hst.dirs _ _ hin.inTree, Nat.le_succ _, rfl⟩
  entry := by
    rintro calls s q dir ent ⟨hdirs, hfiles⟩ hin hent - -
    have href : Refuses src dst flags.move := ⟨by rw [← hroot], fun _ => .inl hroot⟩
    cases hfile : ent.isDir with
    | true => exact runs_insideReaddir_dir size n q hfile ⟨hdirs, hfiles⟩
    | false =>
      refine (runs_refused hst href size n hin hent hfile).mono fun go t ht => ?_
      obtain ⟨rfl, hsame⟩ := ht
      exact ⟨hsame.dir.trans hdirs, hsame.file.trans hfiles⟩
  other := by
    rintro calls s q dir info ⟨hdirs, hfiles⟩ hin (rfl | rfl | rfl)
    · refine runs_beforeReaddir hst.normal hst.normal_dst size n hsim
        (hin.inTree.normal hst.normal) hin.inTree.under (fun _ t hfile hdir => ?_)
        (fun hnone t hfile hdir => ?_) (by rw [hfiles]; exact hst.no_file q dir hin.inTree)
      · exact ⟨hdir.trans hdirs, hfile.trans hfiles⟩
      · -- every directory of the tree is there
        rw [destOf_eq_self hin.inTree.under hroot, hdirs, hst.dirs q dir hin.inTree] at hnone
        cases hnone
    · exact runs_pure ⟨hdirs, hfiles⟩
    · exact runs_pure ⟨hdirs, hfiles⟩
  failed _ _ := runs_pure rfl

end

end Alcor.Proofs.Shell
