import Alcor.Proofs.Shell.Destination

/-!
# `Alcor.Proofs.Shell.Endless`: a copy into what is copied

A recursive copy of a directory to one below it, in which nothing is at
the destination yet. The walk makes directories in the tree that it
walks, and comes to them. If the names on the way match, there is always
one more to come to.

The walks of the other directories on the way may come to an end. What
they leave behind is said by `Grew`: nothing is taken away from a
directory but files, and the new directories are known. The invariant is
`Good`: the directories and their entries belong together, and what is
on the disk is what was on it at the start, or where the copies of that
go.

* `Good.transferred`, `Good.make`: what the callback does keeps the disk
  good.
* `runs_walk`: a walk that ends has made the directory of the
  destination, and others only below it.
* `never_walk`: the walk goes down the chain of its own copies, however
  many steps it has.
-/

set_option autoImplicit false

namespace Alcor.Proofs.Shell

open Alcor.Shell

variable {q b : Path}

/-! ### Disks -/

/-- The directories of a disk and the entries in them belong together. -/
structure Fine (s : Disk) : Prop where
  named : ∀ {q : Path} {l : List Dirent}, Normal q → s.dir q = some l →
    ∀ e ∈ l, ∃ name : Name, e.fname = name.path
  listed : ∀ {q : Path} {l : List Dirent} {name : Name}, Normal q → s.dir q = some l →
    { fname := name.path, isDir := true } ∈ l → s.dir (child q name.path) ≠ none
  closed : ∀ {q : Path} {name : Name}, Normal q → s.dir (child q name.path) ≠ none →
    ∃ l, s.dir q = some l ∧ { fname := name.path, isDir := true } ∈ l

/-- A path of some kind, or where something of the kind goes. -/
inductive CopyOf (src dst : Path) (kind : Path → Prop) : Path → Prop
  | old {p : Path} (h : kind p) : CopyOf src dst kind p
  | copy {p : Path} (hunder : Under src p) (h : CopyOf src dst kind p) :
      CopyOf src dst kind (destOf src dst p)

/-- Nothing is at the destination, and no path is a file and a directory. -/
structure Fresh (st : Disk) (src dst : Path) : Prop where
  no_dir : ∀ p, Under (destRoot src dst) p → st.dir p = none
  no_file : ∀ p, Under (destRoot src dst) p → st.file p = none
  one : ∀ p, st.dir p ≠ none → st.file p = none

/-- A disk while the commands work on it. -/
structure Good (st : Disk) (src dst : Path) (s : Disk) : Prop where
  fine : Fine s
  files : ∀ p, s.file p ≠ none → CopyOf src dst (fun p => st.file p ≠ none) p
  dirs : ∀ p, s.dir p ≠ none → CopyOf src dst (fun p => st.dir p ≠ none) p

/-- In each directory there are the directories that were in it, before
all others. -/
def Grows (s t : Disk) : Prop := ∀ q l, s.dir q = some l →
  ∃ l' more, t.dir q = some l' ∧ l'.filter Dirent.isDir = l.filter Dirent.isDir ++ more

/-- The disk is good and has grown, and the new directories are of some
kind. -/
structure Grew (st : Disk) (src dst : Path) (new : Path → Prop) (s t : Disk) : Prop where
  good : Good st src dst t
  grows : Grows s t
  only : ∀ x, s.dir x = none → t.dir x ≠ none → new x

section
variable {st : Disk} {src dst : Path} {s t u : Disk}

theorem Grows.refl (s : Disk) : Grows s s := fun _ l hl => ⟨l, [], hl, (List.append_nil _).symm⟩

theorem Grows.trans (hst : Grows s t) (htu : Grows t u) : Grows s u := by
  intro q l hl
  obtain ⟨l₁, more₁, hl₁, hmore₁⟩ := hst q l hl
  obtain ⟨l₂, more₂, hl₂, hmore₂⟩ := htu q l₁ hl₁
  exact ⟨l₂, more₁ ++ more₂, hl₂, by rw [hmore₂, hmore₁, List.append_assoc]⟩

/-- A directory stays. -/
theorem Grows.ne_none (h : Grows s t) (hq : s.dir q ≠ none) : t.dir q ≠ none := by
  obtain ⟨l, hl⟩ := Option.ne_none_iff_exists'.mp hq
  obtain ⟨l', _, hl', -⟩ := h q l hl
  rw [hl']
  exact Option.some_ne_none _

theorem Good.congr (h : Good st src dst s) (hfile : t.file = s.file) (hdir : t.dir = s.dir) :
    Good st src dst t := by
  refine ⟨⟨?_, ?_, ?_⟩, ?_, ?_⟩
  · rw [hdir]
    exact h.fine.named
  · rw [hdir]
    exact h.fine.listed
  · rw [hdir]
    exact h.fine.closed
  · rw [hfile]
    exact h.files
  · rw [hdir]
    exact h.dirs

theorem Grew.refl (new : Path → Prop) (h : Good st src dst s) : Grew st src dst new s s :=
  ⟨h, .refl s, fun _ hx hx' => absurd hx hx'⟩

theorem Grew.mono {new new' : Path → Prop} (h : Grew st src dst new s t)
    (hnew : ∀ x, new x → new' x) : Grew st src dst new' s t :=
  ⟨h.good, h.grows, fun x hx hx' => hnew x (h.only x hx hx')⟩

/-- A change that keeps the directories in directories. -/
theorem Grew.of_dirs (new : Path → Prop) (h : Good st src dst t)
    (hdirs : ∀ q, (t.dir q).map (List.filter Dirent.isDir) =
      (s.dir q).map (List.filter Dirent.isDir)) : Grew st src dst new s t := by
  refine ⟨h, fun q l hl => ?_, fun x hx hx' => absurd ?_ hx'⟩
  · have heq := hdirs q
    rw [hl, Option.map_some] at heq
    obtain ⟨l', hl', hfilter⟩ := Option.map_eq_some_iff.mp heq
    exact ⟨l', [], hl', by rw [hfilter, List.append_nil]⟩
  · rw [← Option.map_eq_none_iff (f := List.filter Dirent.isDir), hdirs, hx]
    rfl

theorem Grew.trans {new : Path → Prop} (hst : Grew st src dst new s t)
    (htu : Grew st src dst new t u) : Grew st src dst new s u := by
  refine ⟨htu.good, hst.grows.trans htu.grows, fun x hx hx' => ?_⟩
  by_cases ht : t.dir x = none
  · exact htu.only x ht hx'
  · exact hst.only x hx ht

/-- Where the disk had nothing, what is there now came from one place. -/
theorem CopyOf.disjoint {kind kind' : Path → Prop} (hkind : ∀ p, kind p → ¬ kind' p)
    (hnone : ∀ p, Under (destRoot src dst) p → ¬ kind p)
    (hnone' : ∀ p, Under (destRoot src dst) p → ¬ kind' p) {p : Path}
    (h : CopyOf src dst kind p) : ¬ CopyOf src dst kind' p := by
  induction h with
  | old hp =>
    intro h'
    cases h' with
    | old hp' => exact hkind _ hp hp'
    | copy hunder _ => exact hnone _ (under_destOf hunder) hp
  | @copy p hunder _ ih =>
    intro h'
    generalize hq : destOf src dst p = q at h'
    cases h' with
    | old hp' => exact hnone' _ (hq ▸ under_destOf hunder) hp'
    | copy hunder' h' =>
      rw [destOf_injective hunder hunder' hq] at ih
      exact ih h'

theorem Fresh.not_both (h : Fresh st src dst) {p : Path}
    (hfile : CopyOf src dst (fun p => st.file p ≠ none) p)
    (hdir : CopyOf src dst (fun p => st.dir p ≠ none) p) : False :=
  hfile.disjoint (fun p hp hp' => hp (h.one p hp')) (fun p hp hp' => hp' (h.no_file p hp))
    (fun p hp hp' => hp' (h.no_dir p hp)) hdir

/-- There is no file where a directory goes. -/
theorem Good.no_file (h : Good st src dst s) (hfresh : Fresh st src dst) (hunder : Under src q)
    (hq : s.dir q ≠ none) : s.file (destOf src dst q) = none := by
  by_contra hfile
  exact hfresh.not_both (h.files _ hfile) (.copy hunder (h.dirs q hq))

/-- There is no directory where a file goes. -/
theorem Good.no_dir (h : Good st src dst s) (hfresh : Fresh st src dst) {a : Path}
    (hunder : Under src a) (ha : s.file a ≠ none) : s.dir (destOf src dst a) = none := by
  by_contra hdir
  exact hfresh.not_both (.copy hunder (h.files a ha)) (h.dirs _ hdir)

/-- Directories that stay the same with the directories in them. -/
theorem Entries.grows (h : Entries b s t) : Grows s t := by
  intro q l hl
  have heq := h.dirs q
  rw [hl, Option.map_some] at heq
  obtain ⟨l', hl', hfilter⟩ := Option.map_eq_some_iff.mp heq
  exact ⟨l', [], hl', by rw [hfilter, List.append_nil]⟩

theorem Entries.dir_eq_none (h : Entries b s t) (q : Path) : t.dir q = none ↔ s.dir q = none := by
  rw [← Option.map_eq_none_iff (f := List.filter Dirent.isDir), h.dirs, Option.map_eq_none_iff]

/-- A directory is in the same ones as before. -/
theorem Entries.mem_dir (h : Entries b s t) {l' : List Dirent} (hl' : t.dir q = some l')
    {e : Dirent} (he : e.isDir = true) : ∃ l, s.dir q = some l ∧ (e ∈ l ↔ e ∈ l') := by
  have heq := h.dirs q
  rw [hl', Option.map_some] at heq
  obtain ⟨l, hl, hfilter⟩ := Option.map_eq_some_iff.mp heq.symm
  refine ⟨l, hl, ?_⟩
  have hmem : ∀ k : List Dirent, e ∈ k ↔ e ∈ k.filter Dirent.isDir :=
    fun k => ⟨fun h => List.mem_filter.mpr ⟨h, he⟩, List.mem_of_mem_filter⟩
  rw [hmem l, hfilter, ← hmem l']

/-- A file that goes where it belongs keeps the disk good. -/
theorem Good.transferred {fails : Nat → Bool} {move : Bool} (h : Good st src dst s) {name : Name}
    (hunder : Under src q) (hsrc : s.file (child q name.path) ≠ none)
    (htrans : Transferred fails move (child q name.path) (destOf src dst (child q name.path)) s
      t) : Good st src dst t := by
  have hentries := htrans.entries
  have hlast : lastName (destOf src dst (child q name.path)) = name.path := by
    rw [destOf_child hunder, lastName_child _ name.no_slash]
  refine ⟨⟨fun {r l'} hr hl' e he => ?_, fun {r l' n'} hr hl' he => ?_, fun {r n'} hr hn => ?_⟩,
    fun p hp => ?_, fun p hp => h.dirs p fun hno => hp ((hentries.dir_eq_none p).mpr hno)⟩
  · rcases hentries.named r l' hl' e he with rfl | ⟨l, hl, he⟩
    · exact ⟨name, hlast⟩
    · exact h.fine.named hr hl e he
  · obtain ⟨l, hl, hiff⟩ := hentries.mem_dir hl' (e := { fname := n'.path, isDir := true }) rfl
    exact hentries.grows.ne_none (h.fine.listed hr hl (hiff.mpr he))
  · obtain ⟨l, hl, he⟩ := h.fine.closed hr fun hno => hn ((hentries.dir_eq_none _).mpr hno)
    obtain ⟨l', hl'⟩ := Option.ne_none_iff_exists'.mp
      (hentries.grows.ne_none (by rw [hl]; exact Option.some_ne_none l))
    obtain ⟨k, hk, hiff⟩ := hentries.mem_dir hl' (e := { fname := n'.path, isDir := true }) rfl
    cases Option.some.inj (hl.symm.trans hk)
    exact ⟨l', hl', hiff.mp he⟩
  · -- the file is where the source file goes, or was there before
    by_cases hb : p = destOf src dst (child q name.path)
    · rw [hb]
      exact .copy (hunder.trans (under_child _ _)) (h.files _ hsrc)
    · by_cases ha : p = child q name.path
      · rw [ha]
        exact h.files _ hsrc
      · rw [htrans.file p ha hb] at hp
        exact h.files p hp

/-! ### A directory is made -/

/-- The directory of the destination is made where its parent is. -/
theorem Good.make (h : Good st src dst s) {P : Path} {name : Name} (hunder : Under src q)
    (hq : s.dir q ≠ none) (hdest : destOf src dst q = child P name.path) (hP : Normal P)
    (hthere : s.dir P ≠ none) (hnone : s.dir (destOf src dst q) = none) :
    Grew st src dst (· = destOf src dst q) s (s.make (destOf src dst q)) := by
  have hcopied : CopyOf src dst (fun p => st.dir p ≠ none) (destOf src dst q) :=
    .copy hunder (h.dirs q hq)
  rw [hdest] at hnone hcopied ⊢
  have hPne : P ≠ child P name.path := fun heq => hthere (heq ▸ hnone)
  have hparent : parent (child P name.path) = P := parent_child P name.no_slash
  have hlast : lastName (child P name.path) = name.path := lastName_child P name.no_slash
  have hdir := dir_make s (child P name.path)
  rw [hparent, hlast] at hdir
  have hnew : (s.make (child P name.path)).dir (child P name.path) = some [] := by
    rw [hdir, if_pos rfl]
  -- a directory that was there, with its entries
  have hold : ∀ {r l}, s.dir r = some l →
      ∃ l', (s.make (child P name.path)).dir r = some l' ∧
        (l' = l ∨ r = P ∧ l' = l ++ [{ fname := name.path, isDir := true }]) := by
    intro r l hl
    have hr : r ≠ child P name.path := by
      rintro rfl
      rw [hnone] at hl
      cases hl
    rw [hdir, if_neg hr]
    by_cases hrP : r = P
    · rw [if_pos hrP, hl]
      exact ⟨_, rfl, .inr ⟨hrP, rfl⟩⟩
    · rw [if_neg hrP]
      exact ⟨l, hl, .inl rfl⟩
  have hback : ∀ {r}, r ≠ child P name.path → (s.make (child P name.path)).dir r ≠ none →
      s.dir r ≠ none := by
    intro r hr hno hno'
    rw [hdir, if_neg hr, hno', Option.map_none, ite_self] at hno
    exact hno rfl
  have hgrows : Grows s (s.make (child P name.path)) := by
    intro r l hl
    obtain ⟨l', hl', rfl | ⟨-, rfl⟩⟩ := hold hl
    · exact ⟨l', [], hl', (List.append_nil _).symm⟩
    · exact ⟨_, _, hl', List.filter_append ..⟩
  refine ⟨⟨⟨fun {r l'} hr hl' e he => ?_, fun {r l' n'} hr hl' he => ?_,
    fun {r n'} hr hn => ?_⟩, h.files, fun p hp => ?_⟩, hgrows, fun x hx hx' => ?_⟩
  · by_cases heq : r = child P name.path
    · rw [heq, hnew] at hl'
      cases Option.some.inj hl'
      cases he
    · obtain ⟨l, hl⟩ := Option.ne_none_iff_exists'.mp
        (hback heq (by rw [hl']; exact Option.some_ne_none l'))
      obtain ⟨k, hk, hcases⟩ := hold hl
      cases Option.some.inj (hl'.symm.trans hk)
      rcases hcases with rfl | ⟨-, rfl⟩
      · exact h.fine.named hr hl e he
      · rcases List.mem_append.mp he with he | he
        · exact h.fine.named hr hl e he
        · exact ⟨name, by rw [List.mem_singleton.mp he]⟩
  · by_cases heq : r = child P name.path
    · rw [heq, hnew] at hl'
      cases Option.some.inj hl'
      cases he
    · obtain ⟨l, hl⟩ := Option.ne_none_iff_exists'.mp
        (hback heq (by rw [hl']; exact Option.some_ne_none l'))
      obtain ⟨k, hk, hcases⟩ := hold hl
      cases Option.some.inj (hl'.symm.trans hk)
      rcases hcases with rfl | ⟨rfl, rfl⟩
      · exact hgrows.ne_none (h.fine.listed hr hl he)
      · rcases List.mem_append.mp he with he | he
        · exact hgrows.ne_none (h.fine.listed hr hl he)
        · have hname : n'.path = name.path :=
            congrArg Dirent.fname (List.mem_singleton.mp he)
          rw [hname, hnew]
          exact Option.some_ne_none _
  · by_cases heq : child r n'.path = child P name.path
    · obtain ⟨rfl, hname⟩ := child_injective heq
      obtain ⟨l, hl⟩ := Option.ne_none_iff_exists'.mp hthere
      refine ⟨l ++ [{ fname := name.path, isDir := true }], ?_, ?_⟩
      · rw [hdir, if_neg hPne, if_pos rfl, hl]
        rfl
      · rw [hname]
        exact List.mem_append_right _ List.mem_cons_self
    · obtain ⟨l, hl, he⟩ := h.fine.closed hr (hback heq hn)
      obtain ⟨l', hl', rfl | ⟨-, rfl⟩⟩ := hold hl
      · exact ⟨l', hl', he⟩
      · exact ⟨_, hl', List.mem_append_left _ he⟩
  · by_cases heq : p = child P name.path
    · rwa [heq]
    · exact h.dirs p (hback heq hp)
  · by_contra heq
    exact hback heq hx' hx

end

/-! ### The walk of a directory -/

section
variable {st : Disk} {src dst : Path} {flags : Flags} {size n₀ : Nat} {pattern : Path}
  {hasdirs : Path → Bool}

/-- Every operation that can succeed does so. -/
abbrev noFails : Nat → Bool := fun _ => false

/-- The callback of the commands. -/
abbrev copyCb (src dst : Path) (flags : Flags) (size n₀ : Nat) (hasdirs : Path → Bool) :
    Callback Disk :=
  cpWalkdirCb (diskEnv noFails hasdirs) size n₀ (copyState src dst flags)

/-- The walk of a directory. -/
abbrev copyWalk (src dst : Path) (flags : Flags) (size n₀ : Nat) (pattern : Path)
    (hasdirs : Path → Bool) : Nat → Path → Cmd Disk Bool :=
  cmnFsActualWalkdir (diskEnv noFails hasdirs) (copyCb src dst flags size n₀ hasdirs) pattern
    true

/-- The directory that the one of a directory is made in is there. -/
def Placed (src dst : Path) (s : Disk) (q : Path) : Prop :=
  ∃ P, ∃ name : Name, destOf src dst q = child P name.path ∧ Normal P ∧ s.dir P ≠ none

/-- What the copies into a directory rest on: paths in normal form, a
destination below the source, and a disk that had nothing there. -/
structure Into (st : Disk) (src dst : Path) (flags : Flags) (size : Nat) : Prop where
  normal : Normal src
  normal_dst : Normal dst
  longer : src.length < (destRoot src dst).length
  size_pos : 0 < size
  sim : flags.simulateOnly = false
  fresh : Fresh st src dst

/-- The files of a listing are copied; the directories stay as they are. -/
theorem runs_entries (hinto : Into st src dst flags size) (hq : Normal q) (hunder : Under src q) :
    ∀ (n : Nat) (l : List Dirent) (found : Bool) (s : Disk), Good st src dst s →
      (∀ e ∈ l, ∃ name : Name, e.fname = name.path) →
      Runs False (fun r t => r.2 = some (found ||
          l.any fun ent => cmnPatternMatches ent.fname pattern && ent.isDir) ∧
          Good st src dst t ∧
          ∀ q, (t.dir q).map (List.filter Dirent.isDir) = (s.dir q).map (List.filter Dirent.isDir))
        (walkEntries (diskEnv noFails hasdirs) (copyCb src dst flags size n₀ hasdirs) pattern q n
          l found) s := by
  -- on the steps; each entry is a directory, for which nothing is done, or a file
  intro n
  induction n with
  | zero => exact fun _ _ _ _ _ => runs_unfinished id
  | succ n ih =>
    intro l found s hgood hnamed
    refine runs_bind (runs_look ?_)
    cases l with
    | nil => exact runs_pure ⟨by simp, hgood, fun _ => rfl⟩
    | cons ent l =>
      have hrest : ∀ e ∈ l, ∃ name : Name, e.fname = name.path :=
        fun e he => hnamed e (List.mem_cons_of_mem _ he)
      show Runs False _ (if (!cmnPatternMatches ent.fname pattern) = true then _ else _) s
      cases hmatch : cmnPatternMatches ent.fname pattern with
      | false =>
        refine (ih l found s hgood hrest).mono fun r t hr => ?_
        rw [List.any_cons, hmatch]
        simpa using hr
      | true =>
        have hcall : Runs False (fun go t => go = true ∧ Good st src dst t ∧ ∀ q,
            (t.dir q).map (List.filter Dirent.isDir) = (s.dir q).map (List.filter Dirent.isDir))
            (copyCb src dst flags size n₀ hasdirs q (some ent) .INSIDE_READDIR) s := by
          cases hdir : ent.isDir with
          | true => exact runs_insideReaddir_dir size n₀ q hdir ⟨rfl, hgood, fun _ => rfl⟩
          | false =>
            obtain ⟨name, hname⟩ := hnamed ent List.mem_cons_self
            refine runs_insideReaddir hinto.normal hinto.normal_dst hq hunder hname hdir ?_
            have hunder' := hunder.trans (under_child q ent.fname)
            cases hsrc : s.file (child q ent.fname) with
            | none =>
              refine (runs_cpOrMvFile_refused size n₀ flags (.inl hsrc)).mono fun _ t ht => ?_
              exact ⟨hgood.congr ht.file ht.dir, fun q => by rw [ht.dir]⟩
            | some c =>
              have hne : s.file (child q ent.fname) ≠ none := by
                rw [hsrc]
                exact Option.some_ne_none c
              -- the destination is longer than the source
              have hlower : Lib.lower (child q ent.fname) ≠
                  Lib.lower (destOf src dst (child q ent.fname)) := by
                rw [Ne, lower_destOf_iff hunder']
                intro heq
                have hlen := congrArg List.length heq
                rw [Lib.length_lower, Lib.length_lower] at hlen
                have hlonger := hinto.longer
                omega
              refine (runs_cpOrMvFile hinto.size_pos hinto.sim
                (fun heq => hlower (congrArg Lib.lower heq)) (.inl hlower) (fun h => h.elim) hsrc
                (hgood.no_dir hinto.fresh hunder' hne)).mono fun _ t ht => ?_
              rw [hname] at ht hne
              exact ⟨hgood.transferred hunder hne ht, ht.entries.dirs⟩
        refine runs_bind (hcall.mono fun go t ht => ?_)
        obtain ⟨rfl, hgood', hdirs⟩ := ht
        refine (ih l (found || ent.isDir) t hgood' hrest).mono fun r u ⟨hr, hgood'', hdirs'⟩ => ?_
        refine ⟨?_, hgood'', fun q => (hdirs' q).trans (hdirs q)⟩
        rw [hr, List.any_cons, hmatch]
        simp [Bool.or_assoc]

/-- The walk of a directory, given what the walks of those in it do. The
directory of the destination is there when it comes to them. -/
theorem runs_directory (hinto : Into st src dst flags size) (hq : Normal q)
    (hunder : Under src q) {s : Disk} (hgood : Good st src dst s) {l₁ : List Dirent}
    (hl : s.dir q = some l₁) (hplaced : Placed src dst s q) {n : Nat} {Q : Bool → Disk → Prop}
    (hdone : (hasdirs q ||
        l₁.any fun ent => cmnPatternMatches ent.fname pattern && ent.isDir) = false →
      ∀ t, Grew st src dst (· = destOf src dst q) s t → t.dir (destOf src dst q) ≠ none → Q true t)
    (hdown : (hasdirs q ||
        l₁.any fun ent => cmnPatternMatches ent.fname pattern && ent.isDir) = true →
      ∀ l t, Grew st src dst (· = destOf src dst q) s t → t.dir (destOf src dst q) ≠ none →
        t.dir q = some l → Runs False (fun r u => r.2 = true ∧ Q true u)
          (walkDirs (diskEnv noFails hasdirs) (copyCb src dst flags size n₀ hasdirs)
            (copyWalk src dst flags size n₀ pattern hasdirs n) q n l) t) :
    Runs False Q (copyWalk src dst flags size n₀ pattern hasdirs (n + 1) q) s := by
  have hall : AllSucceed noFails := fun _ => rfl
  have hqdir : s.dir q ≠ none := by
    rw [hl]
    exact Option.some_ne_none l₁
  obtain ⟨P, name, hdest, hP, hthere⟩ := hplaced
  refine runs_bind (runs_look (runs_bind (runs_opendir (fun hbad => absurd hall hbad) ?_)))
  rw [show ((diskEnv noFails hasdirs).hasdirs q s).2 = s from rfl, hq.plain, hl]
  -- the directory of the destination
  have hbefore : Runs False (fun go t => go = true ∧ Grew st src dst (· = destOf src dst q) s t ∧
      t.dir (destOf src dst q) ≠ none)
      (copyCb src dst flags size n₀ hasdirs q none .BEFORE_READDIR) s.tick := by
    have hgood' : Good st src dst s.tick := hgood.congr rfl rfl
    refine (runs_beforeReaddir hinto.normal hinto.normal_dst size n₀ hinto.sim hq hunder
      (s := s.tick) (Q := fun t => Grew st src dst (· = destOf src dst q) s t ∧
        t.dir (destOf src dst q) ≠ none)
      (fun hyes t hfile hdir => ?_) (fun hnone t hfile hdir => ?_)
      (hgood'.no_file hinto.fresh hunder hqdir)).mono fun go t hgo => ?_
    · exact ⟨.of_dirs _ (hgood.congr hfile hdir) fun p => congrArg _ (congrFun hdir p),
        by rw [hdir]; exact hyes hall⟩
    · have hsame : Grew st src dst (· = destOf src dst q) s t :=
        .of_dirs _ (hgood.congr hfile hdir) fun p => congrArg _ (congrFun hdir p)
      have hdir' : t.dir = s.dir := hdir
      refine ⟨hsame.trans (hsame.good.make hunder (by rwa [hdir']) hdest hP (by rwa [hdir'])
        (by rw [hdir']; exact hnone)), ?_⟩
      rw [dir_make, if_pos rfl]
      exact Option.some_ne_none _
    · cases go with
      | false => exact absurd hall hgo
      | true => exact ⟨rfl, hgo⟩
  refine runs_bind (hbefore.mono fun go t ⟨hgo, hgrew, hmade⟩ => ?_)
  subst hgo
  -- the files, and whether there is a directory that matches
  refine runs_bind ((runs_entries hinto hq hunder n l₁ (hasdirs q) t hgrew.good
    (hgood.fine.named hq hl)).mono fun r u ⟨hr, hgood', hdirs⟩ => runs_bind (runs_look ?_))
  have hgrew' : Grew st src dst (· = destOf src dst q) s u :=
    hgrew.trans (.of_dirs _ hgood' hdirs)
  have hmade' : u.dir (destOf src dst q) ≠ none := by
    intro hno
    have heq := hdirs (destOf src dst q)
    rw [hno, Option.map_none] at heq
    exact hmade (Option.map_eq_none_iff.mp heq.symm)
  obtain ⟨d, found⟩ := r
  obtain rfl : found = some _ := hr
  refine runs_bind (runs_pure ?_)
  show Runs False Q (if (true && (hasdirs q ||
    l₁.any fun ent => cmnPatternMatches ent.fname pattern && ent.isDir)) = true then _ else _) u
  rw [Bool.true_and]
  refine runs_ite (fun hyes => ?_) fun hno => runs_pure (hdone (by simpa using hno) u hgrew' hmade')
  obtain ⟨l, _, hl', -⟩ := hgrew'.grows q l₁ hl
  refine runs_bind (runs_bind (runs_opendir (fun hbad => absurd hall hbad) ?_))
  rw [hq.plain, hl']
  have htick : Grew st src dst (· = destOf src dst q) s u.tick :=
    ⟨hgrew'.good.congr rfl rfl, hgrew'.grows, hgrew'.only⟩
  refine runs_bind ((hdown hyes l u.tick htick hmade' hl').mono fun r v ⟨hr, hQ⟩ =>
    runs_bind (runs_look (runs_pure ?_)))
  rw [hr]
  exact runs_pure hQ

/-- The second loop, if each directory takes what is known of those
before it to what is known with it. -/
theorem runs_walkDirs (q : Path) (hq : Normal q) (walk : Path → Cmd Disk Bool)
    {K : List Dirent → Disk → Prop} {D : List Dirent}
    (hstep : ∀ done ent rest s, D = done ++ ent :: rest → K done s →
      Runs False (fun go t => go = true ∧ K (done ++ [ent]) t) (walk (child q ent.fname)) s) :
    ∀ (n : Nat) (l done : List Dirent) (s : Disk), D = done ++ l.filter Dirent.isDir →
      (∀ e ∈ l, ∃ name : Name, e.fname = name.path) → K done s →
      Runs False (fun r t => r.2 = true ∧ K D t)
        (walkDirs (diskEnv noFails hasdirs) (copyCb src dst flags size n₀ hasdirs) walk q n l)
        s := by
  intro n
  induction n with
  | zero => exact fun _ _ _ _ _ _ => runs_unfinished id
  | succ n ih =>
    intro l done s hdirs hnamed hK
    refine runs_bind (runs_look ?_)
    cases l with
    | nil =>
      refine runs_pure ⟨rfl, ?_⟩
      rwa [hdirs, List.filter_nil, List.append_nil]
    | cons ent l =>
      have hrest : ∀ e ∈ l, ∃ name : Name, e.fname = name.path :=
        fun e he => hnamed e (List.mem_cons_of_mem _ he)
      show Runs False _ (if (!ent.isDir) = true then _ else _) s
      cases hdir : ent.isDir with
      | false =>
        rw [List.filter_cons_of_neg (by rw [hdir]; exact Bool.false_ne_true)] at hdirs
        exact ih l done s hdirs hrest hK
      | true =>
        rw [List.filter_cons_of_pos hdir] at hdirs
        obtain ⟨name, hname⟩ := hnamed ent List.mem_cons_self
        have hpos : 0 < joinTotal [q, ent.fname] := by
          refine joinTotal_pos hq _ fun p hp => ?_
          rw [List.mem_singleton.mp hp, hname]
          exact .inr (head?_name name)
        have hjoin : joined [q, ent.fname] = child q ent.fname := by
          rw [hname]
          exact inside_eq hq name
        show Runs False _ (walkNamed _ _ walk q ent.fname >>= _) s
        unfold walkNamed
        rw [pathJoin_of_pos hpos, pure_bind, hjoin]
        refine runs_bind ((hstep done ent _ s hdirs hK).mono fun go t ⟨hgo, hK'⟩ => ?_)
        subst hgo
        exact ih l (done ++ [ent]) t (by rw [hdirs, List.append_assoc]; rfl) hrest hK'

/-- A walk that comes to an end has made the directory of the
destination, and others only below it. -/
theorem runs_walk (hinto : Into st src dst flags size) :
    ∀ (n : Nat) (q : Path) (s : Disk), Normal q → Under src q → Good st src dst s →
      s.dir q ≠ none → Placed src dst s q →
      Runs False (fun go t => go = true ∧ Grew st src dst (Under (destOf src dst q)) s t ∧
          t.dir (destOf src dst q) ≠ none)
        (copyWalk src dst flags size n₀ pattern hasdirs n q) s := by
  intro n
  induction n with
  | zero => exact fun _ _ _ _ _ _ _ => runs_unfinished id
  | succ n ih =>
    intro q s hq hunder hgood hthere hplaced
    obtain ⟨l₁, hl₁⟩ := Option.ne_none_iff_exists'.mp hthere
    have hfirst : ∀ {t}, Grew st src dst (· = destOf src dst q) s t →
        Grew st src dst (Under (destOf src dst q)) s t :=
      fun h => h.mono fun x hx => hx ▸ .refl _
    refine runs_directory hinto hq hunder hgood hl₁ hplaced
      (fun _ t hgrew hmade => ⟨rfl, hfirst hgrew, hmade⟩) fun _ l t hgrew hmade hl => ?_
    have hnamed := hgrew.good.fine.named hq hl
    refine (runs_walkDirs q hq _ (D := l.filter Dirent.isDir)
      (K := fun _ u => Grew st src dst (Under (destOf src dst q)) t u ∧
        u.dir (destOf src dst q) ≠ none)
      (fun done ent rest u hdirs ⟨hgrew', hmade'⟩ => ?_) n l [] t rfl hnamed
      ⟨.refl _ hgrew.good, hmade⟩).mono fun r u ⟨hr, hgrew', hmade'⟩ =>
        ⟨hr, rfl, (hfirst hgrew).trans hgrew', hmade'⟩
    -- a directory in the listing is there, and its copy goes into the one that was made
    have hmem : ent ∈ l.filter Dirent.isDir := by
      rw [hdirs]
      exact List.mem_append_right _ List.mem_cons_self
    obtain ⟨hent, hdir⟩ := List.mem_filter.mp hmem
    obtain ⟨name, hname⟩ := hnamed ent hent
    have hentry : { fname := name.path, isDir := true } ∈ l := by
      rw [← hname, ← hdir]
      exact hent
    have hdest : destOf src dst (child q name.path) = child (destOf src dst q) name.path :=
      destOf_child hunder name.path
    rw [hname]
    refine (ih (child q name.path) u (hq.child name) (hunder.trans (under_child _ _))
      hgrew'.good (hgrew'.grows.ne_none (hgrew.good.fine.listed hq hl hentry))
      ⟨_, name, hdest, normal_destOf hinto.normal hinto.normal_dst hq hunder, hmade'⟩).mono
        fun go v ⟨hgo, hgrew'', _⟩ => ⟨hgo, hgrew'.trans (hgrew''.mono fun x hx => ?_),
          hgrew''.grows.ne_none hmade'⟩
    rw [hdest] at hx
    exact (under_child _ _).trans hx

/-! ### A walk that does not come to an end -/

/-- One directory in the other, by names that go on for ever. -/
def chain (src : Path) (d : Nat → Name) : Nat → Path
  | 0     => src
  | i + 1 => child (chain src d i) (d i).path

/-- The destination is below the source, by the first `p` of names that
are repeated. -/
structure Round (src dst : Path) (p : Nat) (d : Nat → Name) : Prop where
  pos : 0 < p
  periodic : ∀ i, d (i + p) = d i
  root : destRoot src dst = chain src d p

section Chain
variable {p : Nat} {d : Nat → Name}

theorem normal_chain (hsrc : Normal src) (d : Nat → Name) (i : Nat) : Normal (chain src d i) := by
  induction i with
  | zero => exact hsrc
  | succ i ih => exact ih.child (d i)

theorem under_chain (src : Path) (d : Nat → Name) (i : Nat) : Under src (chain src d i) := by
  induction i with
  | zero => exact .refl src
  | succ i ih => exact ih.trans (under_child _ _)

/-- A directory of the chain goes to one further down. -/
theorem Round.destOf_chain (h : Round src dst p d) (i : Nat) :
    destOf src dst (chain src d i) = chain src d (i + p) := by
  induction i with
  | zero => rw [Nat.zero_add, ← h.root, chain, destOf_src]
  | succ i ih =>
    rw [chain, destOf_child (under_chain src d i), ih, Nat.add_right_comm, chain, h.periodic]

/-- What the walk finds at a directory of the chain: the ones up to where
it goes, and if that is in the directory itself, another one that
matches, and nothing where it goes. -/
structure Ready (pattern src : Path) (p : Nat) (d : Nat → Name) (j : Nat) (s : Disk) : Prop where
  there : ∀ i < p, s.dir (chain src d (j + i)) ≠ none
  other : p = 1 → s.dir (chain src d (j + 1)) = none ∧
    ∃ e : Name, e.path ≠ (d j).path ∧ cmnPatternMatches e.path pattern = true ∧
      s.dir (child (chain src d j) e.path) ≠ none

/-- A directory that matches is in the listing. -/
theorem any_of_there {s : Disk} (hgood : Good st src dst s) (hq : Normal q) {l : List Dirent}
    (hl : s.dir q = some l) {e : Name} (hmatch : cmnPatternMatches e.path pattern = true)
    (hthere : s.dir (child q e.path) ≠ none) :
    (l.any fun ent => cmnPatternMatches ent.fname pattern && ent.isDir) = true := by
  obtain ⟨l', hl', he⟩ := hgood.fine.closed hq hthere
  cases Option.some.inj (hl.symm.trans hl')
  exact List.any_eq_true.mpr ⟨_, he, by rw [hmatch]; rfl⟩

/-- The walk goes down from each directory of the chain to the next. -/
theorem never_walk (hinto : Into st src dst flags size) (hround : Round src dst p d)
    (hmatch : p ≠ 1 → ∀ i, cmnPatternMatches (d i).path pattern = true) :
    ∀ (n j : Nat) (s : Disk), Good st src dst s → Ready pattern src p d j s →
      Runs False (fun _ _ => False)
        (copyWalk src dst flags size n₀ pattern hasdirs n (chain src d j)) s := by
  -- on the steps: the walk of the next directory has one less
  intro n
  induction n with
  | zero => exact fun _ _ _ _ => runs_unfinished id
  | succ n ih =>
    intro j s hgood hready
    have hpos := hround.pos
    have hq : Normal (chain src d j) := normal_chain hinto.normal d j
    have hunder : Under src (chain src d j) := under_chain src d j
    have hdest := hround.destOf_chain j
    obtain ⟨l₁, hl₁⟩ := Option.ne_none_iff_exists'.mp (hready.there 0 hpos)
    rw [Nat.add_zero] at hl₁
    have hplaced : Placed src dst s (chain src d j) := by
      refine ⟨chain src d (j + (p - 1)), d (j + (p - 1)), ?_, normal_chain hinto.normal d _,
        hready.there (p - 1) (by omega)⟩
      rw [hdest, show j + p = j + (p - 1) + 1 by omega]
      rfl
    have hany : (l₁.any fun ent => cmnPatternMatches ent.fname pattern && ent.isDir) = true := by
      by_cases hp : p = 1
      · obtain ⟨-, e, -, hm, hthere⟩ := hready.other hp
        exact any_of_there hgood hq hl₁ hm hthere
      · exact any_of_there hgood hq hl₁ (hmatch hp j) (hready.there 1 (by omega))
    refine runs_directory hinto hq hunder hgood hl₁ hplaced (fun hno => ?_)
      fun _ l t hgrew hmade hl => ?_
    · rw [hany, Bool.or_true] at hno
      cases hno
    rw [hdest] at hmade
    have hnamed := hgrew.good.fine.named hq hl
    -- the next directory is in the listing
    have hnext : t.dir (chain src d (j + 1)) ≠ none := by
      by_cases hp : p = 1
      · rwa [hp] at hmade
      · exact hgrew.grows.ne_none (hready.there 1 (by omega))
    have hin : { fname := (d j).path, isDir := true } ∈ l.filter Dirent.isDir := by
      obtain ⟨l', hl', he⟩ := hgrew.good.fine.closed hq hnext
      cases Option.some.inj (hl.symm.trans hl')
      exact List.mem_filter.mpr ⟨he, rfl⟩
    -- the directories before it in the listing have their copies, and nothing else is new
    refine (runs_walkDirs (chain src d j) hq _ (D := l.filter Dirent.isDir)
      (K := fun done u =>
        Grew st src dst (fun x => ∃ e ∈ done, Under (child (chain src d (j + p)) e.fname) x) t u ∧
        ∀ e ∈ done, e.fname ≠ (d j).path ∧ u.dir (child (chain src d (j + p)) e.fname) ≠ none)
      (fun done ent rest u hdirs ⟨hgrew', hdone⟩ => ?_) n l [] t rfl hnamed
      ⟨.refl _ hgrew.good, nofun⟩).mono fun r u ⟨hr, _, hno⟩ => ⟨hr, (hno _ hin).1 rfl⟩
    by_cases hent : ent.fname = (d j).path
    · -- the next directory of the chain
      have hready' : Ready pattern src p d (j + 1) u := by
        refine ⟨fun i hi => ?_, fun hp => ?_⟩
        · refine hgrew'.grows.ne_none ?_
          by_cases hlast : i + 1 < p
          · refine hgrew.grows.ne_none ?_
            have hthere := hready.there (i + 1) hlast
            rwa [Nat.add_comm i 1, ← Nat.add_assoc] at hthere
          · rwa [show j + 1 + i = j + p by omega]
        · subst hp
          obtain ⟨hnone, e, hne, hm, hthere⟩ := hready.other rfl
          have hperiod : d (j + 1) = d j := hround.periodic j
          refine ⟨?_, e, by rwa [hperiod], hm, ?_⟩
          · -- nothing was below the directory that was made, and the copies have other names
            by_contra hnew
            have hs : s.dir (chain src d (j + 1 + 1)) = none := by
              by_contra hthere
              obtain ⟨l', hl', -⟩ := hgood.fine.closed (normal_chain hinto.normal d (j + 1)) hthere
              rw [hnone] at hl'
              cases hl'
            have ht : t.dir (chain src d (j + 1 + 1)) = none := by
              by_contra hthere
              have heq := hgrew.only _ hs hthere
              rw [hdest] at heq
              have hself : Under (chain src d (j + 1 + 1)) (chain src d (j + 1)) := by
                rw [heq]
                exact .refl _
              exact not_under_of_child _ _ hself
            obtain ⟨e', he', hunder'⟩ := hgrew'.only _ ht hnew
            obtain ⟨name, hname⟩ : ∃ name : Name, e'.fname = name.path := by
              refine hnamed e' (List.mem_of_mem_filter (p := Dirent.isDir) ?_)
              rw [hdirs]
              exact List.mem_append_left _ he'
            rw [hname] at hunder'
            have heq := name_eq_of_under hunder' (.refl _ : Under _ (chain src d (j + 1 + 1)))
            rw [hperiod] at heq
            exact (hdone e' he').1 (hname.trans heq)
          · -- the other directory was there at the first look, so that it comes before
            obtain ⟨l', hl', he⟩ := hgood.fine.closed hq hthere
            cases Option.some.inj (hl₁.symm.trans hl')
            obtain ⟨k, more, hk, hfilter⟩ := hgrew.grows _ l₁ hl₁
            cases Option.some.inj (hl.symm.trans hk)
            have hnot : ent ∉ l₁.filter Dirent.isDir := by
              intro hmem
              obtain ⟨hmem, hdir⟩ := List.mem_filter.mp hmem
              have hlisted : { fname := (d j).path, isDir := true } ∈ l₁ := by
                rw [← hent, ← hdir]
                exact hmem
              exact hgood.fine.listed hq hl₁ hlisted hnone
            have hbefore : ∀ x ∈ l₁.filter Dirent.isDir, x ∈ done := by
              rw [hfilter] at hdirs
              rcases List.append_eq_append_iff.mp hdirs with ⟨a, hdone, -⟩ | ⟨a, hl, ha⟩
              · rw [hdone]
                exact fun x hx => List.mem_append_left _ hx
              · cases a with
                | nil =>
                  rw [hl, List.append_nil]
                  exact fun x hx => hx
                | cons x a =>
                  obtain ⟨rfl, -⟩ := List.cons.inj ha
                  exact absurd (hl ▸ List.mem_append_right _ List.mem_cons_self) hnot
            exact (hdone _ (hbefore _ (List.mem_filter.mpr ⟨he, rfl⟩))).2
      rw [hent]
      exact (ih (j + 1) u hgrew'.good hready').mono fun _ _ h => h.elim
    · -- another one, whose walk comes to an end
      have hmem : ent ∈ l.filter Dirent.isDir := by
        rw [hdirs]
        exact List.mem_append_right _ List.mem_cons_self
      obtain ⟨hmem, hdir⟩ := List.mem_filter.mp hmem
      obtain ⟨name, hname⟩ := hnamed ent hmem
      have hentry : { fname := name.path, isDir := true } ∈ l := by
        rw [← hname, ← hdir]
        exact hmem
      have hchild : destOf src dst (child (chain src d j) name.path) =
          child (chain src d (j + p)) name.path := by
        rw [destOf_child hunder, hdest]
      rw [hname] at hent ⊢
      refine (runs_walk hinto n (child (chain src d j) name.path) u (hq.child name)
        (hunder.trans (under_child _ _)) hgrew'.good
        (hgrew'.grows.ne_none (hgrew.good.fine.listed hq hl hentry))
        ⟨_, name, hchild, normal_chain hinto.normal d _, hgrew'.grows.ne_none hmade⟩).mono
          fun go v ⟨hgo, hgrew'', hmade''⟩ => ⟨hgo, ?_, fun e he => ?_⟩
      · refine (hgrew'.mono fun x ⟨e, he, hx⟩ => ⟨e, List.mem_append_left _ he, hx⟩).trans
          (hgrew''.mono fun x hx => ⟨ent, List.mem_append_right _ List.mem_cons_self, ?_⟩)
        rwa [hname, ← hchild]
      · rcases List.mem_append.mp he with he | he
        · exact ⟨(hdone e he).1, hgrew''.grows.ne_none (hdone e he).2⟩
        · rw [List.mem_singleton.mp he, hname, ← hchild]
          exact ⟨hent, hmade''⟩

end Chain

end

end Alcor.Proofs.Shell
