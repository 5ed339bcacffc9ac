import Alcor.Proofs.Shell.Endless
import Alcor.Proofs.Shell.Jobs

/-!
# `Alcor.Proofs.Shell.RecursiveCopy`: what `cp -R` and `mv -R` copy

The commands on any tree, with the source and the destination wherever
they are. `recursive_copy_iff` has the two halves:

* where the walk does not come to what it makes, or the two are one
  directory, the commands come to an end, and what they leave behind is
  what it should be exactly under the condition `Job.Holds`;
* where the destination is new and below the source, and the mask lets
  the walk follow its own copies (`Job.GoesRound`), they never come to an
  end.

Trees that are apart are among the first (`clear_of_apart`), but so is
`mv -R` of a directory into one above it, and a copy of a directory into
itself if the walk does not go down. `copy_misses` has a job of each
half that does not do what it should.
-/

set_option autoImplicit false

namespace Alcor.Proofs.Shell

open Alcor.Shell

variable {x : Path × Dirent}

/-! ### The condition -/

/-- The path of names in a directory. -/
def below (path : Path) (names : List Name) : Path :=
  names.foldl (fun q name => child q name.path) path

namespace Job

/-- The walk does not come to what it makes. -/
def Clear (j : Job) (hasdirs : Path → Bool) : Prop :=
  Shell.Clear j.pattern hasdirs j.st j.src j.dst j.tree

/-- The commands take the names of source and destination for those of
one file. -/
def Refuses (j : Job) : Prop := Shell.Refuses j.src j.dst j.flags.move

/-- A move takes a file away from a path. -/
def Takes (j : Job) (hasdirs : Path → Bool) (p : Path) : Prop :=
  j.flags.move = true ∧ ∃ x ∈ j.files, j.Reaches hasdirs x.1 ∧ p = child x.1 x.2.fname

/-- Every file that matches is in a directory that the walk enters, or
was at its place before and stays there; and every file at the
destination is overwritten, or moved away. -/
structure Complete (j : Job) (hasdirs : Path → Bool) : Prop where
  covers : ∀ x ∈ j.files, j.Reaches hasdirs x.1 ∨
    j.st.file (j.place x) = j.st.file (child x.1 x.2.fname) ∧ ¬ j.Takes hasdirs (j.place x)
  replaces : ∀ p, Under j.root p → j.st.file p ≠ none →
    (∃ x ∈ j.files, p = j.place x) ∨ j.Takes hasdirs p

/-- When the commands do what they should: names that they refuse have
to be as they should be before. -/
structure Holds (j : Job) (hasdirs : Path → Bool) : Prop where
  refused : j.Refuses → j.Has j.st j.files
  complete : ¬ j.Refuses → j.Complete hasdirs

/-- The destination is new and below the source, by names that all match
if there are two or more. With one, the destination directory is the
source, which then has a directory in it that matches. -/
structure GoesRound (j : Job) (names : List Name) : Prop where
  root : j.root = below j.src names
  goes : 2 ≤ names.length ∧ (∀ name ∈ names, cmnPatternMatches name.path j.pattern = true) ∨
    names.length = 1 ∧ ∃ p ∈ j.tree.subs, cmnPatternMatches p.1.path j.pattern = true
  fresh : Fresh j.st j.src j.dst
  fine : Fine j.st

end Job

/-- Where neither of source and destination is below the other one, the
walk does not come to what it makes. -/
theorem clear_of_apart {pattern : Path} {hasdirs : Path → Bool} {st : Disk} {src dst : Path}
    {tree : Dir} (hunder : ¬ Under src (destRoot src dst))
    (habove : ¬ Under (destRoot src dst) src) : Clear pattern hasdirs st src dst tree where
  apart {q q' _ _} hin hin' heq := by
    have hdest : Under (destRoot src dst) (destOf src dst q') := under_destOf hin'.inTree.under
    rw [← heq] at hdest
    rcases hin.inTree.under.total hdest with h | h
    · exact hunder h
    · exact habove h
  stays _ {_} hin := absurd (hin.inTree.under.trans (under_child dst (lastName src))) hunder

section
variable {hasdirs : Path → Bool} (j : Job)

/-! ### What the walk leaves behind -/

theorem mem_files :
    x ∈ j.files ↔ (∃ dir, InTree j.src j.tree x.1 dir ∧ x.2 ∈ dir.entries) ∧
      cmnPatternMatches x.2.fname j.pattern = true ∧ x.2.isDir = false := by
  unfold Job.files
  rw [List.mem_filter, List.mem_filter]
  constructor
  · rintro ⟨⟨hx, hmatch⟩, hfile⟩
    exact ⟨inTree_of_mem j.source.normal hx, hmatch, by simpa using hfile⟩
  · rintro ⟨⟨dir, hin, he⟩, hmatch, hfile⟩
    exact ⟨⟨hin.mem_allEntries j.source.normal (mem_here he), hmatch⟩, by simpa using hfile⟩

/-- The files that the walk visits are those that match in the
directories that it enters. -/
theorem visited_iff :
    x ∈ visited (walkCalls j.pattern true hasdirs j.src j.tree) ∧ x.2.isDir = false ↔
      x ∈ j.files ∧ j.Reaches hasdirs x.1 := by
  obtain ⟨q, e⟩ := x
  rw [mem_files, mem_visited_walkCalls j.source.normal]
  constructor
  · rintro ⟨⟨dir, hin, he, hmatch⟩, hfile⟩
    exact ⟨⟨⟨dir, hin.inTree, he⟩, hmatch, hfile⟩, dir, hin⟩
  · rintro ⟨⟨⟨dir, hin, he⟩, hmatch, hfile⟩, dir', hin'⟩
    have hentries : dir.entries = dir'.entries := Option.some.inj
      ((j.source.dirs _ _ hin).symm.trans (j.source.dirs _ _ hin'.inTree))
    exact ⟨⟨dir', hin', hentries ▸ he, hmatch⟩, hfile⟩

/-- Files of the tree with one destination are one. -/
theorem file_unique {y : Path × Dirent} (hx : x ∈ j.files) (hy : y ∈ j.files)
    (h : j.place x = j.place y) : x = y := by
  obtain ⟨⟨dir, hin, he⟩, -, -⟩ := (mem_files j).mp hx
  obtain ⟨⟨dir', hin', he'⟩, -, -⟩ := (mem_files j).mp hy
  have hchild := destOf_injective (hin.under.trans (under_child _ _))
    (hin'.under.trans (under_child _ _)) h
  obtain ⟨hq, hent⟩ := j.source.child_unique hin hin' he he' hchild
  exact Prod.ext hq hent

theorem under_place (hx : x ∈ j.files) : Under j.root (j.place x) := by
  obtain ⟨⟨dir, hin, -⟩, -, -⟩ := (mem_files j).mp hx
  exact under_destOf (hin.under.trans (under_child _ _))

/-- What is at the destination after the walk is what should be there
exactly if the walk was complete. -/
theorem has_iff {fails : Nat → Bool} (hall : AllSucceed fails) {t : Disk}
    (h : Contents j.pattern hasdirs fails j.flags.move j.st j.src j.dst j.tree
      (walkCalls j.pattern true hasdirs j.src j.tree) t) :
    j.Has t j.files ↔ j.Complete hasdirs := by
  have hcopied : ∀ x ∈ j.files, j.Reaches hasdirs x.1 →
      t.file (j.place x) = j.st.file (child x.1 x.2.fname) := by
    intro x hx hreach
    obtain ⟨hv, hfile⟩ := (visited_iff j).mpr ⟨hx, hreach⟩
    exact h.copied hall x.1 x.2 hv hfile
  have htaken : ∀ {p}, j.Takes hasdirs p → t.file p = none := by
    rintro p ⟨hmove, x, hx, hreach, rfl⟩
    obtain ⟨hv, hfile⟩ := (visited_iff j).mpr ⟨hx, hreach⟩
    exact h.moved hall hmove x.1 x.2 hv hfile
  -- a file that is none of those that were made or taken away
  have hother : ∀ {p}, (∀ x ∈ j.files, j.Reaches hasdirs x.1 → p ≠ j.place x) →
      ¬ j.Takes hasdirs p → t.file p = j.st.file p := by
    intro p hplace htakes
    by_cases hsrc : ∃ x ∈ j.files, j.Reaches hasdirs x.1 ∧ p = child x.1 x.2.fname
    · obtain ⟨x, hx, hreach, rfl⟩ := hsrc
      obtain ⟨hv, hfile⟩ := (visited_iff j).mpr ⟨hx, hreach⟩
      have hmove : j.flags.move = false :=
        Bool.eq_false_of_not_eq_true fun hmove => htakes ⟨hmove, x, hx, hreach, rfl⟩
      exact h.kept hmove x.1 x.2 hv hfile
    · refine h.other p fun q e hv hfile => ?_
      obtain ⟨hx, hreach⟩ := (visited_iff j).mp ⟨hv, hfile⟩
      exact ⟨fun heq => hsrc ⟨(q, e), hx, hreach, heq⟩, hplace (q, e) hx hreach⟩
  have hcontent : ∀ x ∈ j.files, ∃ c, j.st.file (child x.1 x.2.fname) = some c := by
    intro x hx
    obtain ⟨⟨dir, hin, he⟩, -, hfile⟩ := (mem_files j).mp hx
    exact j.source.files _ dir _ hin he hfile
  constructor
  · intro hhas
    refine ⟨fun x hx => or_iff_not_imp_left.mpr fun hreach => ?_, fun p hp hthere => ?_⟩
    · -- the file is at its place, but the walk has not put it there
      obtain ⟨c, hc⟩ := hcontent x hx
      have ht : t.file (j.place x) = some c :=
        (hhas _ c (under_place j hx)).mpr ⟨x, hx, rfl, hc⟩
      have htakes : ¬ j.Takes hasdirs (j.place x) := by
        intro htakes
        rw [htaken htakes] at ht
        cases ht
      refine ⟨?_, htakes⟩
      rw [hc, ← ht]
      refine (hother (fun y hy hyreach heq => hreach ?_) htakes).symm
      rwa [file_unique j hx hy heq]
    · by_contra hno
      rw [not_or] at hno
      obtain ⟨c, hc⟩ := Option.ne_none_iff_exists'.mp hthere
      have ht : t.file p = some c := by
        rw [hother (fun x hx _ heq => hno.1 ⟨x, hx, heq⟩) hno.2, hc]
      obtain ⟨x, hx, heq, -⟩ := (hhas p c hp).mp ht
      exact hno.1 ⟨x, hx, heq⟩
  · rintro ⟨hcovers, hreplaces⟩ p c hp
    constructor
    · intro ht
      by_cases hmade : ∃ x ∈ j.files, j.Reaches hasdirs x.1 ∧ p = j.place x
      · obtain ⟨x, hx, hreach, rfl⟩ := hmade
        rw [hcopied x hx hreach] at ht
        exact ⟨x, hx, rfl, ht⟩
      · have htakes : ¬ j.Takes hasdirs p := by
          intro htakes
          rw [htaken htakes] at ht
          cases ht
        have hold := hother (fun x hx hreach heq => hmade ⟨x, hx, hreach, heq⟩) htakes
        rw [hold] at ht
        obtain ⟨x, hx, rfl⟩ := (hreplaces p hp (by rw [ht]; exact Option.some_ne_none c)).resolve_right
          htakes
        have hreach : ¬ j.Reaches hasdirs x.1 := fun hreach => hmade ⟨x, hx, hreach, rfl⟩
        exact ⟨x, hx, rfl, ((hcovers x hx).resolve_left hreach).1 ▸ ht⟩
    · rintro ⟨x, hx, rfl, hc⟩
      rcases Classical.em (j.Reaches hasdirs x.1) with hreach | hreach
      · rw [hcopied x hx hreach, hc]
      · obtain ⟨hsame, htakes⟩ := (hcovers x hx).resolve_left hreach
        rw [hother (fun y hy hyreach heq => hreach ?_) htakes, hsame, hc]
        rwa [file_unique j hx hy heq]

/-! ### Commands that come to an end -/

/-- A command that comes to an end does what it should if what it leaves
behind says so. -/
theorem faithful_iff_of_ends {P : Disk → Prop} {holds : Prop}
    (hends : ∀ fails, ∃ bound, ∀ n, bound ≤ n →
      Ends (fun _ t => AllSucceed fails → P t) (j.run fails hasdirs n) j.st)
    (hiff : ∀ t, P t → (j.Has t j.files ↔ holds)) : j.Faithful hasdirs ↔ holds := by
  constructor
  · intro h
    -- both statements are about the same run, of operations that all succeed
    obtain ⟨bound, hfaithful⟩ := h noFails
    obtain ⟨bound', hleaves⟩ := hends noFails
    obtain ⟨_, t, hrun, hhas⟩ := (hfaithful _ (Nat.le_max_left bound bound')).exists_run []
    obtain ⟨_, u, hrun', hP⟩ := (hleaves _ (Nat.le_max_right bound bound')).exists_run []
    cases (Prod.mk.inj (hrun.symm.trans hrun')).2
    exact (hiff _ (hP fun _ => rfl)).mp (hhas fun _ => rfl)
  · intro h fails
    obtain ⟨bound, hleaves⟩ := hends fails
    exact ⟨bound, fun n hn => (hleaves n hn).mono fun _ t ht hall => (hiff t (ht hall)).mpr h⟩

/-- A walk that keeps an invariant on the calls takes the command to the
one with all calls. -/
theorem ends_job {fails : Nat → Bool} {I : List Call → Disk → Prop} {n : Nat}
    (hsize : j.tree.size + 3 ≤ n)
    (hkeeps : Keeps fails j.pattern true hasdirs j.src j.tree
      (cpWalkdirCb (diskEnv fails hasdirs) j.size n (copyState j.src j.dst j.flags)) I)
    (hstart : ∀ s, Same j.st s → I [] s) :
    Ends (fun _ t => AllSucceed fails → I (walkCalls j.pattern true hasdirs j.src j.tree) t)
      (j.run fails hasdirs n) j.st := by
  refine runs_job j (fun hbad t hall => absurd hall hbad) fun s hs => ?_
  refine (ends_walk hkeeps j.source.normal j.source.distinct n j.src j.tree [] s hsize .top
    (fun _ hc => nomatch hc) (hstart s hs)).mono fun go t hgo hall => ?_
  cases go with
  | false => exact absurd hall hgo
  | true => exact hgo

/-- Files that are not refused. -/
theorem faithful_clear (hclear : j.Clear hasdirs) (hnot : ¬ j.Refuses) :
    j.Faithful hasdirs ↔ j.Complete hasdirs := by
  refine faithful_iff_of_ends j (P := fun t => ∃ fails, AllSucceed fails ∧
    Contents j.pattern hasdirs fails j.flags.move j.st j.src j.dst j.tree
      (walkCalls j.pattern true hasdirs j.src j.tree) t)
    (fun fails => ?_) fun t ⟨fails, hall, h⟩ => has_iff j hall h
  obtain ⟨bound, hbound⟩ := exists_steps j
  refine ⟨bound, fun n hle => ?_⟩
  obtain ⟨hsize, hn⟩ := hbound n hle
  refine (ends_job j hsize (keeps_progress j.source hclear hnot j.size_pos j.simulateOnly hn)
    fun s hs => ⟨j.source.listing hs.dir, contents_nil hs.file⟩).mono fun _ t ht hall => ?_
  exact ⟨fails, hall, (ht hall).2⟩

/-- Files that are refused stay as they are. -/
theorem faithful_refused (h : j.Clear hasdirs ∨ j.src = j.root) (href : j.Refuses) :
    j.Faithful hasdirs ↔ j.Has j.st j.files := by
  have hsame : ∀ t : Disk, t.file = j.st.file → (j.Has t j.files ↔ j.Has j.st j.files) := by
    intro t ht
    unfold Job.Has
    rw [ht]
  refine faithful_iff_of_ends j (P := fun t => t.file = j.st.file) (fun fails => ?_) hsame
  refine ⟨j.tree.size + 3, fun n hsize => ?_⟩
  rcases h with hclear | hroot
  · exact (ends_job j hsize (keeps_refused j.source hclear href j.size n j.simulateOnly)
      fun s hs => ⟨j.source.listing hs.dir, hs.file⟩).mono fun _ t ht hall => (ht hall).2
  · exact (ends_job j hsize (keeps_self j.source hroot j.size n j.simulateOnly)
      fun s hs => ⟨hs.dir, hs.file⟩).mono fun _ t ht hall => (ht hall).2

/-! ### Commands that do not come to an end -/

theorem below_append (path : Path) (names : List Name) (name : Name) :
    below path (names ++ [name]) = child (below path names) name.path := by
  unfold below
  rw [List.foldl_append]
  rfl

/-- The names of a list, again and again. -/
def around (names : List Name) (h : 0 < names.length) (i : Nat) : Name :=
  names.get ⟨i % names.length, Nat.mod_lt i h⟩

theorem chain_around (path : Path) (names : List Name) (h : 0 < names.length) (k : Nat)
    (hk : k ≤ names.length) : chain path (around names h) k = below path (names.take k) := by
  induction k with
  | zero => rfl
  | succ k ih =>
    have hname : around names h k = names.get ⟨k, hk⟩ := by
      unfold around
      congr 2
      exact Nat.mod_eq_of_lt hk
    rw [chain, ih (Nat.le_of_succ_le hk), hname, List.take_succ_eq_append_getElem hk, below_append]
    rfl

theorem length_chain (path : Path) (d : Nat → Name) (i : Nat) :
    path.length + i ≤ (chain path d i).length := by
  induction i with
  | zero => exact Nat.le_refl _
  | succ i ih =>
    have hlen : (chain path d (i + 1)).length = (chain path d i).length + ((d i).path.length + 1) :=
      List.length_append
    omega

/-- A copy into what is copied does not come to an end. -/
theorem never_ends {names : List Name} (h : j.GoesRound names) (n : Nat) :
    ¬ Ends (fun _ _ => True) (j.run noFails hasdirs n) j.st := by
  have hpos : 0 < names.length := by
    rcases h.goes with h | h
    · omega
    · omega
  have hroot : destRoot j.src j.dst = chain j.src (around names hpos) names.length := by
    rw [chain_around _ _ _ _ (Nat.le_refl _), List.take_length]
    exact h.root
  have hround : Round j.src j.dst names.length (around names hpos) := by
    refine ⟨hpos, fun i => ?_, hroot⟩
    unfold around
    congr 2
    exact Nat.add_mod_right i _
  have hinto : Into j.st j.src j.dst j.flags j.size := by
    refine ⟨j.source.normal, j.source.normal_dst, ?_, j.size_pos, j.simulateOnly, h.fresh⟩
    have hlen := length_chain j.src (around names hpos) names.length
    rw [← hroot] at hlen
    omega
  have hgood : Good j.st j.src j.dst j.st := ⟨h.fine, fun _ hp => .old hp, fun _ hp => .old hp⟩
  have hnone : j.st.dir (destRoot j.src j.dst) = none := h.fresh.no_dir _ (.refl _)
  -- the directories down to the destination
  have hthere : ∀ k, k < names.length →
      j.st.dir (chain j.src (around names hpos) (names.length - 1 - k)) ≠ none := by
    intro k
    induction k with
    | zero =>
      intro _
      have hparent := congrArg parent hroot
      rw [parent_destRoot, show names.length = names.length - 1 + 1 by omega, chain,
        parent_child _ (Name.no_slash _)] at hparent
      rw [Nat.sub_zero, ← hparent]
      exact j.dst_there
    | succ k ih =>
      intro hk
      have hchild := ih (by omega)
      rw [show names.length - 1 - k = names.length - 1 - (k + 1) + 1 by omega, chain] at hchild
      obtain ⟨l, hl, -⟩ := h.fine.closed (normal_chain j.source.normal _ _) hchild
      rw [hl]
      exact Option.some_ne_none l
  have hready : Ready j.pattern j.src names.length (around names hpos) 0 j.st := by
    refine ⟨fun i hi => ?_, fun hp => ?_⟩
    · have hi' := hthere (names.length - 1 - i) (by omega)
      rwa [show names.length - 1 - (names.length - 1 - i) = 0 + i by omega] at hi'
    · rw [hp] at hroot
      rcases h.goes with ⟨htwo, -⟩ | ⟨-, p, hsub, hmatch⟩
      · omega
      have hdir := j.source.dirs _ _ (.down .top hsub)
      have hsome : j.st.dir (child j.src p.1.path) ≠ none := by
        rw [hdir]
        exact Option.some_ne_none _
      refine ⟨by rwa [Nat.zero_add, ← hroot], p.1, fun heq => hsome ?_, hmatch, hsome⟩
      rw [heq]
      rwa [hroot] at hnone
  have hmatch : names.length ≠ 1 →
      ∀ i, cmnPatternMatches (around names hpos i).path j.pattern = true := by
    intro hne i
    rcases h.goes with ⟨-, hall⟩ | ⟨hone, -⟩
    · exact hall _ (List.get_mem names _)
    · exact absurd hone hne
  intro hends
  obtain ⟨x, t, hrun, -⟩ := hends.exists_run []
  have hnever : Runs False (fun _ _ => False) (j.run noFails hasdirs n) j.st := by
    refine runs_job j (fun hbad => absurd (fun _ => rfl) hbad) fun s hs => ?_
    refine never_walk hinto hround hmatch n 0 s (hgood.congr hs.file hs.dir) ⟨?_, ?_⟩
    · rw [hs.dir]
      exact hready.there
    · rw [hs.dir]
      exact hready.other
  have hfalse := hnever []
  rw [hrun] at hfalse
  exact hfalse

end

/-! ### A mask, and a copy into what is copied -/

/-- `/a` with a directory `d`, and in it a file `x.c`; and an empty directory `/b`. -/
def nestedDisk : Disk where
  dir path :=
    if path = [47, 97] then some nested.entries
    else if path = [47, 97, 47, 100] then some [{ fname := [120, 46, 99], isDir := false }]
    else if path = [47, 98] then some [] else none
  file path := if path = [47, 97, 47, 100, 47, 120, 46, 99] then some [1] else none

theorem nested_inTree {q : Path} {dir : Dir} (h : InTree [47, 97] nested q dir) :
    q = [47, 97] ∧ dir = nested ∨ q = [47, 97, 47, 100] ∧
      dir = .file ⟨[120, 46, 99], by decide, by decide⟩ .empty := by
  induction h with
  | top => exact .inl ⟨rfl, rfl⟩
  | down _ hp ih =>
    rcases ih with ⟨rfl, rfl⟩ | ⟨rfl, rfl⟩
    · rw [List.mem_singleton.mp hp]
      exact .inr ⟨rfl, rfl⟩
    · cases hp

/-- The tree can be copied to a directory if there is nothing yet where
its two directories and the file go. -/
theorem nested_source {dst : Path} (hdst : Normal dst)
    (hdir : nestedDisk.dir (destOf [47, 97] dst [47, 97, 47, 100, 47, 120, 46, 99]) = none)
    (hfile : nestedDisk.file (destOf [47, 97] dst [47, 97]) = none)
    (hfile' : nestedDisk.file (destOf [47, 97] dst [47, 97, 47, 100]) = none) :
    Source nestedDisk [47, 97] dst nested where
  normal := ⟨rfl, by decide⟩
  normal_dst := hdst
  distinct := ⟨List.not_mem_nil, ⟨List.not_mem_nil, trivial⟩, trivial⟩
  dirs q dir hin := by
    rcases nested_inTree hin with ⟨rfl, rfl⟩ | ⟨rfl, rfl⟩
    · rfl
    · rfl
  files q dir e hin he hfile := by
    rcases nested_inTree hin with ⟨rfl, rfl⟩ | ⟨rfl, rfl⟩
    · rw [List.mem_singleton.mp he] at hfile
      cases hfile
    · rw [List.mem_singleton.mp he]
      exact ⟨[1], rfl⟩
  no_dir q dir e hin he hfalse := by
    rcases nested_inTree hin with ⟨rfl, rfl⟩ | ⟨rfl, rfl⟩
    · rw [List.mem_singleton.mp he] at hfalse
      cases hfalse
    · rw [List.mem_singleton.mp he]
      exact hdir
  no_file q dir hin := by
    rcases nested_inTree hin with ⟨rfl, rfl⟩ | ⟨rfl, rfl⟩
    · exact hfile
    · exact hfile'

/-- `cp /a/*.c /b -R`. -/
def maskedCopy : Job where
  st := nestedDisk
  size := 16
  size_pos := by decide
  isMove := false
  args := [[47, 97, 47, 42, 46, 99], [47, 98], optR]
  flags := { recursive := true }
  srcpath := [47, 97, 47, 42, 46, 99]
  dstpath := [47, 98]
  src := [47, 97]
  pattern := [42, 46, 99]
  dst := [47, 98]
  mask := allMask
  tree := nested
  two := by decide
  parsed := by decide
  recursive := rfl
  simulateOnly := rfl
  src_no_file := rfl
  src_split := by decide
  dst_no_file := rfl
  dst_split := by decide
  dst_type := by decide
  dst_there := by decide
  source := nested_source ⟨rfl, by decide⟩ rfl rfl rfl

/-- `cp /a /a/d -R`. -/
def roundCopy : Job where
  st := nestedDisk
  size := 16
  size_pos := by decide
  isMove := false
  args := [[47, 97], [47, 97, 47, 100], optR]
  flags := { recursive := true }
  srcpath := [47, 97]
  dstpath := [47, 97, 47, 100]
  src := [47, 97]
  pattern := allMask
  dst := [47, 97, 47, 100]
  mask := allMask
  tree := nested
  two := by decide
  parsed := by decide
  recursive := rfl
  simulateOnly := rfl
  src_no_file := rfl
  src_split := by decide
  dst_no_file := rfl
  dst_split := by decide
  dst_type := by decide
  dst_there := by decide
  source := nested_source ⟨rfl, by decide⟩ rfl rfl rfl

theorem masked_clear (hasdirs : Path → Bool) : maskedCopy.Clear hasdirs :=
  clear_of_apart (by unfold Under; decide) (by unfold Under; decide)

theorem masked_not_refuses : ¬ maskedCopy.Refuses := fun h => absurd h.1 (by decide)

theorem masked_files : maskedCopy.files =
    [([47, 97, 47, 100], { fname := [120, 46, 99], isDir := false })] := by decide

/-- The directories of the disk, with their entries. -/
theorem nested_dir {q : Path} (h : nestedDisk.dir q ≠ none) :
    q = [47, 97] ∨ q = [47, 97, 47, 100] ∨ q = [47, 98] := by
  unfold nestedDisk at h
  simp only at h
  split at h
  · next heq => exact .inl heq
  split at h
  · next heq => exact .inr (.inl heq)
  split at h
  · next heq => exact .inr (.inr heq)
  · exact absurd rfl h

theorem nested_file {p : Path} (h : nestedDisk.file p ≠ none) :
    p = [47, 97, 47, 100, 47, 120, 46, 99] := by
  by_contra hne
  exact h (if_neg hne)

/-- The directories of the disk and their entries belong together. -/
theorem nested_fine : Fine nestedDisk where
  named {q l} _ hl e he := by
    rcases nested_dir (q := q) (by rw [hl]; exact Option.some_ne_none l) with rfl | rfl | rfl
    · cases Option.some.inj (show some nested.entries = some l from hl)
      rw [List.mem_singleton.mp he]
      exact ⟨⟨[100], by decide, by decide⟩, rfl⟩
    · cases Option.some.inj (show some [{ fname := [120, 46, 99], isDir := false }] = some l from hl)
      rw [List.mem_singleton.mp he]
      exact ⟨⟨[120, 46, 99], by decide, by decide⟩, rfl⟩
    · cases Option.some.inj (show some [] = some l from hl)
      cases he
  listed {q l name} _ hl he := by
    rcases nested_dir (q := q) (by rw [hl]; exact Option.some_ne_none l) with rfl | rfl | rfl
    · cases Option.some.inj (show some nested.entries = some l from hl)
      have hname : name.path = [100] := congrArg Dirent.fname (List.mem_singleton.mp he)
      rw [hname]
      decide
    · cases Option.some.inj (show some [{ fname := [120, 46, 99], isDir := false }] = some l from hl)
      have hdir : true = false := congrArg Dirent.isDir (List.mem_singleton.mp he)
      cases hdir
    · cases Option.some.inj (show some [] = some l from hl)
      cases he
  closed {q name} hq h := by
    have hq' : q = parent (child q name.path) := (parent_child q name.no_slash).symm
    have hname : name.path = lastName (child q name.path) := (lastName_child q name.no_slash).symm
    rcases nested_dir h with heq | heq | heq
    · rw [heq] at hq'
      exact absurd (hq' ▸ hq).1 (by decide)
    · rw [heq] at hq' hname
      rw [hq', hname]
      exact ⟨nested.entries, by decide, by decide⟩
    · rw [heq] at hq'
      exact absurd (hq' ▸ hq).1 (by decide)

/-- The names on the way round are `d` and `a`. -/
theorem round_goesRound : roundCopy.GoesRound
    [⟨[100], by decide, by decide⟩, ⟨[97], by decide, by decide⟩] where
  root := by decide
  goes := .inl ⟨by decide, by decide⟩
  fresh := by
    refine ⟨fun p hp => ?_, fun p hp => ?_, fun p hp => ?_⟩
    · by_contra h
      rcases nested_dir h with rfl | rfl | rfl
      · exact absurd hp (by unfold Under; decide)
      · exact absurd hp (by unfold Under; decide)
      · exact absurd hp (by unfold Under; decide)
    · by_contra h
      rw [nested_file h] at hp
      exact absurd hp (by unfold Under; decide)
    · rcases nested_dir hp with rfl | rfl | rfl
      · rfl
      · rfl
      · rfl
  fine := nested_fine

end Alcor.Proofs.Shell
