import Alcor.Proofs.Shell.CopyTree

/-!
# `Alcor.Proofs.Shell.Jobs`: calls of `cp -R` and `mv -R`

A `Job` is a call with a directory, or a mask in one, as the source and a
directory as the destination, on any tree and wherever the two are. The
types of the paths, which are looked up first, are as they should be
unless an operation fails.

* `Job.Faithful`: what such a call should do.
* `exists_steps`: a number of steps that is enough for the tree and for
  the longest file.
* `runs_job`: the call is the walk of the source, unless an operation
  fails before it.
-/

set_option autoImplicit false

namespace Alcor.Proofs.Shell

open Alcor.Shell

variable {x : Path × Dirent} {q : Path} {dir : Dir}

/-! ### Types of paths -/

/-- `cmn_fs_get_type`, for a path that is a file or not, and can be opened as a directory or not. -/
def typeOf (isFile there : Bool) (path : Path) : FsType :=
  if isInvalid path then .ERROR
  else if SLASH ∉ path.drop 1 then .DIR
  else if path.getLast? = some SLASH then if there then .DIR else .DIR_NOT_FOUND
  else if isPattern path then .PATTERN
  else if isFile then .FILE
  else if there then .DIR else .UNKNOWN_NOT_FOUND

section
variable {enough : Prop} {fails : Nat → Bool} {hasdirs : Path → Bool}

/-- The type of a path, where a directory may be refused when an
operation fails. -/
theorem runs_getType (path : Path) (s : Disk) :
    Runs enough (fun ty t => Same s t ∧ ∃ there, ty = typeOf (s.file path).isSome there path ∧
        (AllSucceed fails → there = (s.dir (plain path)).isSome))
      (cmnFsGetType (diskEnv fails hasdirs) path) s := by
  -- the cases in which no directory is opened say nothing about it
  have hany : ∀ {ty : FsType}, (∀ there, ty = typeOf (s.file path).isSome there path) →
      Same s s ∧ ∃ there, ty = typeOf (s.file path).isSome there path ∧
        (AllSucceed fails → there = (s.dir (plain path)).isSome) :=
    fun h => ⟨.refl s, _, h _, fun _ => rfl⟩
  have hopened : ∀ {there : Bool} {t : Disk} {ty : FsType},
      (t = s.tick ∧ (AllSucceed fails → there = (s.dir (plain path)).isSome)) →
      ty = typeOf (s.file path).isSome there path →
      Same s t ∧ ∃ there, ty = typeOf (s.file path).isSome there path ∧
        (AllSucceed fails → there = (s.dir (plain path)).isSome) := by
    rintro there t ty ⟨rfl, hthere⟩ hty
    exact ⟨(Same.refl s).tick, there, hty, hthere⟩
  unfold cmnFsGetType
  refine runs_ite (fun h₁ => runs_pure (hany fun _ => ?_)) fun h₁ => ?_
  · rw [typeOf, if_pos h₁]
  refine runs_ite (fun h₂ => runs_pure (hany fun _ => ?_)) fun h₂ => ?_
  · rw [typeOf, if_neg h₁, if_pos h₂]
  refine runs_ite (fun h₃ => ?_) fun h₃ => ?_
  · refine runs_bind ((runs_canOpendir path s).mono fun there t ht => runs_pure ?_)
    refine hopened ht ?_
    rw [typeOf, if_neg h₁, if_neg h₂, if_pos h₃]
  refine runs_ite (fun h₄ => runs_pure (hany fun _ => ?_)) fun h₄ => ?_
  · rw [typeOf, if_neg h₁, if_neg h₂, if_neg h₃, if_pos h₄]
  refine runs_bind (runs_look (runs_ite (fun h₅ => runs_pure (hany fun _ => ?_)) fun h₅ => ?_))
  · have hfile : (s.file path).isSome = true := h₅
    rw [typeOf, if_neg h₁, if_neg h₂, if_neg h₃, if_neg h₄, if_pos hfile]
  refine runs_bind ((runs_canOpendir path s).mono fun there t ht => runs_pure ?_)
  refine hopened ht ?_
  have hfile : ¬ (s.file path).isSome = true := h₅
  rw [typeOf, if_neg h₁, if_neg h₂, if_neg h₃, if_neg h₄, if_neg hfile]

/-- A path is split into a directory and a mask; nothing changes. -/
theorem runs_splitPath (path : Path) (s : Disk) :
    Runs enough (fun r t => t = s ∧ r = splitOf (fun p => (s.file p).isSome) path)
      (cmnFsSplitPath (diskEnv fails hasdirs) path) s := by
  have hdup : ∀ dir mask : Path, Runs enough (fun r t => t = s ∧ r = some (dir, mask))
      (do
        let d ← strdup (diskEnv fails hasdirs) dir
        return d.map fun d => (d, mask)) s := fun dir mask =>
    runs_bind (runs_bind (runs_look (runs_pure (runs_pure ⟨rfl, rfl⟩))))
  unfold cmnFsSplitPath
  refine runs_ite (fun h₁ => runs_pure ⟨rfl, ?_⟩) fun h₁ => ?_
  · rw [splitOf, if_pos h₁]
  refine runs_ite (fun h₂ => ?_) fun h₂ => ?_
  · rw [splitOf, if_neg h₁, if_pos h₂]
    exact hdup _ _
  refine runs_ite (fun h₃ => ?_) fun h₃ => ?_
  · rw [splitOf, if_neg h₁, if_neg h₂, if_pos h₃]
    exact hdup _ _
  refine runs_ite (fun h₄ => ?_) fun h₄ => ?_
  · rw [splitOf, if_neg h₁, if_neg h₂, if_neg h₃, if_pos h₄]
    exact hdup _ _
  refine runs_bind (runs_look (runs_ite (fun h₅ => ?_) fun h₅ => ?_))
  · have hfile : (s.file path).isSome = true := h₅
    rw [splitOf, if_neg h₁, if_neg h₂, if_neg h₃, if_neg h₄, if_pos hfile]
    exact hdup _ _
  · have hfile : ¬ (s.file path).isSome = true := h₅
    rw [splitOf, if_neg h₁, if_neg h₂, if_neg h₃, if_neg h₄, if_neg hfile]
    exact hdup _ _

end

/-- A path that is no file is a mask or a directory, and then the directory it is split into. -/
theorem typeOf_of_split {isFile : Path → Bool} {path dir mask : Path}
    (h : splitOf isFile path = some (dir, mask)) (hfile : isFile path = false) (there : Bool) :
    typeOf false there path = .PATTERN ∨
      plain path = dir ∧ (typeOf false there path = .DIR ∨ there = false ∧
        (typeOf false there path = .DIR_NOT_FOUND ∨
          typeOf false there path = .UNKNOWN_NOT_FOUND)) := by
  unfold splitOf at h
  unfold typeOf
  split at h
  · cases h
  next h₁ =>
  rw [if_neg h₁]
  split at h
  · next h₂ =>
    rw [if_pos h₂]
    cases h
    refine .inr ⟨?_, .inl rfl⟩
    -- the path has one slash, the first character, and more than that
    unfold plain
    rw [if_neg]
    intro hlast
    cases path with
    | nil => cases hlast
    | cons c rest =>
      cases rest with
      | nil => exact h₁ rfl
      | cons c' rest =>
        rw [List.getLast?_cons_of_ne_nil (List.cons_ne_nil c' rest)] at hlast
        exact h₂ (List.mem_of_getLast? hlast)
  next h₂ =>
  rw [if_neg h₂]
  split at h
  · next h₃ =>
    rw [if_pos h₃]
    cases h
    refine .inr ⟨if_pos h₃, ?_⟩
    cases there with
    | true => exact .inl rfl
    | false => exact .inr ⟨rfl, .inl rfl⟩
  next h₃ =>
  rw [if_neg h₃]
  split at h
  · next h₄ =>
    rw [if_pos h₄]
    exact .inl rfl
  next h₄ =>
  rw [if_neg h₄]
  rw [hfile, if_neg Bool.false_ne_true] at h
  cases h
  refine .inr ⟨if_neg h₃, ?_⟩
  cases there with
  | true => exact .inl rfl
  | false => exact .inr ⟨rfl, .inr rfl⟩

/-- Whether a path is a mask does not depend on directories. -/
theorem typeOf_pattern {there : Bool} {path : Path} (h : typeOf false there path = .PATTERN)
    (there' : Bool) : typeOf false there' path = .PATTERN := by
  revert h
  unfold typeOf
  repeat' split
  all_goals first | exact fun h => h | exact nofun

/-! ### The entries of a tree -/

section
variable {root : Path} {tree : Dir}

/-- The entries of a directory and of those below it. -/
def allEntries (path : Path) (dir : Dir) : List (Path × Dirent) := dir.here path ++ dir.deeper path

theorem mem_deeper_of_mem_subs (hq : Normal q) {p : Name × Dir} (hp : p ∈ dir.subs)
    (hx : x ∈ allEntries (child q p.1.path) p.2) : x ∈ dir.deeper q := by
  induction dir with
  | empty => cases hp
  | file name rest ih => exact ih hp
  | sub name inner rest _ ih =>
    show x ∈ inner.here (Dir.inside q name) ++ inner.deeper (Dir.inside q name) ++ rest.deeper q
    rcases List.mem_cons.mp hp with rfl | hp
    · rw [inside_eq hq]
      exact List.mem_append_left _ hx
    · exact List.mem_append_right _ (ih hp)

theorem InTree.mem_allEntries (hroot : Normal root) (h : InTree root tree q dir)
    (hx : x ∈ allEntries q dir) : x ∈ allEntries root tree := by
  induction h with
  | top => exact hx
  | down h hp ih =>
    exact ih (List.mem_append_right _ (mem_deeper_of_mem_subs (h.normal hroot) hp hx))

theorem mem_here {e : Dirent} (h : e ∈ dir.entries) :
    (q, e) ∈ allEntries q dir := List.mem_append_left _ (List.mem_map_of_mem h)

/-- What is deeper is in one of the directories. -/
theorem inTree_of_mem_deeper (dir : Dir) :
    ∀ q, Normal q → (∀ p ∈ dir.subs, InTree root tree (child q p.1.path) p.2) →
      x ∈ dir.deeper q → ∃ dir', InTree root tree x.1 dir' ∧ x.2 ∈ dir'.entries := by
  induction dir with
  | empty => exact fun _ _ _ hx => nomatch hx
  | file name rest ih => exact ih
  | sub name inner rest ihinner ihrest =>
    intro q hq hsubs hx
    have hinner := hsubs (name, inner) List.mem_cons_self
    have hx' : x ∈ inner.here (Dir.inside q name) ++ inner.deeper (Dir.inside q name) ++
        rest.deeper q := hx
    rw [inside_eq hq] at hx'
    rcases List.mem_append.mp hx' with hx' | hx'
    · rcases List.mem_append.mp hx' with hx' | hx'
      · obtain ⟨e, he, rfl⟩ := List.mem_map.mp hx'
        exact ⟨inner, hinner, he⟩
      · exact ihinner _ (hq.child name) (fun p hp => .down hinner hp) hx'
    · exact ihrest q hq (fun p hp => hsubs p (List.mem_cons_of_mem _ hp)) hx'

theorem inTree_of_mem (hroot : Normal root) (hx : x ∈ allEntries root tree) :
    ∃ dir, InTree root tree x.1 dir ∧ x.2 ∈ dir.entries := by
  rcases List.mem_append.mp hx with hx | hx
  · obtain ⟨e, he, rfl⟩ := List.mem_map.mp hx
    exact ⟨tree, .top, he⟩
  · exact inTree_of_mem_deeper tree root hroot (fun p hp => .down .top hp) hx

/-- A list of files has a longest one. -/
theorem exists_bound (f : Path × Dirent → Nat) (l : List (Path × Dirent)) :
    ∃ bound, ∀ x ∈ l, f x < bound := by
  induction l with
  | nil => exact ⟨0, fun _ hx => nomatch hx⟩
  | cons y l ih =>
    obtain ⟨bound, hbound⟩ := ih
    refine ⟨max (f y + 1) bound, fun x hx => ?_⟩
    rcases List.mem_cons.mp hx with rfl | hx
    · omega
    · have hlt := hbound x hx
      omega

end

/-! ### The commands -/

/-- A call of `cp` or `mv` with `-R` and without `-s`: the source is a
directory or a mask in one, the destination a directory. -/
structure Job where
  st : Disk
  size : Nat
  size_pos : 0 < size
  isMove : Bool
  args : List Path
  flags : Flags
  srcpath : Path
  dstpath : Path
  src : Path
  pattern : Path
  dst : Path
  mask : Path
  tree : Dir
  two : 2 ≤ args.length
  parsed : cpArgs isMove args = (flags, some srcpath, some dstpath)
  recursive : flags.recursive = true
  simulateOnly : flags.simulateOnly = false
  src_no_file : st.file srcpath = none
  src_split : splitOf (fun p => (st.file p).isSome) srcpath = some (src, pattern)
  dst_no_file : st.file dstpath = none
  dst_split : splitOf (fun p => (st.file p).isSome) dstpath = some (dst, mask)
  dst_type : typeOf false true dstpath = .DIR
  dst_there : st.dir dst ≠ none
  source : Source st src dst tree

namespace Job

/-- The command. -/
def run (j : Job) (fails : Nat → Bool) (hasdirs : Path → Bool) (n : Nat) : Cmd Disk Unit :=
  cpMvCommon (diskEnv fails hasdirs) j.size n j.isMove j.args

/-- The directory of the destination that the source becomes. -/
def root (j : Job) : Path := destRoot j.src j.dst

/-- Where a file of the source goes. -/
def place (j : Job) (x : Path × Dirent) : Path := destOf j.src j.dst (child x.1 x.2.fname)

/-- The files of the source that match the mask, at every depth. -/
def files (j : Job) : List (Path × Dirent) :=
  ((allEntries j.src j.tree).filter (matchesPattern j.pattern)).filter fun e => !e.2.isDir

/-- Below the destination there are the files of a list, where they belong, with the contents that
they had before. -/
def Has (j : Job) (t : Disk) (files : List (Path × Dirent)) : Prop :=
  ∀ p c, Under j.root p →
    (t.file p = some c ↔ ∃ x ∈ files, p = j.place x ∧ j.st.file (child x.1 x.2.fname) = some c)

/-- The command comes to an end, whatever fails, and if nothing fails
then the destination has exactly the files that match. -/
def Faithful (j : Job) (hasdirs : Path → Bool) : Prop :=
  ∀ fails, ∃ bound, ∀ n, bound ≤ n →
    Ends (fun _ t => AllSucceed fails → j.Has t j.files) (j.run fails hasdirs n) j.st

/-- The walk enters a directory of the source. -/
def Reaches (j : Job) (hasdirs : Path → Bool) (q : Path) : Prop :=
  ∃ dir, Reached j.pattern true hasdirs j.src j.tree q dir

end Job

section
variable {enough : Prop} {fails : Nat → Bool} {hasdirs : Path → Bool} (j : Job)

/-- The steps that are enough: for the tree, and for the longest file. -/
theorem exists_steps : ∃ bound, ∀ n, bound ≤ n → j.tree.size + 3 ≤ n ∧
    ∀ q dir e c, InTree j.src j.tree q dir → e ∈ dir.entries →
      j.st.file (child q e.fname) = some c → c.length < n := by
  obtain ⟨bound, hbound⟩ := exists_bound
    (fun x => (j.st.bytes (child x.1 x.2.fname)).length) (allEntries j.src j.tree)
  refine ⟨max bound (j.tree.size + 3), fun n hn => ⟨by omega, fun q dir e c hin he hc => ?_⟩⟩
  have hlt := hbound (q, e) (hin.mem_allEntries j.source.normal (mem_here he))
  have hbytes : j.st.bytes (child q e.fname) = c := by
    rw [Disk.bytes, hc]
    rfl
  rw [hbytes] at hlt
  omega

/-- The type of the source; it is a directory or a mask if nothing fails. -/
theorem src_type (there : Bool) :
    typeOf false there j.srcpath ≠ .FILE ∧
      (there = (j.st.dir (plain j.srcpath)).isSome →
        typeOf false there j.srcpath = .PATTERN ∨ typeOf false there j.srcpath = .DIR) := by
  have hfile : (j.st.file j.srcpath).isSome = false := by rw [j.src_no_file]; rfl
  rcases typeOf_of_split j.src_split hfile there with h | ⟨hplain, h | ⟨hthere, h⟩⟩
  · exact ⟨by rw [h]; exact nofun, fun _ => .inl h⟩
  · exact ⟨by rw [h]; exact nofun, fun _ => .inr h⟩
  · refine ⟨by rcases h with h | h <;> rw [h] <;> exact nofun, fun heq => ?_⟩
    rw [hplain, j.source.dirs _ _ .top, hthere] at heq
    cases heq

/-- The type of the destination; it is a directory if nothing fails. -/
theorem dst_type (there : Bool) :
    typeOf false there j.dstpath ≠ .PATTERN ∧
      (typeOf false there j.dstpath ≠ .FILE ∧ typeOf false there j.dstpath ≠ .FILE_NOT_FOUND) ∧
      (there = (j.st.dir (plain j.dstpath)).isSome → typeOf false there j.dstpath = .DIR) := by
  have hfile : (j.st.file j.dstpath).isSome = false := by rw [j.dst_no_file]; rfl
  have hpattern : typeOf false there j.dstpath ≠ .PATTERN := by
    intro h
    have hdir := j.dst_type
    rw [typeOf_pattern h true] at hdir
    cases hdir
  refine ⟨hpattern, ?_⟩
  rcases typeOf_of_split j.dst_split hfile there with h | ⟨hplain, h | ⟨hthere, h⟩⟩
  · exact absurd h hpattern
  · rw [h]
    exact ⟨⟨nofun, nofun⟩, fun _ => rfl⟩
  · refine ⟨by rcases h with h | h <;> rw [h] <;> exact ⟨nofun, nofun⟩, fun heq => ?_⟩
    rw [hplain, hthere] at heq
    have hnone : ¬ (j.st.dir j.dst).isSome = true := by rw [← heq]; exact Bool.false_ne_true
    exact absurd (Option.not_isSome_iff_eq_none.mp hnone) j.dst_there

/-- The command is the walk of the source, unless an operation fails
before it. -/
theorem runs_job {Q : Disk → Prop} (hfail : ¬ AllSucceed fails → ∀ t, Q t) {n : Nat}
    (hwalk : ∀ s, Same j.st s → Runs enough (fun _ t => Q t)
      (cmnFsActualWalkdir (diskEnv fails hasdirs) (cpWalkdirCb (diskEnv fails hasdirs) j.size n
        (copyState j.src j.dst j.flags)) j.pattern true n j.src) s) :
    Runs enough (fun _ t => Q t) (j.run fails hasdirs n) j.st := by
  unfold Job.run cpMvCommon
  rw [if_neg (Nat.not_lt.mpr j.two), j.parsed]
  show Runs enough _ (cpMvPaths _ _ _ _ _ _) _
  unfold cpMvPaths
  -- the types of both paths, which are what they are only if `opendir` does not fail
  refine runs_bind ((runs_getType j.srcpath j.st).mono fun ty t ⟨ht, there, hty, hthere⟩ => ?_)
  refine runs_bind ((runs_getType j.dstpath t).mono fun ty' u ⟨hu, there', hty', hthere'⟩ => ?_)
  rw [j.src_no_file] at hty
  rw [ht.file, j.dst_no_file] at hty'
  rw [ht.dir] at hthere'
  have hus : Same j.st u := ht.trans hu
  obtain ⟨hsrcfile, hsrcgood⟩ := src_type j there
  obtain ⟨hpattern, ⟨hdstfile, hdstnone⟩, hdstgood⟩ := dst_type j there'
  subst hty hty'
  refine runs_ite (fun h => absurd h hpattern) fun _ => runs_ite (fun hinv => ?_) fun _ => ?_
  · -- a type that the command refuses is the result of an operation that has failed
    refine runs_pure (hfail (fun hall => ?_) u)
    have hdir := hdstgood (hthere' hall)
    rw [Option.isSome_none, hdir] at hinv
    rcases hsrcgood (hthere hall) with hsrc | hsrc
    · rw [hsrc] at hinv
      cases hinv
    · rw [hsrc] at hinv
      cases hinv
  -- the directories of the two paths, and the walk of the first
  refine runs_bind ((runs_splitPath j.srcpath u).mono fun r v ⟨hv, hr⟩ => ?_)
  rw [hus.file, j.src_split] at hr
  subst hr hv
  refine runs_bind ((runs_splitPath j.dstpath v).mono fun r w ⟨hw, hr⟩ => ?_)
  rw [hus.file, j.dst_split] at hr
  subst hr hw
  refine runs_ite (fun h => absurd h hsrcfile) fun _ => runs_ite (fun h => ?_) fun _ => ?_
  · rcases h with h | h
    · exact absurd h hdstfile
    · exact absurd h hdstnone
  show Runs enough _ (cmnFsWalkdir _ n j.srcpath (cpWalkdirCb _ j.size n
    { pdestdir := j.dst, psrcdir := j.src,
      dloc := if j.flags.recursive = true then SLASH :: lastName j.src else [],
      flags := j.flags }) j.flags.recursive >>= _) w
  rw [j.recursive]
  unfold cmnFsWalkdir
  refine runs_bind (runs_bind ((runs_splitPath j.srcpath w).mono fun r x ⟨hx, hr⟩ => ?_))
  rw [hus.file, j.src_split] at hr
  subst hr hx
  exact runs_bind ((hwalk x hus).mono fun _ y hy => runs_pure (runs_pure hy))

end

end Alcor.Proofs.Shell
