import Alcor.Proofs.Shell.Transfer
import Mathlib.Data.List.TakeWhile

/-!
# `Alcor.Proofs.Shell.Destination`: where `cp -R` and `mv -R` put things

`destOf` is the path in the destination of what is at a path under the
source. The callback computes this path by offsets into the strings.

* `destOf_injective`: different things go to different places.
* `join_dir`, `join_file`: the path that is computed is `destOf`.
* `runs_beforeReaddir`, `runs_insideReaddir`: what
  `shellh_cp_walkdir_cb` does for a directory and for a file of the
  source, in whatever state the file system is.
-/

set_option autoImplicit false

namespace Alcor.Proofs.Shell

open Alcor.Shell

variable {q p : Path} {s : Disk}

/-- The directory that a source directory becomes in a destination. -/
def destRoot (src dst : Path) : Path := child dst (lastName src)

/-- Where what is at a path under the source goes. -/
def destOf (src dst path : Path) : Path := destRoot src dst ++ path.drop src.length

section Paths
variable {src dst : Path}

theorem Normal.mem_slash {path : Path} (h : Normal path) : SLASH ∈ path :=
  List.mem_of_head? h.1

theorem Under.exists_append {a : Path} (h : Under a p) : ∃ suf, p = a ++ suf := by
  obtain ⟨rest, hrest⟩ := h
  have hprefix : a <+: p := by
    have hle : a.length ≤ p.length := by
      have hlen := congrArg List.length hrest
      simp only [List.length_append, List.length_cons, List.length_nil] at hlen
      omega
    have hconcat : a <+: p ++ [SLASH] := ⟨[SLASH] ++ rest, by rw [← hrest, List.append_assoc]⟩
    exact List.prefix_of_prefix_length_le hconcat (List.prefix_append _ _) hle
  obtain ⟨suf, hsuf⟩ := hprefix
  exact ⟨suf, hsuf.symm⟩

/-- What comes after the source directory, with its last name. -/
theorem drop_relative (hsrc : Normal src) (suf : Path) :
    (src ++ suf).drop (src.length - (SLASH :: lastName src).length) =
      SLASH :: lastName src ++ suf := by
  have hpath := child_parent hsrc.mem_slash
  have hlen : src.length - (SLASH :: lastName src).length = (parent src).length := by
    have hl := congrArg List.length hpath
    simp only [child, List.length_append] at hl
    omega
  have hparts : src ++ suf = parent src ++ (SLASH :: lastName src ++ suf) := by
    rw [← List.append_assoc]
    exact congrArg (· ++ suf) hpath.symm
  rw [hlen, hparts, List.drop_left]

theorem normal_relative (hsrc : Normal src) {suf : Path} (hq : Normal (src ++ suf)) :
    Normal (SLASH :: lastName src ++ suf) := by
  refine ⟨rfl, ?_⟩
  have hpath := child_parent hsrc.mem_slash
  have hlast := hq.2
  rw [← hpath] at hlast
  unfold child at hlast
  rwa [List.append_assoc, List.getLast?_append_of_ne_nil _ (by simp)] at hlast

theorem destOf_append (suf : Path) : destOf src dst (src ++ suf) = destRoot src dst ++ suf := by
  rw [destOf, List.drop_left]

theorem destOf_child (h : Under src q) (name : Path) :
    destOf src dst (child q name) = child (destOf src dst q) name := by
  obtain ⟨suf, rfl⟩ := h.exists_append
  unfold child
  rw [List.append_assoc, destOf_append, destOf_append, List.append_assoc]

theorem under_destOf (h : Under src q) : Under (destRoot src dst) (destOf src dst q) := by
  obtain ⟨suf, rfl⟩ := h.exists_append
  rw [destOf_append]
  unfold Under at h ⊢
  rw [List.append_assoc] at h ⊢
  exact (List.prefix_append_right_inj _).mpr ((List.prefix_append_right_inj _).mp h)

theorem destOf_injective {p' : Path} (h : Under src p) (h' : Under src p')
    (heq : destOf src dst p = destOf src dst p') : p = p' := by
  obtain ⟨suf, rfl⟩ := h.exists_append
  obtain ⟨suf', rfl⟩ := h'.exists_append
  rw [destOf_append, destOf_append] at heq
  rw [List.append_cancel_left heq]

theorem child_injective {q' : Path} {a b : Name} (h : child q a.path = child q' b.path) :
    q = q' ∧ a.path = b.path := by
  constructor
  · rw [← parent_child q a.no_slash, h, parent_child q' b.no_slash]
  · rw [← lastName_child q a.no_slash, h, lastName_child q' b.no_slash]

theorem slash_notMem_lastName (path : Path) : SLASH ∉ lastName path := by
  intro h
  unfold lastName at h
  have hmem := List.mem_takeWhile_imp (List.mem_reverse.mp h)
  simp at hmem

theorem parent_destRoot (src dst : Path) : parent (destRoot src dst) = dst :=
  parent_child dst (slash_notMem_lastName src)

theorem normal_destOf (hsrc : Normal src) (hdst : Normal dst) (hq : Normal q) (h : Under src q) :
    Normal (destOf src dst q) := by
  obtain ⟨suf, rfl⟩ := h.exists_append
  have happend := hdst.append (normal_relative hsrc hq)
  rw [destOf_append]
  unfold destRoot child
  rwa [List.append_assoc]

theorem destOf_src (src dst : Path) : destOf src dst src = destRoot src dst := by
  unfold destOf
  rw [List.drop_length, List.append_nil]

/-- The device of a path is that of what is below it. -/
theorem device_child {path : Path} (h : path ≠ []) (name : Path) :
    device (child path name) = device path := by
  have hdrop : (child path name).drop 1 = path.drop 1 ++ SLASH :: name := by
    cases path with
    | nil => exact absurd rfl h
    | cons c path => rfl
  unfold device
  rw [hdrop]
  induction path.drop 1 with
  | nil => simp
  | cons c rest ih =>
    rw [List.cons_append, List.takeWhile_cons, List.takeWhile_cons, ih]

theorem lower_destOf_iff (h : Under src q) :
    Lib.lower q = Lib.lower (destOf src dst q) ↔
      Lib.lower src = Lib.lower (destRoot src dst) := by
  obtain ⟨suf, rfl⟩ := h.exists_append
  have happend : ∀ x y : Path, Lib.lower (x ++ y) = Lib.lower x ++ Lib.lower y :=
    fun x y => List.map_append
  rw [destOf_append, happend, happend]
  exact ⟨List.append_cancel_right, fun heq => by rw [heq]⟩

theorem destOf_eq_self (h : Under src q) (hroot : src = destRoot src dst) :
    destOf src dst q = q := by
  obtain ⟨suf, rfl⟩ := h.exists_append
  rw [destOf_append, ← hroot]

end Paths

theorem name_of_mem_entries {dir : Dir} {e : Dirent} (h : e ∈ dir.entries) :
    ∃ name : Name, e.fname = name.path := by
  induction dir with
  | empty => cases h
  | file name rest ih =>
    rcases List.mem_cons.mp h with rfl | h
    · exact ⟨name, rfl⟩
    · exact ih h
  | sub name inner rest _ ih =>
    rcases List.mem_cons.mp h with rfl | h
    · exact ⟨name, rfl⟩
    · exact ih h

/-! ### The callback -/

/-- The directories of a disk after one is made. -/
theorem dir_make (s : Disk) (at_ : Path) (p : Path) :
    (s.make at_).dir p =
      if p = at_ then some []
      else if p = parent at_ then
        (s.dir p).map (· ++ [{ fname := lastName at_, isDir := true }])
      else s.dir p := by
  show Function.update (Function.update s.dir _ _) _ _ p = _
  rw [Function.update_apply, Function.update_apply]
  split
  · rfl
  · split
    · next heq => rw [heq]
    · rfl

section
variable {enough : Prop} {fails : Nat → Bool} {hasdirs : Path → Bool} {src dst : Path}
  {flags : Flags}

/-- The state of the callback for a recursive copy of a directory. -/
def copyState (src dst : Path) (flags : Flags) : CpState :=
  { pdestdir := dst, psrcdir := src, dloc := SLASH :: lastName src, flags }

theorem pathJoin_of_pos {parts : List Path} (h : 0 < joinTotal parts) :
    cmnFsPathJoin (diskEnv fails hasdirs) parts =
      (pure (some (joined parts)) : Cmd Disk (Option Path)) := if_neg h.ne'

/-- The path that a directory of the source has in the destination. -/
theorem join_dir (hsrc : Normal src) (hdst : Normal dst) (hq : Normal q) (hunder : Under src q) :
    cmnFsPathJoin (diskEnv fails hasdirs) [dst, (copyState src dst flags).relative q] =
      (pure (some (destOf src dst q)) : Cmd Disk (Option Path)) := by
  obtain ⟨suf, rfl⟩ := hunder.exists_append
  have hrel : (copyState src dst flags).relative (src ++ suf) = SLASH :: lastName src ++ suf :=
    drop_relative hsrc suf
  have hnormal := normal_relative hsrc hq
  rw [hrel, pathJoin_of_pos (joinTotal_pos hdst _ fun p hp => by
    rw [List.mem_singleton.mp hp]
    exact .inl hnormal), joined_two hdst hnormal, destOf_append]
  unfold destRoot child
  rw [List.append_assoc]

/-- The path that a file of the source has in the destination. -/
theorem join_file (hsrc : Normal src) (hdst : Normal dst) (hq : Normal q) (hunder : Under src q)
    (name : Name) :
    cmnFsPathJoin (diskEnv fails hasdirs)
        [dst, (copyState src dst flags).relative q, name.path] =
      (pure (some (destOf src dst (child q name.path))) : Cmd Disk (Option Path)) := by
  have hdest : destOf src dst (child q name.path) = child (destOf src dst q) name.path :=
    destOf_child hunder name.path
  obtain ⟨suf, rfl⟩ := hunder.exists_append
  have hrel : (copyState src dst flags).relative (src ++ suf) = SLASH :: lastName src ++ suf :=
    drop_relative hsrc suf
  have hnormal := normal_relative hsrc hq
  have hpos : 0 < joinTotal [dst, SLASH :: lastName src ++ suf, name.path] := by
    refine joinTotal_pos hdst _ fun p hp => ?_
    rcases List.mem_cons.mp hp with rfl | hp
    · exact .inl hnormal
    · rw [List.mem_singleton.mp hp]
      exact .inr (head?_name name)
  rw [hrel, pathJoin_of_pos hpos, joined_three hdst hnormal, hdest, destOf_append]
  unfold destRoot child
  simp only [List.append_assoc, List.cons_append]

/-- A test whether there is a directory. -/
theorem runs_canOpendir (path : Path) (s : Disk) :
    Runs enough (fun there t => t = s.tick ∧
        (AllSucceed fails → there = (s.dir (plain path)).isSome))
      (canOpendir (diskEnv fails hasdirs) path) s := by
  refine runs_bind (runs_opendir (fun hbad => runs_pure ⟨rfl, fun hall => absurd hall hbad⟩) ?_)
  cases s.dir (plain path) with
  | none => exact runs_pure ⟨rfl, fun _ => rfl⟩
  | some d => exact runs_bind (runs_look (runs_pure ⟨rfl, fun _ => rfl⟩))

theorem isPrefixOf_of_under {a : Path} (h : Under a p) : a.isPrefixOf p = true := by
  obtain ⟨suf, rfl⟩ := h.exists_append
  exact List.isPrefixOf_iff_prefix.mpr (List.prefix_append a suf)

/-- The callback at the beginning of a directory: the one of the
destination is made if it is not there. -/
theorem runs_beforeReaddir (hsrc : Normal src) (hdst : Normal dst) (size n : Nat)
    (hsim : flags.simulateOnly = false) (hq : Normal q) (hunder : Under src q) {Q : Disk → Prop}
    (hstay : (AllSucceed fails → s.dir (destOf src dst q) ≠ none) →
      ∀ t : Disk, t.file = s.file → t.dir = s.dir → Q t)
    (hmake : s.dir (destOf src dst q) = none → ∀ t : Disk, t.file = s.file → t.dir = s.dir →
      Q (t.make (destOf src dst q))) (hfile : s.file (destOf src dst q) = none) :
    Runs enough (fun go t => if go then Q t else ¬ AllSucceed fails)
      (cpWalkdirCb (diskEnv fails hasdirs) size n (copyState src dst flags) q none
        .BEFORE_READDIR) s := by
  have hpre : (copyState src dst flags).psrcdir.isPrefixOf q = true := isPrefixOf_of_under hunder
  unfold cpWalkdirCb
  rw [hpre]
  refine runs_ite (fun hno => nomatch hno) fun _ => ?_
  rw [show (copyState src dst flags).pdestdir = dst from rfl, join_dir hsrc hdst hq hunder,
    pure_bind]
  refine runs_bind ((runs_canOpendir _ s).mono fun there t ⟨ht, hthere⟩ => ?_)
  subst ht
  rw [(normal_destOf hsrc hdst hq hunder).plain] at hthere
  -- a directory that is there is left as it is
  refine runs_ite (fun hyes => runs_pure (hstay (fun hall => ?_) _ rfl rfl)) fun hnot => ?_
  · rw [hthere hall] at hyes
    exact Option.isSome_iff_ne_none.mp hyes
  refine runs_ite (fun hyes => ?_) fun _ => ?_
  · rw [show (copyState src dst flags).flags = flags from rfl, hsim] at hyes
    cases hyes
  refine runs_bind (runs_change ?_)
  unfold diskEnv
  simp only [show s.tick.file = s.file from rfl, hfile, Option.isSome_none, Bool.or_false]
  split
  · -- `mkdir` fails only with a fault, as nothing was there
    next hfail =>
    refine runs_pure fun hall => ?_
    rcases Bool.or_eq_true_iff.mp hfail with hfail | hfail
    · exact not_allSucceed hfail hall
    · exact hnot ((hthere hall).trans hfail)
  · next hok =>
    have hnone : s.dir (destOf src dst q) = none := by
      rw [Bool.or_eq_true_iff, not_or] at hok
      exact Option.not_isSome_iff_eq_none.mp hok.2
    exact runs_pure (hmake hnone _ rfl rfl)

/-- The callback for a file: it is copied or moved. -/
theorem runs_insideReaddir (hsrc : Normal src) (hdst : Normal dst) {size n : Nat} (hq : Normal q)
    (hunder : Under src q) {ent : Dirent} {name : Name} (hname : ent.fname = name.path)
    (hfile : ent.isDir = false) {Q : Disk → Prop}
    (h : Runs enough (fun _ t => Q t) (cpOrMvFile (diskEnv fails hasdirs) size n
      (child q ent.fname) (destOf src dst (child q ent.fname)) flags) s) :
    Runs enough (fun go t => go = true ∧ Q t)
      (cpWalkdirCb (diskEnv fails hasdirs) size n (copyState src dst flags) q (some ent)
        .INSIDE_READDIR) s := by
  have hpre : (copyState src dst flags).psrcdir.isPrefixOf q = true := isPrefixOf_of_under hunder
  unfold cpWalkdirCb
  refine runs_ite (fun hdir => ?_) fun _ => ?_
  · rw [hfile] at hdir
    cases hdir
  rw [hpre]
  refine runs_ite (fun hno => nomatch hno) fun _ => ?_
  have hpos : 0 < joinTotal [q, ent.fname] := by
    refine joinTotal_pos hq _ fun p hp => ?_
    rw [List.mem_singleton.mp hp, hname]
    exact .inr (head?_name name)
  have hjoin : joined [q, ent.fname] = child q ent.fname := by
    rw [hname]
    exact inside_eq hq name
  have hjoin2 : cmnFsPathJoin (diskEnv fails hasdirs)
      [dst, (copyState src dst flags).relative q, ent.fname] =
      (pure (some (destOf src dst (child q ent.fname))) : Cmd Disk (Option Path)) := by
    rw [hname]
    exact join_file hsrc hdst hq hunder name
  rw [pathJoin_of_pos hpos, pure_bind, hjoin]
  show Runs enough _ (cmnFsPathJoin _ [dst, _, ent.fname] >>= _) s
  rw [hjoin2, pure_bind]
  exact runs_bind (h.mono fun _ t ht => runs_pure ⟨rfl, ht⟩)

/-- The callback for a directory does nothing. -/
theorem runs_insideReaddir_dir (size n : Nat) (q : Path) {ent : Dirent} (hdir : ent.isDir = true)
    {Q : Bool → Disk → Prop} (h : Q true s) :
    Runs enough Q (cpWalkdirCb (diskEnv fails hasdirs) size n (copyState src dst flags) q
      (some ent) .INSIDE_READDIR) s := by
  unfold cpWalkdirCb
  exact runs_ite (fun _ => runs_pure h) fun hno => absurd hdir hno

end

end Alcor.Proofs.Shell
