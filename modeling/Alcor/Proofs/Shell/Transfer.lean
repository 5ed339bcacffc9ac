import Alcor.Proofs.Shell.Recursive
import Alcor.Shell.Advanced

/-!
# `Alcor.Proofs.Shell.Transfer`: one file is copied or moved

What `shellh_cp_or_mv_file` does to a file system, whichever operations
fail: nothing changes but the two files and the entries of the
directories they are in, and if no operation fails then the destination
has the bytes that the source had. Each operation of a disk has its rule,
with a case for the failure.

* `runs_copyLoop`: the loop of a copy.
* `runs_cpFile`: a copy changes nothing but the destination.
* `runs_cpOrMvFile`: a copy or a move, which is a `rename` on one device
  and a copy with a removal between two.
* `runs_cpOrMvFile_refused`: a file that stays as it is.
-/

set_option autoImplicit false

namespace Alcor.Proofs.Shell

open Alcor.Shell

variable {s t u : Disk} {b a path : Path} {c : List UInt8} {op : Mutation} {size : Nat}
variable {enough : Prop} {fails : Nat → Bool} {hasdirs : Path → Bool}

/-! ### Operations -/

theorem runs_read {Q : Int × List UInt8 → Disk → Prop} {fd pos len : Nat}
    (hfd : s.fds[fd]? = some (path, pos)) (hfail : ¬ AllSucceed fails → Q (-1, []) s.tick)
    (hok : Q (((s.bytes path).drop pos |>.take len).length, (s.bytes path).drop pos |>.take len)
      (s.tick.seek fd path (pos + ((s.bytes path).drop pos |>.take len).length))) :
    Runs enough Q (look ((diskEnv fails hasdirs).read fd len)) s := by
  refine runs_look ?_
  unfold diskEnv
  simp only [hfd]
  split
  · next h => exact hfail (not_allSucceed h)
  · exact hok

/-- The bytes of a file after a write. -/
def written (s : Disk) (path : Path) (pos : Nat) (data : List UInt8) : List UInt8 :=
  (s.bytes path).take pos ++ data ++ (s.bytes path).drop (pos + data.length)

theorem runs_write {Q : Int → Disk → Prop} {fd pos : Nat} {data : List UInt8}
    (hfd : s.fds[fd]? = some (path, pos)) (hfail : ¬ AllSucceed fails → Q (-1) s.tick)
    (hok : Q data.length ((s.tick.setFile path (some (written s path pos data))).seek fd path
      (pos + data.length))) :
    Runs enough Q (change op ((diskEnv fails hasdirs).write fd data)) s := by
  refine runs_change ?_
  unfold diskEnv
  simp only [hfd]
  split
  · next h => exact hfail (not_allSucceed h)
  · exact hok

/-- The rule of `open` for reading: it fails where there is no file. -/
theorem runs_openRead {Q : Option Nat → Disk → Prop}
    (hfail : ¬ AllSucceed fails ∨ s.file path = none → Q none s.tick)
    (hok : s.file path ≠ none → Q (some s.fds.length) (s.tick.push path)) :
    Runs enough Q (look ((diskEnv fails hasdirs).openRead path)) s := by
  refine runs_look ?_
  unfold diskEnv
  simp only
  split
  · next h =>
    rcases Bool.or_eq_true_iff.mp h with h | h
    · exact hfail (.inl (not_allSucceed h))
    · exact hfail (.inr (Option.isNone_iff_eq_none.mp h))
  · next h =>
    refine hok fun hnone => h ?_
    rw [hnone]
    exact Bool.or_true _

theorem runs_openWrite {Q : Option Nat → Disk → Prop} (hdir : s.dir path = none)
    (hfail : ¬ AllSucceed fails → Q none s.tick)
    (hok : Q (some s.fds.length) ((s.tick.create path).push path)) :
    Runs enough Q (change op ((diskEnv fails hasdirs).openWrite path)) s := by
  refine runs_change ?_
  unfold diskEnv
  simp only [hdir, Option.isSome_none, Bool.or_false]
  split
  · next h => exact hfail (not_allSucceed h)
  · exact hok

theorem runs_ask {Q : Bool → Disk → Prop}
    (h : ∀ yes, (AllSucceed fails → yes = true) → Q yes s.tick) :
    Runs enough Q (look (diskEnv fails hasdirs).ask) s := by
  refine runs_look (h (!fails s.steps) fun hall => ?_)
  rw [hall]
  rfl

theorem runs_rename {Q : RenameResult → Disk → Prop} (hsrc : s.file a = some c)
    (hdir : s.dir b = none) (hne : a ≠ b) (hfail : ¬ AllSucceed fails → Q .error s.tick)
    (hdevice : device a ≠ device b → Q .exdev s.tick)
    (hok : Q .ok (((s.tick.remove a).create b).setFile b (some c))) :
    Runs enough Q (change op ((diskEnv fails hasdirs).rename a b)) s := by
  refine runs_change ?_
  unfold diskEnv
  simp only [hsrc, hdir, Option.isSome_none, Bool.false_eq_true, if_false, if_neg hne]
  split
  · next h => exact hfail (not_allSucceed h)
  · split
    · next h => exact hdevice h
    · exact hok

/-- A rename that changes nothing: of a file that is not there, to itself,
or to another device. -/
theorem runs_rename_self {Q : RenameResult → Disk → Prop}
    (h : s.file a = none ∨ a = b ∨ device a ≠ device b) (hfail : Q .error s.tick)
    (hdevice : device a ≠ device b → Q .exdev s.tick) (hok : Q .ok s.tick) :
    Runs enough Q (change op ((diskEnv fails hasdirs).rename a b)) s := by
  refine runs_change ?_
  unfold diskEnv
  simp only
  split
  · exact hfail
  split
  · next hne => exact hdevice hne
  next heq =>
  cases hfile : s.file a with
  | none => exact hfail
  | some c =>
    have hab : a = b := (h.resolve_left (by rw [hfile]; exact nofun)).resolve_right heq
    simp only
    split
    · exact hfail
    · exact hok

/-! ### What stays -/

/-- Files, directories and open files are the same. -/
structure Same (s t : Disk) : Prop where
  file : t.file = s.file
  dir : t.dir = s.dir
  fds : t.fds = s.fds

theorem Same.refl (s : Disk) : Same s s := ⟨rfl, rfl, rfl⟩

theorem Same.tick (h : Same s t) : Same s t.tick := ⟨h.file, h.dir, h.fds⟩

theorem Same.trans (h : Same s t) (h' : Same t u) : Same s u :=
  ⟨h'.file.trans h.file, h'.dir.trans h.dir, h'.fds.trans h.fds⟩

/-- In each directory there are the directories that were in it, and no
other file than before but one of the name of a path. -/
structure Entries (path : Path) (s t : Disk) : Prop where
  dirs : ∀ q, (t.dir q).map (List.filter Dirent.isDir) = (s.dir q).map (List.filter Dirent.isDir)
  named : ∀ q l', t.dir q = some l' → ∀ e ∈ l',
    e = { fname := lastName path, isDir := false } ∨ ∃ l, s.dir q = some l ∧ e ∈ l

theorem Entries.of_eq (h : t.dir = s.dir) : Entries path s t := by
  refine ⟨fun q => by rw [h], fun q l' hl' e he => .inr ⟨l', ?_, he⟩⟩
  rwa [← h]

theorem Entries.trans (hst : Entries path s t) (htu : Entries path t u) : Entries path s u := by
  refine ⟨fun q => (htu.dirs q).trans (hst.dirs q), fun q l' hl' e he => ?_⟩
  rcases htu.named q l' hl' e he with heq | ⟨l, hl, he⟩
  · exact .inl heq
  · exact hst.named q l hl e he

/-- A change of the entries of a directory that keeps the directories
and adds at most a file of the name. -/
theorem entries_modifyParent (path at_ : Path) (s : Disk) (f : List Dirent → List Dirent)
    (hdirs : ∀ l, (f l).filter Dirent.isDir = l.filter Dirent.isDir)
    (hnamed : ∀ l, ∀ e ∈ f l, e = { fname := lastName path, isDir := false } ∨ e ∈ l) :
    Entries path s (s.modifyParent at_ f) := by
  constructor
  · intro q
    show (Function.update s.dir (parent at_) _ q).map _ = _
    by_cases hq : q = parent at_
    · subst hq
      rw [Function.update_self, Option.map_map]
      exact congrArg (fun g => Option.map g _) (funext hdirs)
    · rw [Function.update_of_ne hq]
  · intro q l' hl' e he
    have hl : Function.update s.dir (parent at_) ((s.dir (parent at_)).map f) q = some l' := hl'
    by_cases hq : q = parent at_
    · subst hq
      rw [Function.update_self] at hl
      obtain ⟨l, hfound, rfl⟩ := Option.map_eq_some_iff.mp hl
      exact (hnamed l e he).imp id fun he => ⟨l, hfound, he⟩
    · rw [Function.update_of_ne hq] at hl
      exact .inr ⟨l', hl, he⟩

/-- Nothing has changed but a file and the entries of its directory. -/
structure Wrote (path : Path) (s t : Disk) : Prop where
  file : ∀ p, p ≠ path → t.file p = s.file p
  dir : ∀ q, q ≠ parent path → t.dir q = s.dir q
  entries : Entries path s t

theorem Wrote.of_eq (hfile : t.file = s.file) (hdir : t.dir = s.dir) :
    Wrote path s t := ⟨fun p _ => congrFun hfile p, fun q _ => congrFun hdir q, .of_eq hdir⟩

theorem Wrote.trans (hst : Wrote path s t) (htu : Wrote path t u) : Wrote path s u :=
  ⟨fun p hp => (htu.file p hp).trans (hst.file p hp),
    fun q hq => (htu.dir q hq).trans (hst.dir q hq), hst.entries.trans htu.entries⟩

theorem wrote_setFile (path : Path) (s : Disk) (c : Option (List UInt8)) :
    Wrote path s (s.setFile path c) :=
  ⟨fun _ hp => Function.update_of_ne hp _ _, fun _ _ => rfl, .of_eq rfl⟩

theorem wrote_create (path : Path) (s : Disk) : Wrote path s (s.create path) := by
  unfold Disk.create
  split
  · exact wrote_setFile _ _ _
  · have hentry : Wrote path s (s.list path false) := by
      refine ⟨fun _ _ => rfl, fun _ hq => Function.update_of_ne hq _ _, ?_⟩
      refine entries_modifyParent path path s _ (fun l => ?_) fun l e he => ?_
      · rw [List.filter_append]
        exact List.append_nil _
      · rcases List.mem_append.mp he with he | he
        · exact .inr he
        · exact .inl (List.mem_singleton.mp he)
    exact hentry.trans (wrote_setFile _ _ _)

theorem create_fds (path : Path) (s : Disk) : (s.create path).fds = s.fds := by
  unfold Disk.create
  split <;> rfl

theorem create_file (path : Path) (s : Disk) : (s.create path).file path = some [] := by
  unfold Disk.create
  split <;> exact Function.update_self _ _ _

/-- A removal adds no entry. -/
theorem entries_remove (path at_ : Path) (s : Disk) : Entries path s (s.remove at_) := by
  refine .trans (entries_modifyParent _ at_ _ _ (fun l => ?_) fun l e he => ?_)
    (.of_eq (s := s.modifyParent at_ _) rfl)
  · rw [List.filter_filter]
    refine List.filter_congr fun e _ => ?_
    cases e.isDir <;> rfl
  · exact .inr (List.mem_of_mem_filter he)

theorem wrote_remove (path : Path) (s : Disk) : Wrote path s (s.remove path) :=
  ⟨fun _ hp => Function.update_of_ne hp _ _, fun _ hq => Function.update_of_ne hq _ _,
    entries_remove path path s⟩

/-! ### The copy loop -/

/-- The loop copies what is left of the source, if nothing fails; the
steps are enough if there are more than bytes are left. -/
theorem runs_copyLoop (hsize : 0 < size) (hab : a ≠ b) {fds fdd : Nat} (hne : fds ≠ fdd) :
    ∀ (n pos : Nat) (s : Disk), (enough → c.length - pos < n) → pos ≤ c.length →
      s.fds[fds]? = some (a, pos) → s.fds[fdd]? = some (b, pos) → s.file a = some c →
      s.file b = some (c.take pos) →
      Runs enough (fun ok t => Wrote b s t ∧ (AllSucceed fails → ok = true ∧ t.file b = some c))
        (copyLoop (diskEnv fails hasdirs) fds fdd size n) s := by
  -- on the steps; both files are at `pos`, up to which the destination is a copy
  intro n
  induction n with
  | zero => exact fun _ _ h _ _ _ _ _ => runs_unfinished fun hyes => Nat.not_lt_zero _ (h hyes)
  | succ n ih =>
    intro pos s hn hpos hfds hfdd hsrc hdst
    have hbytes : s.bytes a = c := by rw [Disk.bytes, hsrc]; rfl
    refine runs_bind (runs_read hfds (fun hbad => ?_) ?_)
    · exact runs_pure ⟨.of_eq rfl rfl, fun hall => absurd hall hbad⟩
    rw [hbytes]
    set data := (c.drop pos).take size with hdata
    have hlen : data.length = min size (c.length - pos) := by
      rw [hdata, List.length_take, List.length_drop]
    have hgot : ((data.length : Nat) : Int) ≠ -1 := by omega
    show Runs enough _ (if (data.length : Int) = -1 then _ else _) _
    rw [if_neg hgot]
    set s' := s.tick.seek fds a (pos + data.length) with hs'
    have hfdd' : s'.fds[fdd]? = some (b, pos) := by
      show (s.fds.set fds _)[fdd]? = _
      rw [List.getElem?_set_ne hne, hfdd]
    have hbytes' : s'.bytes b = c.take pos := by
      show ((s.file b).getD []) = _
      rw [hdst]
      rfl
    have hnew : written s' b pos data = c.take (pos + data.length) := by
      unfold written
      rw [hbytes', List.take_take, Nat.min_self,
        List.drop_eq_nil_of_le (by rw [List.length_take]; omega), List.append_nil, List.take_add]
      congr 1
      rw [hdata]
      simp
    refine runs_bind (runs_write hfdd' (fun hbad => ?_) ?_)
    · exact runs_pure ⟨.of_eq rfl rfl, fun hall => absurd hall hbad⟩
    rw [hnew]
    set t := (s'.tick.setFile b (some (c.take (pos + data.length)))).seek fdd b
      (pos + data.length) with ht
    have hwrote : Wrote b s t :=
      ⟨fun _ hp => Function.update_of_ne hp _ _, fun _ _ => rfl, .of_eq rfl⟩
    have hfileb : t.file b = some (c.take (pos + data.length)) := Function.update_self _ _ _
    show Runs enough _ (if (data.length : Int) = -1 then _
      else if (data.length : Int) < data.length then _ else _) t
    rw [if_neg hgot, if_neg (by omega)]
    refine runs_ite (fun hshort => ?_) fun hfull => ?_
    · -- a short read was the last one
      refine runs_pure ⟨hwrote, fun _ => ⟨rfl, ?_⟩⟩
      rw [hfileb, List.take_of_length_le (by omega)]
    · have hfdsT : t.fds[fds]? = some (a, pos + data.length) := by
        show ((s.fds.set fds _).set fdd _)[fds]? = _
        have hlt : fds < s.fds.length := (List.getElem?_eq_some_iff.mp hfds).1
        rw [List.getElem?_set_ne (Ne.symm hne), List.getElem?_set_self hlt]
      have hfddT : t.fds[fdd]? = some (b, pos + data.length) := by
        show ((s.fds.set fds _).set fdd _)[fdd]? = _
        have hlt : fdd < s.fds.length := (List.getElem?_eq_some_iff.mp hfdd).1
        rw [List.getElem?_set_self (by rwa [List.length_set])]
      have hsrcT : t.file a = some c := (hwrote.file a hab).trans hsrc
      have hleft : enough → c.length - (pos + data.length) < n := fun hyes => by
        have hlt := hn hyes
        omega
      exact (ih (pos + data.length) t hleft (by omega) hfdsT hfddT hsrcT hfileb).mono
        fun ok u hu => ⟨hwrote.trans hu.1, hu.2⟩

/-! ### `shellh_cp_file` -/

theorem runs_askConfirmation (flags : Flags) :
    Runs enough (fun ok t => Same s t ∧ (AllSucceed fails → ok = true))
      (askConfirmation (diskEnv fails hasdirs) flags) s := by
  unfold askConfirmation
  refine runs_ite (fun _ => ?_) fun _ => runs_pure ⟨.refl s, fun _ => rfl⟩
  exact runs_ask fun yes hyes => ⟨(Same.refl s).tick, hyes⟩

/-- The files that are open stay as they are while others are opened. -/
theorem runs_existingFile (flags : Flags) {fds : Nat} {x : Path × Nat}
    (hfds : s.fds[fds]? = some x) :
    Runs enough (fun _ t => t.file = s.file ∧ t.dir = s.dir ∧ t.fds[fds]? = some x)
      (existingFile (diskEnv fails hasdirs) b flags) s := by
  unfold existingFile
  refine runs_ite (fun _ => runs_pure ⟨rfl, rfl, hfds⟩) fun _ => ?_
  refine runs_openRead (fun _ => ⟨rfl, rfl, hfds⟩) fun _ => ⟨rfl, rfl, ?_⟩
  show (s.fds ++ [_])[fds]? = _
  rw [List.getElem?_append_left (List.getElem?_eq_some_iff.mp hfds).1, hfds]

theorem runs_askOverwrite (existing : Option Nat) :
    Runs enough (fun ok t => Same s t ∧ (AllSucceed fails → ok = true))
      (askOverwrite (diskEnv fails hasdirs) existing) s := by
  cases existing with
  | none => exact runs_pure ⟨.refl s, fun _ => rfl⟩
  | some fdd =>
    refine runs_bind (runs_look ?_)
    exact runs_ask fun yes hyes => ⟨(Same.refl s).tick, hyes⟩

/-- The copy of a file changes nothing but the destination. -/
theorem runs_cpFile {n : Nat} (hsize : 0 < size) {flags : Flags}
    (hsim : flags.simulateOnly = false) (hab : Lib.lower a ≠ Lib.lower b)
    (hn : enough → c.length < n) (hsrc : s.file a = some c) (hdir : s.dir b = none) :
    Runs enough (fun ok t => Wrote b s t ∧ (AllSucceed fails → ok = true ∧ t.file b = some c))
      (cpFile (diskEnv fails hasdirs) size n a b flags) s := by
  have hne : a ≠ b := fun h => hab (congrArg Lib.lower h)
  have hfail : ∀ {t : Disk}, t.file = s.file → t.dir = s.dir → ¬ AllSucceed fails →
      Wrote b s t ∧ (AllSucceed fails → false = true ∧ t.file b = some c) :=
    fun hfile hdir hbad => ⟨.of_eq hfile hdir, fun hall => absurd hall hbad⟩
  unfold cpFile
  rw [if_neg hab]
  refine runs_bind ((runs_askConfirmation flags).mono fun confirmed t ⟨ht, hyes⟩ => ?_)
  refine runs_ite (fun hno => ?_) fun _ => ?_
  · refine runs_pure (hfail ht.file ht.dir fun hall => ?_)
    rw [hyes hall] at hno
    cases hno
  refine runs_bind (runs_openRead (fun hbad => ?_) fun _ => ?_)
  · refine runs_pure (hfail ht.file ht.dir ?_)
    rcases hbad with hbad | hbad
    · exact hbad
    · rw [ht.file, hsrc] at hbad
      cases hbad
  have hopen : (t.tick.push a).fds[t.fds.length]? = some (a, 0) := by
    show (t.fds ++ [(a, 0)])[t.fds.length]? = _
    exact List.getElem?_concat_length
  refine runs_bind ((runs_existingFile flags hopen).mono fun existing u hu => ?_)
  obtain ⟨hufile, hudir, hufds⟩ := hu
  refine runs_bind ((runs_askOverwrite existing).mono fun overwrite v ⟨hv, hover⟩ => ?_)
  have hvfile : v.file = s.file := hv.file.trans (hufile.trans ht.file)
  have hvdir : v.dir = s.dir := hv.dir.trans (hudir.trans ht.dir)
  refine runs_ite (fun hno => ?_) fun _ => ?_
  · refine runs_bind (runs_look (runs_pure (hfail hvfile hvdir fun hall => ?_)))
    rw [hover hall] at hno
    cases hno
  refine runs_bind (runs_look ?_)
  show Runs enough _ (if flags.simulateOnly = true then _ else _) v
  rw [hsim, if_neg Bool.false_ne_true]
  refine runs_bind (runs_openWrite ((congrFun hvdir b).trans hdir) (fun hbad => ?_) ?_)
  · exact runs_bind (runs_look (runs_pure (hfail hvfile hvdir hbad)))
  set w := (v.tick.create b).push b with hw
  have hcreate := wrote_create b v.tick
  -- the source was opened before the destination, so their numbers differ
  have hlt : t.fds.length < v.fds.length := by
    rw [hv.fds]
    exact (List.getElem?_eq_some_iff.mp hufds).1
  have hwfds : w.fds = v.fds ++ [(b, 0)] := by
    show (v.tick.create b).fds ++ _ = _
    rw [create_fds]
    rfl
  have hwrote : Wrote b s w := by
    have hbefore : Wrote b s v.tick := .of_eq hvfile hvdir
    exact (hbefore.trans hcreate).trans (.of_eq rfl rfl)
  have hfds : w.fds[t.fds.length]? = some (a, 0) := by
    rw [hwfds, List.getElem?_append_left hlt, hv.fds, hufds]
  have hfdd : w.fds[v.fds.length]? = some (b, 0) := by
    rw [hwfds]
    exact List.getElem?_concat_length
  have hempty : w.file b = some (c.take 0) := create_file b v.tick
  refine runs_bind ((runs_copyLoop hsize hne (by omega) n 0 w hn (Nat.zero_le _) hfds hfdd
    ((hwrote.file a hne).trans hsrc) hempty).mono fun res x hx => ?_)
  exact runs_bind (runs_look (runs_bind (runs_look (runs_pure ⟨hwrote.trans hx.1, hx.2⟩))))

/-- A file that is not there, or that has the name of its destination
whatever the case of the letters, is not copied. -/
theorem runs_cpFile_refused (size n : Nat) (flags : Flags)
    (h : Lib.lower a = Lib.lower b ∨ s.file a = none) :
    Runs enough (fun ok t => Same s t ∧ ok = false)
      (cpFile (diskEnv fails hasdirs) size n a b flags) s := by
  unfold cpFile
  refine runs_ite (fun _ => runs_pure ⟨.refl s, rfl⟩) fun hlower => ?_
  have hnone := h.resolve_left hlower
  refine runs_bind ((runs_askConfirmation flags).mono fun confirmed t ⟨ht, _⟩ => ?_)
  refine runs_ite (fun _ => runs_pure ⟨ht, rfl⟩) fun _ => ?_
  refine runs_bind (runs_openRead (fun _ => runs_pure ⟨ht.tick, rfl⟩) fun hthere => ?_)
  rw [ht.file] at hthere
  exact absurd hnone hthere

/-! ### `shellh_cp_or_mv_file` -/

/-- Nothing has changed but two files and the entries of their directories, where the source's has
the same directories; if nothing failed then the destination has what the source had, which is
still there after a copy and not after a move. -/
structure Transferred (fails : Nat → Bool) (move : Bool) (a b : Path) (s t : Disk) : Prop where
  file : ∀ p, p ≠ a → p ≠ b → t.file p = s.file p
  dir : ∀ q, q ≠ parent a → q ≠ parent b → t.dir q = s.dir q
  entries : Entries b s t
  source : parent a ≠ parent b → ∀ l, s.dir (parent a) = some l →
    ∃ l', t.dir (parent a) = some l' ∧ l'.length ≤ l.length ∧
      l'.filter Dirent.isDir = l.filter Dirent.isDir
  kept : move = false → t.file a = s.file a
  moved : AllSucceed fails → move = true → t.file a = none
  copied : AllSucceed fails → ∀ c, s.file a = some c → t.file b = some c

theorem Wrote.transferred {move : Bool} (hne : a ≠ b) (h : Wrote b s t)
    (hmoved : AllSucceed fails → move = false)
    (hcopied : AllSucceed fails → ∀ c, s.file a = some c → t.file b = some c) :
    Transferred fails move a b s t :=
  ⟨fun p _ hp => h.file p hp, fun q _ hq => h.dir q hq, h.entries,
    fun hne l hl => ⟨l, (h.dir _ hne).trans hl, Nat.le_refl _, rfl⟩, fun _ => h.file a hne,
    fun hall hmove => (nomatch (hmoved hall).symm.trans hmove), hcopied⟩

/-- The entries of a directory without those for a file. -/
theorem filter_remove (l : List Dirent) (name : Path) :
    (l.filter fun e => e.isDir || e.fname ≠ name).filter Dirent.isDir =
      l.filter Dirent.isDir := by
  rw [List.filter_filter]
  refine List.filter_congr fun e _ => ?_
  cases e.isDir <;> rfl

/-- The removal of the source afterwards. -/
theorem Wrote.remove (hne : a ≠ b) (h : Wrote b s t)
    (hcopied : AllSucceed fails → ∀ c, s.file a = some c → t.file b = some c) :
    Transferred fails true a b s (t.remove a) := by
  have hremove := wrote_remove a t
  have hgone : (t.remove a).file a = none := Function.update_self _ _ _
  refine ⟨fun p ha hb => (hremove.file p ha).trans (h.file p hb),
    fun q ha hb => (hremove.dir q ha).trans (h.dir q hb), h.entries.trans (entries_remove b a t),
    fun hparent l hl => ?_, nofun, fun _ _ => hgone,
    fun hall c hc => (hremove.file b (Ne.symm hne)).trans (hcopied hall c hc)⟩
  refine ⟨l.filter fun e => e.isDir || e.fname ≠ lastName a, ?_, List.length_filter_le _ _,
    filter_remove l _⟩
  show Function.update t.dir (parent a) _ (parent a) = _
  rw [Function.update_self, h.dir _ hparent, hl]
  rfl

/-- A rename on one device. -/
theorem renamed_transferred (hne : a ≠ b) (s : Disk) (hsrc : s.file a = some c) :
    Transferred fails true a b s (((s.tick.remove a).create b).setFile b (some c)) := by
  have hremove := wrote_remove a s.tick
  have hwrote := (wrote_create b (s.tick.remove a)).trans (wrote_setFile b _ (some c))
  have htick : Entries b s s.tick := .of_eq rfl
  have hentries := htick.trans (entries_remove b a s.tick)
  refine ⟨fun p ha hb => (hwrote.file p hb).trans (hremove.file p ha),
    fun q ha hb => (hwrote.dir q hb).trans (hremove.dir q ha),
    hentries.trans hwrote.entries, fun hparent l hl => ?_, (nomatch ·),
    fun _ _ => (hwrote.file a hne).trans (Function.update_self _ _ _), fun _ c' hc' => ?_⟩
  · refine ⟨l.filter fun e => e.isDir || e.fname ≠ lastName a, ?_, List.length_filter_le _ _,
      filter_remove l _⟩
    rw [hwrote.dir _ hparent]
    show Function.update s.dir (parent a) _ (parent a) = _
    rw [Function.update_self, Disk.tick, hl]
    rfl
  · cases Option.some.inj (hsrc.symm.trans hc')
    exact Function.update_self _ _ _

/-- One file is copied or moved. The names of a copy must differ in more
than the case of letters, those of a move on one device need not. -/
theorem runs_cpOrMvFile {n : Nat} (hsize : 0 < size) {flags : Flags}
    (hsim : flags.simulateOnly = false) (hne : a ≠ b)
    (hab : Lib.lower a ≠ Lib.lower b ∨ flags.move = true ∧ device a = device b)
    (hn : enough → c.length < n) (hsrc : s.file a = some c) (hdir : s.dir b = none) :
    Runs enough (fun _ t => Transferred fails flags.move a b s t)
      (cpOrMvFile (diskEnv fails hasdirs) size n a b flags) s := by
  -- a copy, after which a move to another device removes the source
  have hcopy : Lib.lower a ≠ Lib.lower b → ∀ {t : Disk}, t.file = s.file → t.dir = s.dir →
      Runs enough (fun _ t => Transferred fails flags.move a b s t) (do
        let copied ← cpFile (diskEnv fails hasdirs) size n a b flags
        if !copied then return false
        else if flags.move then
          let res ← change (.unlink a) ((diskEnv fails hasdirs).unlink a)
          return decide (res ≠ -1)
        else return true) t := by
    intro hlower t htfile htdir
    have hsrc' : t.file a = some c := (congrFun htfile a).trans hsrc
    refine runs_bind ((runs_cpFile hsize hsim hlower hn hsrc'
      ((congrFun htdir b).trans hdir)).mono fun copied u ⟨hu, hcopied⟩ => ?_)
    have hwrote : Wrote b s u := (Wrote.of_eq htfile htdir).trans hu
    have hbytes : AllSucceed fails → ∀ c', s.file a = some c' → u.file b = some c' := by
      intro hall c' hc'
      rw [(hcopied hall).2, ← hsrc, hc']
    refine runs_ite (fun hno => runs_pure (hwrote.transferred hne (fun hall => ?_) hbytes))
      fun _ => runs_ite (fun hmove => ?_) fun hmove => runs_pure (hwrote.transferred hne
        (fun _ => Bool.eq_false_of_not_eq_true hmove) hbytes)
    · rw [(hcopied hall).1] at hno
      cases hno
    have htick : Wrote b s u.tick := hwrote.trans (.of_eq rfl rfl)
    refine runs_bind (runs_change ?_)
    unfold diskEnv
    simp only
    split
    · next hfail =>
      refine runs_pure (htick.transferred hne (fun hall => ?_) hbytes)
      -- the source is there, so that `unlink` fails only with a fault
      rcases Bool.or_eq_true_iff.mp hfail with hfail | hfail
      · exact absurd hall (not_allSucceed hfail)
      · rw [hwrote.file a hne, hsrc] at hfail
        cases hfail
    · rw [hmove]
      exact runs_pure (htick.remove hne hbytes)
  unfold cpOrMvFile tryRename
  refine runs_bind (runs_ite (fun hmove => ?_) fun hmove => runs_pure (hcopy ?_ rfl rfl))
  · refine runs_rename hsrc hdir hne (fun hbad => ?_) (fun hdevice => hcopy ?_ rfl rfl) ?_
    · have hstay : Wrote b s s.tick := .of_eq rfl rfl
      exact runs_pure (hstay.transferred hne (fun hall => absurd hall hbad)
        fun hall => absurd hall hbad)
    · exact hab.resolve_right fun h => hdevice h.2
    · rw [hmove]
      exact runs_pure (renamed_transferred hne s hsrc)
  · exact hab.resolve_right fun h => hmove h.1

/-- A file that is not there, or that a copy to its destination refuses,
stays as it is. -/
theorem runs_cpOrMvFile_refused (size n : Nat) (flags : Flags)
    (h : s.file a = none ∨ Lib.lower a = Lib.lower b ∧
      (flags.move = true → a = b ∨ device a ≠ device b)) :
    Runs enough (fun _ t => Same s t) (cpOrMvFile (diskEnv fails hasdirs) size n a b flags) s := by
  have hcopy : ∀ {t : Disk}, Same s t → Runs enough (fun _ t => Same s t) (do
        let copied ← cpFile (diskEnv fails hasdirs) size n a b flags
        if !copied then return false
        else if flags.move then
          let res ← change (.unlink a) ((diskEnv fails hasdirs).unlink a)
          return decide (res ≠ -1)
        else return true) t := by
    intro t ht
    have href : Lib.lower a = Lib.lower b ∨ t.file a = none := by
      rw [ht.file]
      exact h.symm.imp (fun h => h.1) id
    refine runs_bind ((runs_cpFile_refused size n flags href).mono fun copied u ⟨hu, hno⟩ => ?_)
    rw [hno]
    exact runs_pure (ht.trans hu)
  unfold cpOrMvFile tryRename
  refine runs_bind (runs_ite (fun hmove => ?_) fun _ => runs_pure (hcopy (.refl s)))
  have htick : Same s s.tick := (Same.refl s).tick
  refine runs_rename_self ?_ (runs_pure htick) (fun _ => hcopy htick) (runs_pure htick)
  rcases h with h | ⟨-, h⟩
  · exact .inl h
  · exact .inr (h hmove)

end Alcor.Proofs.Shell
