import Alcor.Proofs.Shell.Walk
import Alcor.Proofs.Shell.Walker

/-!
# `Alcor.Proofs.Shell.Erasure`: one walker, written down twice

`cmn_fs_actual_walkdir` stands in the model in two forms.
`Alcor.Shell.cmnFsActualWalkdir` is what the commands call: it has no
variable `d` and no label `abort`, and each directory is closed where
the loop over it is left. `Walker.cmnFsActualWalkdir` goes through the
statements as they stand in `src/common_fs.c`, numbers its handles and
writes down what it does. `actualWalkdir_erases` says that the first
is the second with the handles erased: from every state and with every
number of steps, both come to their end or both need more steps, with
the same result and in the same state of the system, so also with the
same calls of the callback.

* `Erases` relates a part of the one to a part of the other, and
  `Erases.bind` puts two parts one after the other.
* `readLoop_erases` and `walkLoop_erases` are about the loops. What a
  handle has left to read is the directory of the other walker.
* `walkBody_erases` is about the function up to the label `abort`.
-/

set_option autoImplicit false

namespace Alcor.Proofs.Shell.Walker

open Alcor.Shell (Path Dirent FsInfo Call Env Host Cmd Callback Disk diskEnv look joined
  joinTotal cmnPatternMatches)
open Alcor.Shell.Walker

variable {S α β : Type} {env : Around S} {E : Env S (List Dirent)} {path : Path} {s s' : State S}
variable {R : α → β → State S → Prop} {m : Walk S α} {c : Cmd S β}

/-- A file system for the commands answers the walker as the one with
handles does. A directory is the list of what is left to read, and to
close it changes nothing. -/
structure Agrees (env : Around S) (E : Env S (List Dirent)) : Prop where
  opendir : E.opendir = env.opendir
  readdir : ∀ d sys, E.readdir d sys = ((d.head?, d.tail), sys)
  closedir : ∀ d sys, E.closedir d sys = sys
  malloc : E.malloc = env.malloc
  hasdirs : E.hasdirs = env.hasdirs

/-- The directories of a disk, for the walker with handles. -/
def aroundDisk (fails : Nat → Bool) (hasdirs : Path → Bool)
    (callback : Call → Disk → Bool × Disk) : Around Disk where
  opendir := (diskEnv fails hasdirs).opendir
  callback
  malloc := (diskEnv fails hasdirs).malloc
  hasdirs := (diskEnv fails hasdirs).hasdirs

/-- The disk on which the copies are made is such a file system, with
every pattern of failures. -/
theorem diskEnv_agrees (fails : Nat → Bool) (hasdirs : Path → Bool)
    (callback : Call → Disk → Bool × Disk) :
    Agrees (aroundDisk fails hasdirs callback) (diskEnv fails hasdirs) :=
  ⟨rfl, fun _ _ => rfl, fun _ _ => rfl, rfl, rfl⟩

/-- The callback of the walker with handles, for the one of the
commands. -/
def callbackOf (env : Around S) : Callback S :=
  fun path ent info => look (env.callback { path, ent, info })

/-- From a state of the walker with handles, and whatever was changed
before, a program without handles ends exactly if the one with handles
does, in the same state of the system and with a related result. -/
def Erases (m : Walk S α) (c : Cmd S β) (s : State S) (R : α → β → State S → Prop) : Prop :=
  ∀ trace, match m s with
    | none         => (c.run ⟨s.sys, trace⟩).1 = none
    | some (a, s') => ∃ b, c.run ⟨s.sys, trace⟩ = (some b, ⟨s'.sys, trace⟩) ∧ R a b s'

/-! ### Programs one after the other -/

/-- The second parts are related wherever the first have come to. -/
theorem Erases.bind {α' β' : Type} {next : α → Walk S α'} {cont : β → Cmd S β'}
    {Q : α' → β' → State S → Prop} (hm : Erases m c s R)
    (hnext : ∀ a b s', m s = some (a, s') → R a b s' → Erases (next a) (cont b) s' Q) :
    Erases (m >>= next) (c >>= cont) s Q := by
  intro trace
  have hfirst := hm trace
  show match (m s).bind fun p => next p.1 p.2 with
    | none         => ((c >>= cont).run ⟨s.sys, trace⟩).1 = none
    | some (a, s') => ∃ b, (c >>= cont).run ⟨s.sys, trace⟩ = (some b, ⟨s'.sys, trace⟩) ∧ Q a b s'
  cases hrun : m s with
  | none =>
    rw [hrun] at hfirst
    show (match c.run ⟨s.sys, trace⟩ with | (r, t) => (match r with
      | some x => (cont x).run
      | none   => pure none : StateM (Host S) (Option β')) t).1 = none
    generalize c.run ⟨s.sys, trace⟩ = out at hfirst
    obtain ⟨r, t⟩ := out
    obtain rfl : r = none := hfirst
    rfl
  | some p =>
    obtain ⟨a, s₁⟩ := p
    rw [hrun] at hfirst
    obtain ⟨b, hb, hR⟩ := hfirst
    rw [Option.bind_some, Shell.run_bind hb]
    exact hnext a b s₁ hrun hR trace

/-- The program without handles has nothing behind its first part. -/
theorem Erases.bindLast {α' : Type} {next : α → Walk S α'} {Q : α' → β → State S → Prop}
    (hm : Erases m c s R)
    (hnext : ∀ a b s', m s = some (a, s') → R a b s' → Erases (next a) (Pure.pure b) s' Q) :
    Erases (m >>= next) c s Q := by
  rw [← bind_pure c]
  exact hm.bind hnext

theorem Erases.pure {a : α} {b : β} (h : R a b s) : Erases (Pure.pure a) (Pure.pure b) s R :=
  fun _ => ⟨b, rfl, h⟩

theorem Erases.ite {b : Bool} {m' : Walk S α} {c' : Cmd S β} (h : b = true → Erases m c s R)
    (h' : b = false → Erases m' c' s R) :
    Erases (if b then m else m') (if b then c else c') s R := by
  cases b with
  | true => exact h rfl
  | false => exact h' rfl

theorem Erases.mono {Q : α → β → State S → Prop} (h : Erases m c s R)
    (hR : ∀ a b s', R a b s' → Q a b s') : Erases m c s Q := by
  intro trace
  have hrun := h trace
  cases hm : m s with
  | none =>
    rw [hm] at hrun
    exact hrun
  | some p =>
    rw [hm] at hrun
    obtain ⟨b, hb, hab⟩ := hrun
    exact ⟨b, hb, hR _ _ _ hab⟩

/-! ### The operations -/

/-- The callback is called with the same arguments. -/
theorem erases_cb (env : Around S) (path : Path) (ent : Option Dirent) (info : FsInfo)
    (s : State S) :
    Erases (cb env path ent info) (callbackOf env path ent info) s
      fun go go' s' => go = go' ∧ s'.left = s.left ∧ s'.opened = s.opened :=
  fun _ => ⟨_, rfl, rfl, rfl, rfl⟩

/-- One call of the callback, whose result decides where the walker
goes on. -/
theorem erases_cb_only (env : Around S) (path : Path) (info : FsInfo) (s : State S) (x y : α) :
    Erases (do
      let go ← cb env path none info
      if !go then return x else return y) (callbackOf env path none info) s
      fun flow go s' => flow = (if go then y else x) ∧ s'.left = s.left ∧ s'.opened = s.opened := by
  refine (erases_cb env path none info s).bindLast fun go go' s₁ _ hgo => ?_
  obtain ⟨rfl, hleft, hopened⟩ := hgo
  cases go with
  | true => exact Erases.pure ⟨rfl, hleft, hopened⟩
  | false => exact Erases.pure ⟨rfl, hleft, hopened⟩

/-- Reading from a handle reads from the directory it stands for. -/
theorem erases_readdir (hE : Agrees env E) {k : Nat} {d : List Dirent} (hk : s.left k = d) :
    Erases (dmReaddir k) (look (E.readdir d)) s
      fun ent r s' => r = (ent, s'.left k) ∧ s'.opened = s.opened := by
  intro trace
  refine ⟨_, ?_, rfl, rfl⟩
  show (some (E.readdir d s.sys).1, (⟨(E.readdir d s.sys).2, trace⟩ : Host S)) = _
  rw [hE.readdir, hk]
  simp only [Function.update_self]

/-- A directory is opened; the new handle stands for it. -/
theorem erases_opendir (hE : Agrees env E) (path : Path) (s : State S) :
    Erases (dmOpendir env path) (look (E.opendir path)) s
      fun k d s' => d = k.map s'.left := by
  intro trace
  have hlook : (look (E.opendir path) : Cmd S (Option (List Dirent))).run ⟨s.sys, trace⟩ =
      (some (env.opendir path s.sys).1, ⟨(env.opendir path s.sys).2, trace⟩) := by
    rw [hE.opendir]
    rfl
  rcases hopen : env.opendir path s.sys with ⟨_ | entries, sys⟩
  · rw [hopen] at hlook
    simp only [dmOpendir, hopen]
    exact ⟨none, hlook, by simp⟩
  · rw [hopen] at hlook
    simp only [dmOpendir, hopen]
    exact ⟨some entries, hlook, by rw [Option.map_some, Function.update_self]⟩

/-- To close a directory does nothing without handles. -/
theorem look_closedir (hE : Agrees env E) (d : List Dirent) :
    (look fun sys => ((), E.closedir d sys) : Cmd S Unit) = Pure.pure () := by
  simp only [hE.closedir]
  rfl

theorem erases_dmClosedir (k : Nat) (s : State S) :
    Erases (dmClosedir k) (Pure.pure () : Cmd S Unit) s fun _ _ _ => True :=
  fun _ => ⟨_, rfl, trivial⟩

theorem erases_hasdirsOf (hE : Agrees env E) (path : Path) (s : State S) :
    Erases (hasdirsOf env path) (look (E.hasdirs path)) s fun b b' _ => b = b' := by
  intro trace
  refine ⟨_, ?_, rfl⟩
  rw [hE.hasdirs]
  rfl

/-- The path of an entry, if there is memory for it. -/
theorem erases_cmnFsPathJoin (hE : Agrees env E) (parts : List Path) (s : State S) :
    Erases (cmnFsPathJoin env parts) (Alcor.Shell.cmnFsPathJoin E parts) s
      fun fullname fullname' s' =>
        fullname = fullname' ∧ s'.left = s.left ∧ s'.opened = s.opened := by
  intro trace
  by_cases htotal : joinTotal parts = 0
  · simp only [cmnFsPathJoin, Alcor.Shell.cmnFsPathJoin, if_pos htotal]
    exact ⟨none, rfl, by simp⟩
  · simp only [cmnFsPathJoin, Alcor.Shell.cmnFsPathJoin, if_neg htotal, Alcor.Shell.strdup,
      hE.malloc]
    exact ⟨_, rfl, by simp⟩

/-! ### The loops -/

section Loops
variable (pattern : Path)

/-- The first loop. When the callback returns 0 the walker without
handles says `none` for `hasdirs`. -/
theorem readLoop_erases (hE : Agrees env E) (path : Path) (n : Nat) :
    ∀ (k : Nat) (d : List Dirent) (hasdirs : Bool) (s : State S), s.left k = d →
      Erases (readLoop env pattern path n k hasdirs)
        (Alcor.Shell.walkEntries E (callbackOf env) pattern path n d hasdirs) s
        fun flow r _ => flow = match r.2 with
          | some hasdirs => .next hasdirs
          | none         => .abort (some k) := by
  induction n with
  | zero => exact fun k d hasdirs s _ _ => rfl
  | succ n ih =>
    intro k d hasdirs s hk
    refine (erases_readdir hE hk).bind fun ent r s₁ _ hent => ?_
    obtain ⟨rfl, -⟩ := hent
    cases ent with
    | none => exact Erases.pure rfl
    | some ent =>
      refine Erases.ite (fun _ => ih k _ hasdirs s₁ rfl) fun _ => ?_
      refine (erases_cb env path (some ent) .INSIDE_READDIR s₁).bind
        fun go go' s₂ _ hgo => ?_
      obtain ⟨rfl, hleft, -⟩ := hgo
      refine Erases.ite (fun _ => Erases.pure rfl) fun _ => ?_
      have hdirs : (if ent.isDir = true then true else hasdirs) = (hasdirs || ent.isDir) := by
        cases ent.isDir <;> cases hasdirs <;> rfl
      rw [hdirs]
      exact ih k _ _ s₂ (congrFun hleft k)

variable {walk : Path → Walk S Bool} {walk' : Path → Cmd S Bool}

/-- The body of the second loop, if the walks of the directories below
are related. -/
theorem walkEntry_erases (hE : Agrees env E)
    (hwalk : ∀ p s, Erases (walk p) (walk' p) s fun r r' _ => r = r') (path : Path) (k : Nat)
    (ent : Dirent) (s : State S) :
    Erases (walkEntry env walk path k ent)
      (Alcor.Shell.walkNamed E (callbackOf env) walk' path ent.fname) s
      fun flow go _ => flow = if go then .next () else .abort (some k) := by
  refine (erases_cmnFsPathJoin hE [path, ent.fname] s).bind fun fullname fullname' s₁ _ h => ?_
  obtain ⟨rfl, -, -⟩ := h
  cases fullname with
  | some fullname =>
    refine (hwalk fullname s₁).bindLast fun r r' s₂ _ hr => ?_
    subst hr
    cases r with
    | true => exact Erases.pure rfl
    | false => exact Erases.pure rfl
  | none => exact (erases_cb_only env path .MEMORY_ERROR s₁ _ _).mono fun _ _ _ h => h.1

/-- The second loop. A walk of a directory below leaves what this
handle has left to read. -/
theorem walkLoop_erases (hE : Agrees env E)
    (hwalked : ∀ p s r s', walk p s = some (r, s') → Walked s r s')
    (hwalk : ∀ p s, Erases (walk p) (walk' p) s fun r r' _ => r = r') (path : Path) (n : Nat) :
    ∀ (k : Nat) (d : List Dirent) (s : State S), k < s.opened → s.left k = d →
      Erases (walkLoop env walk path n k)
        (Alcor.Shell.walkDirs E (callbackOf env) walk' path n d) s
        fun flow r _ => flow = if r.2 then .next () else .abort (some k) := by
  induction n with
  | zero => exact fun k d s _ _ _ => rfl
  | succ n ih =>
    intro k d s hopened hk
    refine (erases_readdir hE hk).bind fun ent r s₁ hread hent => ?_
    obtain ⟨rfl, hsame⟩ := hent
    have hopened₁ : k < s₁.opened := hsame ▸ hopened
    cases ent with
    | none => exact Erases.pure rfl
    | some ent =>
      cases hdir : ent.isDir with
      | false =>
        simp only [hdir, Bool.false_eq_true, if_false, Bool.not_false, if_true]
        exact ih k _ s₁ hopened₁ rfl
      | true =>
        simp only [hdir, if_true, Bool.not_true, Bool.false_eq_true, if_false]
        refine (walkEntry_erases hE hwalk path k ent s₁).bind fun flow go s₂ hentry hgo => ?_
        subst hgo
        cases go with
        | false => exact Erases.pure rfl
        | true =>
          obtain ⟨hopened₂, hleft⟩ := walkEntry_keeps hwalked hopened₁ hentry
          exact ih k _ s₂ hopened₂ hleft

end Loops

/-! ### The function -/

section Function
variable (pattern : Path) (recursive : Bool)

/-- The function goes on exactly if the other walker says so; no
statement in the middle of it returns 1. -/
def Leads : Flow Unit → Bool → Prop
  | .next _,  go => go = true
  | .abort _, go => go = false
  | .ret r,   go => r = false ∧ go = false

/-- A call of the callback behind which nothing is left to do. -/
theorem erases_cb_outcome (env : Around S) (path : Path) (info : FsInfo) (s : State S)
    {flow : Flow Unit} (hflow : Leads flow false) :
    Erases (do
      let go ← cb env path none info
      if !go then return flow else return .next ()) (callbackOf env path none info) s
      fun flow go _ => Leads flow go := by
  refine (erases_cb_only env path info s flow (.next ())).mono fun flow' go s₁ h => ?_
  rw [h.1]
  cases go with
  | true => rfl
  | false => exact hflow

variable {walk : Path → Walk S Bool} {walk' : Path → Cmd S Bool}

/-- The directory is read again. Behind the loop the one walker closes
it, and the other leaves that to the label `abort` if the callback has
returned 0. -/
theorem walkAgain_erases (hE : Agrees env E)
    (hwalked : ∀ p s r s', walk p s = some (r, s') → Walked s r s')
    (hwalk : ∀ p s, Erases (walk p) (walk' p) s fun r r' _ => r = r') (n : Nat) (path : Path)
    (s : State S) :
    Erases (walkAgain env walk n path)
      (Alcor.Shell.walkAgain E (callbackOf env) walk' n path) s
      fun flow go _ => Leads flow go := by
  refine (erases_opendir hE path s).bind fun k d s₁ hopen hd => ?_
  subst hd
  cases k with
  | none => exact erases_cb_outcome env path .OPENDIR_FAILED s₁ ⟨rfl, rfl⟩
  | some k =>
    obtain ⟨hk, -, hopened, -⟩ := dmOpendir_some hopen
    refine (walkLoop_erases hE hwalked hwalk path n k _ s₁ (by omega) rfl).bind
      fun flow r s₂ _ hflow => ?_
    subst hflow
    obtain ⟨d, go⟩ := r
    simp only [look_closedir hE]
    cases go with
    | true => exact (erases_dmClosedir k s₂).bind fun _ _ s₃ _ _ => Erases.pure rfl
    | false => exact Erases.pure rfl

/-- The statements behind the first loop. -/
theorem closeAndDescend_erases (hE : Agrees env E)
    (hwalked : ∀ p s r s', walk p s = some (r, s') → Walked s r s')
    (hwalk : ∀ p s, Erases (walk p) (walk' p) s fun r r' _ => r = r') (n : Nat) (path : Path)
    (k : Nat) (hasdirs : Bool) (s : State S) :
    Erases (closeAndDescend env recursive walk n path k hasdirs)
      (Alcor.Shell.walkDown E (callbackOf env) walk' n path (recursive && hasdirs)) s
      fun flow go _ => Leads flow go := by
  have hdone (t : State S) : Erases (directoryDone env path)
      (callbackOf env path none .DIRECTORY_DONE) t fun flow go _ => Leads flow go :=
    erases_cb_outcome env path .DIRECTORY_DONE t rfl
  -- the handle is closed first
  rw [closeAndDescend, ← pure_bind () fun _ => Alcor.Shell.walkDown E (callbackOf env) walk' n path
    (recursive && hasdirs)]
  refine (erases_dmClosedir k s).bind fun _ _ s₁ _ _ => ?_
  refine (erases_cb env path none .AFTER_CLOSEDIR s₁).bind fun go go' s₂ _ hgo => ?_
  obtain ⟨rfl, -, -⟩ := hgo
  refine Erases.ite (fun _ => Erases.pure rfl) fun _ => ?_
  refine Erases.ite (fun _ => ?_) fun _ => hdone s₂
  refine (walkAgain_erases hE hwalked hwalk n path s₂).bind fun flow go s₃ _ hflow => ?_
  cases flow with
  | next x =>
    obtain rfl : go = true := hflow
    exact hdone s₃
  | abort d =>
    obtain rfl : go = false := hflow
    exact Erases.pure rfl
  | ret r =>
    obtain ⟨rfl, rfl⟩ := hflow
    exact Erases.pure ⟨rfl, rfl⟩

/-- The function up to the label `abort`, if the walks of directories
below are related. -/
theorem walkBody_erases (hE : Agrees env E)
    (hwalked : ∀ p s r s', walk p s = some (r, s') → Walked s r s') (n : Nat)
    (hwalk : ∀ p s, Erases (walk p)
      (Alcor.Shell.cmnFsActualWalkdir E (callbackOf env) pattern recursive n p) s
      fun r r' _ => r = r') (path : Path) (s : State S) :
    Erases (walkBody env pattern recursive walk n path)
      (Alcor.Shell.cmnFsActualWalkdir E (callbackOf env) pattern recursive (n + 1) path) s
      fun flow go _ => Leads flow go := by
  rw [Alcor.Shell.cmnFsActualWalkdir]
  refine (erases_hasdirsOf hE path s).bind fun hasdirs hasdirs' s₁ _ h => ?_
  subst h
  refine (erases_opendir hE path s₁).bind fun k d s₂ hopen hd => ?_
  subst hd
  cases k with
  | none => exact erases_cb_outcome env path .OPENDIR_FAILED s₂ ⟨rfl, rfl⟩
  | some k =>
    refine (erases_cb env path none .BEFORE_READDIR s₂).bind fun go go' s₃ _ hgo => ?_
    obtain ⟨rfl, hleft, -⟩ := hgo
    simp only [look_closedir hE]
    refine Erases.ite (fun _ => Erases.pure rfl) fun _ => ?_
    refine (readLoop_erases pattern hE path n k _ hasdirs s₃ (congrFun hleft k)).bind
      fun flow r s₄ _ hflow => ?_
    subst hflow
    obtain ⟨d, found⟩ := r
    cases found with
    | none => exact Erases.pure rfl
    | some found => exact closeAndDescend_erases recursive hE hwalked hwalk n path k found s₄

/-- The label `abort` closes what is open; the result is the one the
other walker has already. -/
theorem atAbort_erases {flow : Flow Unit} {go : Bool} (h : Leads flow go) (s : State S) :
    Erases (atAbort flow) (Pure.pure go) s fun r r' _ => r = r' := by
  cases flow with
  | next x =>
    obtain rfl : go = true := h
    exact fun _ => ⟨true, rfl, rfl⟩
  | abort d =>
    obtain rfl : go = false := h
    cases d with
    | none => exact fun _ => ⟨false, rfl, rfl⟩
    | some k => exact fun _ => ⟨false, rfl, rfl⟩
  | ret r =>
    obtain ⟨rfl, rfl⟩ := h
    exact fun _ => ⟨false, rfl, rfl⟩

/-- **One walker**: what the commands walk with is the walker of the
source with its handles erased. -/
theorem actualWalkdir_erases (hE : Agrees env E) (n : Nat) :
    ∀ (path : Path) (s : State S), Erases (cmnFsActualWalkdir env pattern recursive n path)
      (Alcor.Shell.cmnFsActualWalkdir E (callbackOf env) pattern recursive n path) s
      fun r r' _ => r = r' := by
  induction n with
  | zero => exact fun path s _ => rfl
  | succ n ih =>
    intro path s
    rw [cmnFsActualWalkdir]
    exact (walkBody_erases pattern recursive hE (actualWalkdir_walked pattern recursive n) n ih
      path s).bindLast fun flow go s₁ _ hgo => atAbort_erases hgo s₁

end Function

end Alcor.Proofs.Shell.Walker
