import Alcor.Proofs.Shell.Destination
import Alcor.Proofs.Shell.Simulation

/-!
# `Alcor.Proofs.Shell.Simulated`: what a simulated command still does

`simulation_iff` says for which commands and machines `-s` is kept, with
one call as a counterexample for each of the others. This module is
about every call of the others: `mv`, and `rm` on a big-endian machine.

* `Place.env` is a file system whose directories and files, until they
  are changed, are those of a place: a tree at the path that the command
  is given. Whether a file can be opened, what an operation that changes
  something answers, and what the user says, may be anything.
* `Place.Moves` and `Place.Removes` say that the command finds a file to
  move or to remove there.
* `simulated_iff` is the main fact: the call issues an operation if and
  only if it finds one.

What comes after the first operation does not matter to the statement, so
`Longer` is all that is needed of it: no part of a command takes an
operation back.
-/

set_option autoImplicit false

namespace Alcor.Proofs.Shell

open Alcor.Shell

variable {c : Call} {q path dir : Path} {n : Nat} {flags : Flags}
variable {S D α β : Type}
variable {m : Cmd S α} {next : α → Cmd S β} {s : Host S}

/-! ### Programs that issue operations -/

/-- The program takes back nothing that was issued before it. -/
def Longer (m : Cmd S α) : Prop := ∀ s : Host S, s.trace.length ≤ (m.run s).2.trace.length

/-- The program issues an operation from this state. -/
def Issues (m : Cmd S α) (s : Host S) : Prop := s.trace.length < (m.run s).2.trace.length

theorem Quiet.longer (h : Quiet m) : Longer m :=
  fun s => le_of_eq (congrArg List.length (h s).symm)

theorem longer_pure (x : α) : Longer (pure x : Cmd S α) := (quiet_pure x).longer

theorem longer_look (f : S → α × S) : Longer (look f) := (quiet_look f).longer

theorem issues_change (op : Mutation) (f : S → α × S) (s : Host S) : Issues (change op f) s := by
  show s.trace.length < (s.trace ++ [op]).length
  simp

theorem longer_change (op : Mutation) (f : S → α × S) : Longer (change op f) :=
  fun s => le_of_lt (issues_change op f s)

/-- The length of the trace behind two programs is at least that behind
the first of them. -/
theorem length_trace_bind (hnext : ∀ x, Longer (next x)) (s : Host S) :
    (m.run s).2.trace.length ≤ ((m >>= next).run s).2.trace.length := by
  show _ ≤ (match m.run s with | (r, s) => (match r with
    | some x => OptionT.run (next x)
    | none   => pure none : StateM (Host S) (Option β)) s).2.trace.length
  rcases m.run s with ⟨_ | x, t⟩
  · exact le_refl _
  · exact hnext x t

theorem longer_bind (h : Longer m) (hnext : ∀ x, Longer (next x)) : Longer (m >>= next) :=
  fun s => (h s).trans (length_trace_bind hnext s)

/-- What the first program issues stays. -/
theorem issues_bind (h : Issues m s) (hnext : ∀ x, Longer (next x)) : Issues (m >>= next) s :=
  lt_of_lt_of_le h (length_trace_bind hnext s)

/-- A quiet program leaves what the one before it has issued. -/
theorem trace_bind_quiet (hnext : ∀ x, Quiet (next x)) (s : Host S) :
    ((m >>= next).run s).2.trace = (m.run s).2.trace := by
  show (match m.run s with | (r, s) => (match r with
    | some x => OptionT.run (next x)
    | none   => pure none : StateM (Host S) (Option β)) s).2.trace = _
  rcases m.run s with ⟨_ | x, t⟩
  · rfl
  · exact hnext x t

theorem longer_ite {c : Prop} {_ : Decidable c} {m' : Cmd S α} (h : Longer m) (h' : Longer m') :
    Longer (if c then m else m') := by
  split
  · exact h
  · exact h'

theorem Issues.ne (h : Issues m s) : (m.run s).2.trace ≠ s.trace := by
  intro heq
  unfold Issues at h
  rw [heq] at h
  exact lt_irrefl _ h

/-- A command that returns at once issues nothing. -/
theorem nothing_iff {c : Prop} (hc : ¬ c) : ((pure () : Cmd S Unit).run s).2.trace ≠ s.trace ↔ c :=
  iff_of_false (fun h => h rfl) hc

/-! ### The parts of the commands -/

section Parts
variable (env : Env S D)

theorem longer_copyLoop (fds fdd size : Nat) :
    ∀ n, Longer (copyLoop env fds fdd size n) := by
  intro n
  induction n with
  | zero => exact quiet_unfinished.longer
  | succ n ih =>
    refine longer_bind (longer_look _) fun r => ?_
    obtain ⟨datalen, data⟩ := r
    refine longer_ite (longer_pure _) (longer_bind (longer_change _ _) fun datawrote => ?_)
    exact longer_ite (longer_pure _) (longer_ite (longer_pure _) (longer_ite (longer_pure _) ih))

theorem longer_closeFile (fd : Nat) : Longer (closeFile env fd) := longer_look _

/-- A copy takes nothing back. -/
theorem longer_cpFile (size n : Nat) (src dst : Path) (flags : Flags) :
    Longer (cpFile env size n src dst flags) := by
  have hclose : ∀ fd (x : Bool), Longer (do
      closeFile env fd
      return x) := fun fd x => longer_bind (longer_closeFile env fd) fun _ => longer_pure x
  have hexisting : Longer (existingFile env dst flags) :=
    longer_ite (longer_pure _) (longer_look _)
  have hoverwrite : ∀ existing, Longer (askOverwrite env existing) := by
    intro existing
    cases existing with
    | none => exact longer_pure _
    | some fdd => exact longer_bind (longer_closeFile env _) fun _ => longer_look _
  refine longer_ite (longer_pure _) (longer_bind (quiet_askConfirmation env _).longer
    fun confirmed => longer_ite (longer_pure _) (longer_bind (longer_look _) fun fds => ?_))
  cases fds with
  | none => exact longer_pure _
  | some fds =>
    refine longer_bind hexisting fun existing => longer_bind (hoverwrite existing) fun overwrite =>
      longer_ite (hclose _ _) (longer_bind (longer_look _) fun buf => longer_ite (hclose _ _)
      (longer_ite (hclose _ _) (longer_bind (longer_change _ _) fun fdd => ?_)))
    cases fdd with
    | none => exact hclose _ _
    | some fdd =>
      exact longer_bind (longer_copyLoop env _ _ _ _) fun _ =>
        longer_bind (longer_closeFile env _) fun _ => hclose _ _

/-- Nothing behind the `rename` takes it back, and a file that is to be
moved is renamed whatever the other flags are. -/
theorem cpOrMvFile_issues (size n : Nat) (src dst : Path) (flags : Flags) :
    Longer (cpOrMvFile env size n src dst flags) ∧
      (flags.move = true → ∀ s, Issues (cpOrMvFile env size n src dst flags) s) := by
  refine ⟨longer_bind (longer_ite (longer_change _ _) (longer_pure _)) ?after,
    fun hmove s => issues_bind ?_ ?after⟩
  case after =>
    intro renamed
    cases renamed with
    | error => exact longer_pure _
    | ok => exact longer_pure _
    | exdev =>
      refine longer_bind (longer_cpFile env _ _ _ _ _) fun copied => longer_ite (longer_pure _)
        (longer_ite ?_ (longer_pure _))
      exact longer_bind (longer_change _ _) fun _ => longer_pure _
  · unfold tryRename
    rw [if_pos hmove]
    exact issues_change _ _ s

end Parts

/-! ### The place -/

section Place
variable (p : Place) (E : Env S (List Dirent))

theorem canOpendir_env (path : Path) :
    canOpendir (p.env E) path = (pure (p.dirAt path).isSome : Cmd S Bool) := by
  have hopen : look ((p.env E).opendir path) =
      (pure (p.dirAt path) : Cmd S (Option (List Dirent))) := rfl
  unfold canOpendir
  rw [hopen, pure_bind]
  cases p.dirAt path with
  | none => rfl
  | some d => rfl

theorem getType_env (path : Path) :
    cmnFsGetType (p.env E) path = (pure (p.typeOf path) : Cmd S FsType) := by
  have hopen : look ((p.env E).fopen path) = (pure (p.isFile path) : Cmd S Bool) := rfl
  unfold cmnFsGetType Place.typeOf
  simp only [hopen, canOpendir_env, pure_bind]
  repeat' split
  all_goals rfl

theorem splitPath_env (path : Path) :
    cmnFsSplitPath (p.env E) path = (pure (splitOf p.isFile path) : Cmd S _) := by
  have hsame : cmnFsSplitPath (p.env E) path =
      cmnFsSplitPath (walkEnv p.dirAt p.isFile p.hasdirs) path := rfl
  rw [hsame, splitPath_eq]

theorem pathJoin_env (parts : List Path) :
    cmnFsPathJoin (p.env E) parts =
      (pure (if joinTotal parts = 0 then none else some (joined parts)) : Cmd S _) := by
  have hdup : strdup (p.env E) (joined parts) = (pure (some (joined parts)) : Cmd S _) := rfl
  unfold cmnFsPathJoin
  rw [hdup]
  split <;> rfl

theorem walkEntries_env (cb : Callback S) (pattern path : Path) (n : Nat) :
    ∀ d hasdirs, walkEntries (p.env E) cb pattern path n d hasdirs =
      walkEntries (walkEnv p.dirAt p.isFile p.hasdirs) cb pattern path n d hasdirs := by
  induction n with
  | zero => exact fun _ _ => rfl
  | succ n ih =>
    intro d hasdirs
    simp only [walkEntries, ih]
    rfl

theorem walkDirs_env (cb : Callback S) (walk : Path → Cmd S Bool) (path : Path) (n : Nat) :
    ∀ d, walkDirs (p.env E) cb walk path n d =
      walkDirs (walkEnv p.dirAt p.isFile p.hasdirs) cb walk path n d := by
  induction n with
  | zero => exact fun _ => rfl
  | succ n ih =>
    intro d
    simp only [walkDirs, ih]
    rfl

/-- The walker looks at the directories only, and they are those of the
place. -/
theorem actualWalkdir_env (cb : Callback S) (pattern : Path) (recursive : Bool) (n : Nat) :
    ∀ path, cmnFsActualWalkdir (p.env E) cb pattern recursive n path =
      cmnFsActualWalkdir (walkEnv p.dirAt p.isFile p.hasdirs) cb pattern recursive n path := by
  induction n with
  | zero => exact fun _ => rfl
  | succ n ih =>
    intro path
    have hwalk := funext ih
    simp only [cmnFsActualWalkdir, walkEntries_env, walkDown, walkAgain, walkDirs_env, hwalk]
    rfl

end Place

/-! ### The calls of a walk -/

/-- What is true of every call of a walk from `q`: it is for something
under `q`, the directory could be opened, and an entry has a name. -/
def WalkCall (q : Path) (c : Call) : Prop :=
  q <+: c.path ∧ c.info ≠ .OPENDIR_FAILED ∧
    ∀ ent, c.ent = some ent → ∃ name : Name, ent.fname = name.path

/-- A path is the beginning of the paths below it, also if it ends in a
slash. -/
theorem prefix_inside (hq : q.head? = some SLASH) (name : Name) :
    q <+: Dir.inside q name ∧ (Dir.inside q name).head? = some SLASH := by
  obtain ⟨rest, rfl⟩ : ∃ rest, q = SLASH :: rest := by
    cases q with
    | nil => cases hq
    | cons c rest => exact ⟨rest, by rw [Option.some.inj hq]⟩
  have hhead : name.path.head? ≠ some SLASH := fun h => name.no_slash (List.mem_of_head? h)
  have hlast : ∀ init : Path, (init ++ name.path).getLast? ≠ some SLASH := by
    intro init h
    rw [List.getLast?_append_of_ne_nil _ name.ne_nil] at h
    exact name.no_slash (List.mem_of_getLast? h)
  simp only [Dir.inside, joined, List.foldl_cons, List.foldl_nil, reduceCtorEq, if_false,
    List.head?_cons, if_true, List.drop_one, List.tail_cons, name.ne_nil, hhead,
    List.singleton_append, hlast, List.dropLast_concat]
  split
  · exact ⟨List.prefix_append _ _, rfl⟩
  · exact ⟨(List.prefix_append _ _).trans (List.prefix_append _ _), rfl⟩

section Calls
variable {pattern : Path} {recursive : Bool} {hasdirs : Path → Bool}

theorem walkCall_dirCalls (dir : Dir) {below : List Call} (hbelow : ∀ c ∈ below, WalkCall q c)
    (hc : c ∈ dirCalls pattern recursive hasdirs q dir below) : WalkCall q c := by
  have hat (info : FsInfo) (h : info ≠ .OPENDIR_FAILED) :
      WalkCall q { path := q, ent := none, info } :=
    ⟨List.prefix_refl _, h, fun _ hent => by cases hent⟩
  simp only [dirCalls, List.mem_append, List.mem_singleton] at hc
  rcases hc with (((rfl | hc) | rfl) | hc) | rfl
  · exact hat _ (by decide)
  · obtain ⟨ent, hent, rfl⟩ := List.mem_map.mp hc
    refine ⟨List.prefix_refl _, by simp, fun e he => ?_⟩
    cases he
    exact name_of_mem_entries (List.mem_filter.mp hent).1
  · exact hat _ (by decide)
  · split at hc
    · exact hbelow c hc
    · cases hc
  · exact hat _ (by decide)

theorem walkCall_belowCalls (dir : Dir) :
    ∀ {q : Path} {c : Call}, q.head? = some SLASH →
      c ∈ belowCalls pattern recursive hasdirs q dir → WalkCall q c := by
  induction dir with
  | empty =>
    intro q c _ hc
    cases hc
  | file name rest ih => exact ih
  | sub name inner rest ihinner ih =>
    intro q c hq hc
    obtain ⟨hunder, hhead⟩ := prefix_inside hq name
    rcases List.mem_append.mp hc with hc | hc
    · have hcall := walkCall_dirCalls inner (fun c => ihinner hhead) hc
      exact ⟨hunder.trans hcall.1, hcall.2⟩
    · exact ih hq hc

theorem walkCall_walkCalls (hq : q.head? = some SLASH) (dir : Dir)
    (hc : c ∈ walkCalls pattern recursive hasdirs q dir) : WalkCall q c :=
  walkCall_dirCalls dir (fun _ => walkCall_belowCalls dir hq) hc

end Calls

/-- A callback that returns 1 without doing anything for some of the
calls, and issues an operation for each of the others. -/
theorem offerAll_issues_iff {cb : Callback S} {calls : List Call} {found : Call → Prop}
    (hlonger : ∀ c : Call, Longer (cb c.path c.ent c.info))
    (hquiet : ∀ c ∈ calls, ¬ found c → cb c.path c.ent c.info = pure true)
    (hissues : ∀ c ∈ calls, found c → ∀ s, Issues (cb c.path c.ent c.info) s) (s : Host S) :
    ((offerAll cb calls).run s).2.trace ≠ s.trace ↔ ∃ c ∈ calls, found c := by
  have hall : ∀ calls, Longer (offerAll cb calls) := by
    intro calls
    induction calls with
    | nil => exact longer_pure _
    | cons c calls ih => exact longer_bind (hlonger c) fun _ => longer_ite (longer_pure _) ih
  induction calls with
  | nil => exact iff_of_false (fun h => h rfl) (by simp)
  | cons c calls ih =>
    by_cases hc : found c
    · refine ⟨fun _ => ⟨c, List.mem_cons_self, hc⟩, fun _ => Issues.ne ?_⟩
      exact issues_bind (hissues c List.mem_cons_self hc s)
        fun _ => longer_ite (longer_pure _) (hall calls)
    · have hrest : offerAll cb (c :: calls) = offerAll cb calls := by
        rw [offerAll, hquiet c List.mem_cons_self hc, pure_bind]
        rfl
      rw [hrest, List.exists_mem_cons_iff, or_iff_right hc]
      exact ih (fun c hc => hquiet c (List.mem_cons_of_mem _ hc))
        fun c hc => hissues c (List.mem_cons_of_mem _ hc)

/-! ### The callbacks -/

section Callbacks
variable (p : Place) (E : Env S (List Dirent))

/-- A name takes room in a path that is joined. -/
theorem joinTotal_name (parts : List Path) (name : Name) :
    joinTotal (parts ++ [name.path]) ≠ 0 := by
  have hhead : name.path.head? ≠ some SLASH := fun h => name.no_slash (List.mem_of_head? h)
  have hlen : 0 < name.path.length := List.length_pos_iff.mpr name.ne_nil
  have hparts : 0 ≤ joinTotal parts := by
    refine List.sum_nonneg fun x hx => ?_
    obtain ⟨path, -, rfl⟩ := List.mem_map.mp hx
    exact joinPart_nonneg path
  have hsum : joinTotal (parts ++ [name.path]) = joinTotal parts +
      ((name.path.length : Int) + (if name.path.getLast? = some SLASH then 0 else 1)) := by
    simp [joinTotal, name.ne_nil, hhead]
  rw [hsum]
  split <;> omega

/-- So does a directory with more than the slash. -/
theorem joinTotal_dir (hdir : 2 ≤ dir.length) (path : Path) : joinTotal [dir, path] ≠ 0 := by
  have hne : dir ≠ [] := List.ne_nil_of_length_pos (by omega)
  have hpart := joinPart_nonneg path
  have hsum : joinTotal [dir, path] = ((dir.length : Int) +
      (if dir.getLast? = some SLASH then 0 else 1) - (if dir.head? = some SLASH then 1 else 0)) +
      (if path = [] then 0
        else (path.length : Int) + (if path.getLast? = some SLASH then 0 else 1) -
          (if path.head? = some SLASH then 1 else 0)) := by
    simp only [joinTotal, List.map_cons, List.map_nil, List.sum_cons, List.sum_nil, hne, if_false,
      Int.add_zero]
  rw [hsum]
  generalize (if path = [] then (0 : Int) else _) = part at hpart ⊢
  split <;> split <;> omega

/-- The callback of `cp` and `mv` takes nothing back. -/
theorem longer_cpWalkdirCb (size n : Nat) (ps : CpState) (c : Call) :
    Longer (cpWalkdirCb (p.env E) size n ps c.path c.ent c.info) := by
  obtain ⟨path, ent, info⟩ := c
  have hjoin : ∀ parts, Longer (cmnFsPathJoin (p.env E) parts) :=
    fun parts => (quiet_pathJoin (p.env E) parts).longer
  cases info with
  | BEFORE_READDIR =>
    refine longer_ite (longer_pure _) (longer_bind (hjoin _) fun tmp => ?_)
    cases tmp with
    | none => exact longer_pure _
    | some tmp =>
      refine longer_bind (quiet_canOpendir (p.env E) tmp).longer fun there =>
        longer_ite (longer_pure _) (longer_ite (longer_pure _) ?_)
      exact longer_bind (longer_change _ _) fun _ => longer_pure _
  | INSIDE_READDIR =>
    cases ent with
    | none => exact longer_pure _
    | some ent =>
      refine longer_ite (longer_pure _) (longer_ite (longer_pure _)
        (longer_bind (hjoin _) fun tmp => ?_))
      cases tmp with
      | none => exact longer_pure _
      | some tmp =>
        refine longer_bind (hjoin _) fun tmp2 => ?_
        cases tmp2 with
        | none => exact longer_pure _
        | some tmp2 =>
          exact longer_bind (cpOrMvFile_issues (p.env E) size n tmp tmp2 ps.flags).1
            fun _ => longer_pure _
  | OPENDIR_FAILED => exact longer_pure _
  | AFTER_CLOSEDIR => exact longer_pure _
  | MEMORY_ERROR => exact longer_pure _
  | DIRECTORY_DONE => exact longer_pure _

/-- With `-s` the callback of `cp` and `mv` does nothing for what is no
file. -/
theorem cpWalkdirCb_other (size n : Nat) {ps : CpState} (hc : WalkCall ps.psrcdir c)
    (hsim : ps.flags.simulateOnly = true) (hdst : 2 ≤ ps.pdestdir.length)
    (hother : ¬ ∃ e, c.entry = some e ∧ e.2.isDir = false) :
    cpWalkdirCb (p.env E) size n ps c.path c.ent c.info = pure true := by
  obtain ⟨path, ent, info⟩ := c
  have hunder : ps.psrcdir.isPrefixOf path = true := List.isPrefixOf_iff_prefix.mpr hc.1
  cases info with
  | BEFORE_READDIR =>
    simp only [cpWalkdirCb, hunder, Bool.not_true, Bool.false_eq_true, if_false, pathJoin_env,
      if_neg (joinTotal_dir hdst _), pure_bind, canOpendir_env, hsim, if_true]
    split <;> rfl
  | INSIDE_READDIR =>
    cases ent with
    | none => rfl
    | some ent =>
      cases hdir : ent.isDir with
      | true => simp only [cpWalkdirCb, hdir, if_true]
      | false => exact absurd ⟨(path, ent), rfl, hdir⟩ hother
  | OPENDIR_FAILED => exact absurd rfl hc.2.1
  | AFTER_CLOSEDIR => rfl
  | MEMORY_ERROR => rfl
  | DIRECTORY_DONE => rfl

/-- A file is moved, with `-s` and without. -/
theorem cpWalkdirCb_file (size n : Nat) {ps : CpState} (hc : WalkCall ps.psrcdir c)
    (hmove : ps.flags.move = true) (hfile : ∃ e, c.entry = some e ∧ e.2.isDir = false)
    (s : Host S) : Issues (cpWalkdirCb (p.env E) size n ps c.path c.ent c.info) s := by
  obtain ⟨path, ent, info⟩ := c
  obtain ⟨e, hentry, hdir⟩ := hfile
  have hunder : ps.psrcdir.isPrefixOf path = true := List.isPrefixOf_iff_prefix.mpr hc.1
  cases info with
  | INSIDE_READDIR =>
    cases ent with
    | none => cases hentry
    | some ent =>
      cases hentry
      obtain ⟨name, hname⟩ := hc.2.2 ent rfl
      have hfile : ent.isDir = false := hdir
      have htmp : joinTotal [path, ent.fname] ≠ 0 := hname ▸ joinTotal_name [path] name
      have htmp2 : joinTotal [ps.pdestdir, ps.relative path, ent.fname] ≠ 0 :=
        hname ▸ joinTotal_name [ps.pdestdir, ps.relative path] name
      simp only [cpWalkdirCb, hfile, hunder, Bool.not_true, Bool.false_eq_true, if_false,
        pathJoin_env, pure_bind, if_neg htmp, if_neg htmp2]
      exact issues_bind ((cpOrMvFile_issues (p.env E) size n _ _ ps.flags).2 hmove s)
        fun _ => longer_pure _
  | BEFORE_READDIR => cases hentry
  | OPENDIR_FAILED => cases hentry
  | AFTER_CLOSEDIR => cases hentry
  | MEMORY_ERROR => cases hentry
  | DIRECTORY_DONE => cases hentry

theorem longer_rmOne (path : Path) (flags : Flags) : Longer (rmOne (p.env E) path flags) := by
  refine longer_bind (quiet_getType _ _).longer fun ftype =>
    longer_bind (quiet_askConfirmation _ _).longer fun confirmed => longer_ite (longer_pure _)
    (longer_ite (longer_pure _) (longer_ite ?_ (longer_ite ?_ (longer_pure _))))
  · exact longer_bind (longer_change _ _) fun _ => longer_pure _
  · exact longer_bind (longer_change _ _) fun _ => longer_pure _

/-- The callback of `rm` takes nothing back. -/
theorem longer_rmWalkdirCb (flags : Flags) (c : Call) :
    Longer (rmWalkdirCb (p.env E) flags c.path c.ent c.info) := by
  obtain ⟨path, ent, info⟩ := c
  cases info with
  | INSIDE_READDIR =>
    cases ent with
    | none => exact longer_pure _
    | some ent =>
      refine longer_bind (quiet_pathJoin _ _).longer fun tmp => ?_
      cases tmp with
      | none => exact longer_pure _
      | some tmp =>
        refine longer_bind (quiet_getType _ _).longer fun ftype => longer_ite ?_ (longer_pure _)
        exact longer_bind (longer_rmOne p E _ _) fun _ => longer_pure _
  | DIRECTORY_DONE =>
    exact longer_ite (longer_bind (longer_rmOne p E _ _) fun _ => longer_pure _) (longer_pure _)
  | OPENDIR_FAILED => exact longer_pure _
  | BEFORE_READDIR => exact longer_pure _
  | AFTER_CLOSEDIR => exact longer_pure _
  | MEMORY_ERROR => exact longer_pure _

/-- Without its flags the callback of `rm` does nothing for what is no
file, and removes no directory. -/
theorem rmWalkdirCb_other (hc : WalkCall q c)
    (hother : ¬ ∃ e, c.entry = some e ∧ p.typeOf (joined [e.1, e.2.fname]) = .FILE) :
    rmWalkdirCb (p.env E) {} c.path c.ent c.info = pure true := by
  obtain ⟨path, ent, info⟩ := c
  cases info with
  | INSIDE_READDIR =>
    cases ent with
    | none => rfl
    | some ent =>
      obtain ⟨name, hname⟩ := hc.2.2 ent rfl
      have htmp : joinTotal [path, ent.fname] ≠ 0 := hname ▸ joinTotal_name [path] name
      have htype : p.typeOf (joined [path, ent.fname]) ≠ .FILE :=
        fun h => hother ⟨(path, ent), rfl, h⟩
      simp only [rmWalkdirCb, pathJoin_env, if_neg htmp, pure_bind, getType_env, if_neg htype]
  | OPENDIR_FAILED => exact absurd rfl hc.2.1
  | DIRECTORY_DONE => rfl
  | BEFORE_READDIR => rfl
  | AFTER_CLOSEDIR => rfl
  | MEMORY_ERROR => rfl

/-- Without its flags it removes a file without a question. -/
theorem rmWalkdirCb_file (hc : WalkCall q c)
    (hfile : ∃ e, c.entry = some e ∧ p.typeOf (joined [e.1, e.2.fname]) = .FILE) (s : Host S) :
    Issues (rmWalkdirCb (p.env E) {} c.path c.ent c.info) s := by
  obtain ⟨path, ent, info⟩ := c
  obtain ⟨e, hentry, htype⟩ := hfile
  cases info with
  | INSIDE_READDIR =>
    cases ent with
    | none => cases hentry
    | some ent =>
      cases hentry
      obtain ⟨name, hname⟩ := hc.2.2 ent rfl
      have htmp : joinTotal [path, ent.fname] ≠ 0 := hname ▸ joinTotal_name [path] name
      have hfile : p.typeOf (joined [path, ent.fname]) = .FILE := htype
      simp only [rmWalkdirCb, rmOne, askConfirmation, pathJoin_env, if_neg htmp, pure_bind,
        getType_env, hfile, if_true, Bool.not_true, Bool.false_eq_true, if_false, bind_assoc]
      exact issues_bind (issues_change _ _ s) fun _ => longer_pure _
  | BEFORE_READDIR => cases hentry
  | OPENDIR_FAILED => cases hentry
  | AFTER_CLOSEDIR => cases hentry
  | MEMORY_ERROR => cases hentry
  | DIRECTORY_DONE => cases hentry

end Callbacks

/-! ### The commands -/

section Commands
variable (p : Place) (E : Env S (List Dirent))

/-- A walk of the place issues an operation if and only if it visits
something that its callback does not pass over. -/
theorem walkdir_issues_iff {cb : Callback S} {found : Path × Dirent → Prop} {recursive : Bool}
    (hn : p.tree.size + 2 ≤ n) {pattern : Path}
    (hsplit : splitOf p.isFile p.path = some (dir, pattern)) (hdir : dir.head? = some SLASH)
    (hlonger : ∀ c : Call, Longer (cb c.path c.ent c.info))
    (hquiet : ∀ c, WalkCall dir c → (¬ ∃ e, c.entry = some e ∧ found e) →
      cb c.path c.ent c.info = pure true)
    (hissues : ∀ c, WalkCall dir c → (∃ e, c.entry = some e ∧ found e) →
      ∀ s, Issues (cb c.path c.ent c.info) s) (s : Host S) :
    ((cmnFsWalkdir (p.env E) n p.path cb recursive).run s).2.trace ≠ s.trace ↔
      ∃ e ∈ visited (p.calls recursive), found e := by
  obtain ⟨hat, hbelow⟩ := p.at_dir dir pattern hsplit
  have hcalls : p.calls recursive = walkCalls pattern recursive p.hasdirs dir p.tree := by
    unfold Place.calls
    rw [hsplit]
  have hwalk : cmnFsWalkdir (p.env E) n p.path cb recursive =
      offerAll cb (p.calls recursive) >>= fun _ => pure true := by
    unfold cmnFsWalkdir
    rw [splitPath_env, hsplit, pure_bind, hcalls]
    show cmnFsActualWalkdir (p.env E) cb pattern recursive n dir >>= (fun _ => pure true) = _
    rw [actualWalkdir_env, actualWalkdir_eq cb n dir p.tree hn hat hbelow]
  have hmem : ∀ c ∈ p.calls recursive, WalkCall dir c := by
    rw [hcalls]
    exact fun c hc => walkCall_walkCalls hdir p.tree hc
  have hoffer := offerAll_issues_iff hlonger (fun c hc => hquiet c (hmem c hc))
    (fun c hc => hissues c (hmem c hc)) s
  rw [hwalk, trace_bind_quiet (fun _ => quiet_pure _), hoffer]
  constructor
  · rintro ⟨c, hc, e, hentry, he⟩
    exact ⟨e, List.mem_filterMap.mpr ⟨c, hc, hentry⟩, he⟩
  · rintro ⟨e, hmem, he⟩
    obtain ⟨c, hc, hentry⟩ := List.mem_filterMap.mp hmem
    exact ⟨c, hc, e, hentry, he⟩

theorem typeOf_ne_fileNotFound (path : Path) : p.typeOf path ≠ .FILE_NOT_FOUND := by
  unfold Place.typeOf
  repeat' split
  all_goals simp

/-- The path of a file is cut at its last slash. -/
theorem splitOf_file (h : p.typeOf path = .FILE) :
    splitOf p.isFile path = some (parent path, lastName path) := by
  unfold Place.typeOf at h
  unfold splitOf
  split at h
  · cases h
  next hvalid =>
  split at h
  · cases h
  next hslash =>
  split at h
  · split at h <;> cases h
  next hlast =>
  split at h
  · cases h
  next hpattern =>
  split at h
  · next hfile => rw [if_neg hvalid, if_neg hslash, if_neg hlast, if_neg hpattern, if_pos hfile]
  · split at h <;> cases h

theorem valid_cases (h : ¬ isInvalid path = true) : ∃ c rest, path = SLASH :: c :: rest := by
  unfold isInvalid at h
  rcases path with _ | ⟨s, _ | ⟨c, rest⟩⟩
  · exact absurd rfl h
  · exact absurd rfl h
  · have hs : s = SLASH := by
      by_contra hne
      exact h (by simp [hne])
    exact ⟨c, rest, by rw [hs]⟩

/-- A path with a second slash has a directory before the last one. -/
theorem head_parent {rest : Path} (h : SLASH ∈ rest) :
    (parent (SLASH :: rest)).head? = some SLASH := by
  have hpath : child (parent (SLASH :: rest)) (lastName (SLASH :: rest)) = SLASH :: rest :=
    child_parent List.mem_cons_self
  unfold child at hpath
  cases hparent : parent (SLASH :: rest) with
  | nil =>
    rw [hparent] at hpath
    have hlast : lastName (SLASH :: rest) = rest := (List.cons.inj hpath).2
    have hnot := slash_notMem_lastName (SLASH :: rest)
    rw [hlast] at hnot
    exact absurd h hnot
  | cons c dir =>
    rw [hparent] at hpath
    rw [(List.cons.inj hpath).1]
    rfl

/-- A directory to walk begins with a slash. -/
theorem splitOf_head {pattern : Path} (h : splitOf p.isFile path = some (dir, pattern)) :
    dir.head? = some SLASH := by
  unfold splitOf at h
  split at h
  · cases h
  next hvalid =>
  obtain ⟨c, rest, rfl⟩ := valid_cases hvalid
  split at h
  · cases h
    rfl
  next hslash =>
  have hrest : SLASH ∈ c :: rest := not_not.mp hslash
  split at h
  · cases h
    rfl
  split at h
  · cases h
    exact head_parent hrest
  split at h
  · cases h
    exact head_parent hrest
  · cases h
    rfl

/-- What is walked is split into a directory and a mask. -/
theorem splitOf_source (h : p.typeOf path = .DIR ∨ p.typeOf path = .PATTERN) :
    ∃ dir mask, splitOf p.isFile path = some (dir, mask) := by
  have hvalid : isInvalid path ≠ true := by
    intro hinv
    unfold Place.typeOf at h
    rw [if_pos hinv] at h
    simp at h
  have hsome : splitOf p.isFile path ≠ none := fun hnone =>
    hvalid ((splitOf_eq_none p.isFile path).mp hnone)
  obtain ⟨⟨dir, mask⟩, hsplit⟩ := Option.ne_none_iff_exists'.mp hsome
  exact ⟨dir, mask, hsplit⟩

/-- The directory that things are put into, for a destination that is
one or becomes one. -/
theorem splitOf_dest (hpath : path ≠ [SLASH, SLASH])
    (h : p.typeOf path = .DIR ∨ p.typeOf path = .UNKNOWN_NOT_FOUND) :
    ∃ dir mask, splitOf p.isFile path = some (dir, mask) ∧ 2 ≤ dir.length := by
  unfold Place.typeOf at h
  unfold splitOf
  split at h
  · simp at h
  next hvalid =>
  rw [if_neg hvalid]
  obtain ⟨c, rest, rfl⟩ := valid_cases hvalid
  have hlen : 2 ≤ (SLASH :: c :: rest).length := by simp
  split at h
  · next hslash =>
    rw [if_pos hslash]
    exact ⟨_, _, rfl, hlen⟩
  next hslash =>
  rw [if_neg hslash]
  split at h
  · next hlast =>
    rw [if_pos hlast]
    refine ⟨_, _, rfl, ?_⟩
    cases rest with
    | nil => exact absurd (congrArg (SLASH :: ·) (congrArg (· :: []) (Option.some.inj hlast))) hpath
    | cons c' rest => simp
  next hlast =>
  rw [if_neg hlast]
  split at h
  · simp at h
  next hpattern =>
  rw [if_neg hpattern]
  split at h
  · simp at h
  next hfile =>
  rw [if_neg hfile]
  exact ⟨_, _, rfl, hlen⟩

/-- `shellh_adv_cp_mv_common` behind its arguments: a `mv` with `-s`
issues an operation if and only if it finds a file. -/
theorem cpMvPaths_issues_iff (hsim : flags.simulateOnly = true) (hmove : flags.move = true)
    (size : Nat) (hn : p.tree.size + 2 ≤ n) {dst : Path} (hdst : dst ≠ [SLASH, SLASH])
    (s : Host S) :
    ((cpMvPaths (p.env E) size n flags p.path dst).run s).2.trace ≠ s.trace ↔
      p.Moves flags.recursive dst := by
  have hrename : ∀ tmp, Issues (do
      let _ ← cpOrMvFile (p.env E) size n p.path tmp flags
      return () : Cmd S Unit) s := fun tmp =>
    issues_bind ((cpOrMvFile_issues (p.env E) size n p.path tmp flags).2 hmove s)
      fun _ => longer_pure _
  have hother := typeOf_ne_fileNotFound p dst
  unfold cpMvPaths Place.Moves
  simp only [getType_env, splitPath_env, pure_bind]
  by_cases hfile : p.typeOf p.path = .FILE
  · have hsplit := splitOf_file p hfile
    rw [hfile, hsplit]
    cases htype : p.typeOf dst with
    | FILE => exact iff_of_true (hrename dst).ne (.inl ⟨rfl, .inl rfl⟩)
    | UNKNOWN_NOT_FOUND => exact iff_of_true (hrename dst).ne (.inl ⟨rfl, .inr (.inr rfl)⟩)
    | DIR =>
      obtain ⟨dir, mask, hdest, hlen⟩ := splitOf_dest p hdst (.inl htype)
      refine iff_of_true ?_ (.inl ⟨rfl, .inr (.inl rfl)⟩)
      rw [hdest]
      simp only [pathJoin_env, if_neg (joinTotal_dir hlen _), pure_bind]
      exact (hrename _).ne
    | PATTERN => exact nothing_iff (by simp)
    | ERROR => exact nothing_iff (by simp)
    | DIR_NOT_FOUND => exact nothing_iff (by simp)
    | FILE_NOT_FOUND => exact absurd htype hother
  by_cases hsrc : p.typeOf p.path = .DIR ∨ p.typeOf p.path = .PATTERN
  · by_cases hdest : p.typeOf dst = .DIR ∨ p.typeOf dst = .UNKNOWN_NOT_FOUND
    · obtain ⟨srcdir, pattern, hsplit⟩ := splitOf_source p hsrc
      obtain ⟨dir, mask, hdstsplit, hlen⟩ := splitOf_dest p hdst hdest
      have hvalid : invalidTypes (p.typeOf p.path) (p.typeOf dst) = false := by
        rcases hsrc with hsrc | hsrc <;> rcases hdest with hdest | hdest <;>
          rw [hsrc, hdest] <;> rfl
      have hpattern : p.typeOf dst ≠ .PATTERN := by
        rcases hdest with hdest | hdest <;> rw [hdest] <;> simp
      have hnofile : ¬ (p.typeOf dst = .FILE ∨ p.typeOf dst = .FILE_NOT_FOUND) := by
        rcases hdest with hdest | hdest <;> rw [hdest] <;> simp
      simp only [hfile, hsrc, hdest, hvalid, hpattern, hnofile, if_false, Bool.false_eq_true,
        false_and, true_and, false_or, hsplit, hdstsplit]
      rw [trace_bind_quiet fun _ => quiet_pure _]
      refine walkdir_issues_iff p E hn hsplit (splitOf_head p hsplit)
        (longer_cpWalkdirCb p E size n _) (fun c hc hnot => ?_) (fun c hc hfound => ?_) s
      · exact cpWalkdirCb_other p E size n hc hsim hlen hnot
      · exact cpWalkdirCb_file p E size n hc hmove hfound
    · have hmoves : ¬ p.Moves flags.recursive dst :=
        fun h => h.elim (fun h => hfile h.1) fun h => hdest h.2.1
      refine iff_of_false (not_not.mpr ?_) hmoves
      rw [if_neg hfile]
      cases htype : p.typeOf dst with
      | DIR => exact absurd (.inl htype) hdest
      | UNKNOWN_NOT_FOUND => exact absurd (.inr htype) hdest
      | FILE => rcases hsrc with hsrc | hsrc <;> rw [hsrc] <;> rfl
      | PATTERN => rfl
      | ERROR => rcases hsrc with hsrc | hsrc <;> rw [hsrc] <;> rfl
      | DIR_NOT_FOUND => rcases hsrc with hsrc | hsrc <;> rw [hsrc] <;> rfl
      | FILE_NOT_FOUND => exact absurd htype hother
  · have hinvalid : invalidTypes (p.typeOf p.path) (p.typeOf dst) = true := by
      cases htype : p.typeOf p.path with
      | DIR => exact absurd (.inl htype) hsrc
      | PATTERN => exact absurd (.inr htype) hsrc
      | FILE => exact absurd htype hfile
      | ERROR => rfl
      | FILE_NOT_FOUND => rfl
      | DIR_NOT_FOUND => rfl
      | UNKNOWN_NOT_FOUND => rfl
    rw [if_pos hinvalid, ite_self]
    exact nothing_iff fun h => h.elim (fun h => hfile h.1) fun h => hsrc h.1

/-- `shell_adv_rm` on a big-endian machine. A file that is named itself
is not removed, as `shellh_rm_one` is then given the flags; the callback
does not have them. -/
theorem advRm_issues_iff (hn : p.tree.size + 2 ≤ n) {args : List Path} (hs : optS ∈ args)
    (hargs : rmArgs args = (flags, some p.path)) (s : Host S) :
    ((advRm (p.env E) n false args).run s).2.trace ≠ s.trace ↔ p.Removes flags.recursive := by
  have hsim : flags.simulateOnly = true := by
    have hsim := rmArgs_simulateOnly hs
    rwa [hargs] at hsim
  have hbyte : byteFlags false flags = {} := rfl
  -- a walk comes to a file or it does not
  have hwalk : (p.typeOf p.path = .DIR ∨ p.typeOf p.path = .PATTERN) →
      (((cmnFsWalkdir (p.env E) n p.path (rmWalkdirCb (p.env E) {}) flags.recursive >>=
          fun _ => pure ()).run s).2.trace ≠ s.trace ↔
        ∃ e ∈ visited (p.calls flags.recursive),
          p.typeOf (joined [e.1, e.2.fname]) = .FILE) := by
    intro htype
    obtain ⟨dir, mask, hsplit⟩ := splitOf_source p htype
    rw [trace_bind_quiet fun _ => quiet_pure _]
    exact walkdir_issues_iff p E hn hsplit (splitOf_head p hsplit) (longer_rmWalkdirCb p E {})
      (fun _ hc hnot => rmWalkdirCb_other p E hc hnot)
      (fun _ hc hfound => rmWalkdirCb_file p E hc hfound) s
  unfold advRm Place.Removes
  simp only [hargs, getType_env, pure_bind, hbyte]
  cases htype : p.typeOf p.path with
  | FILE => exact iff_of_false (not_not.mpr (quiet_rmOne (p.env E) p.path hsim s)) (by simp)
  | DIR =>
    cases hrec : flags.recursive with
    | false => exact nothing_iff (by simp)
    | true =>
      rw [hrec] at hwalk
      simpa using hwalk (.inl htype)
  | PATTERN => simpa using hwalk (.inr htype)
  | ERROR => exact nothing_iff (by simp)
  | FILE_NOT_FOUND => exact nothing_iff (by simp)
  | DIR_NOT_FOUND => exact nothing_iff (by simp)
  | UNKNOWN_NOT_FOUND => exact nothing_iff (by simp)

/-- Two paths among the arguments are at least two arguments. -/
theorem two_le_length_of_cpArgs {isMove : Bool} {args : List Path} {src dst : Path}
    (h : cpArgs isMove args = (flags, some src, some dst)) : 2 ≤ args.length := by
  rcases args with _ | ⟨arg, _ | ⟨arg', args⟩⟩
  · cases h
  · unfold cpArgs at h
    simp only [List.foldl_cons, List.foldl_nil] at h
    repeat' split at h
    all_goals cases h
  · simp

/-- **What `-s` does not prevent**: with `-s` among its arguments, `mv`
issues an operation if and only if it finds a file to move, and `rm` on
a big-endian machine if and only if it comes to a file by a walk. The
destination `//` is left out, into which `cmn_fs_path_join` does not
find a path. -/
theorem simulated_iff {n : Nat} (hn : p.tree.size + 2 ≤ n) (size : Nat) (s : Host S) :
    (∀ littleEndian args flags dst, optS ∈ args →
        cpArgs true args = (flags, some p.path, some dst) → dst ≠ [SLASH, SLASH] →
        (((Command.mv.run (p.env E) littleEndian size n args).run s).2.trace ≠ s.trace ↔
          p.Moves flags.recursive dst)) ∧
      ∀ args flags, optS ∈ args → rmArgs args = (flags, some p.path) →
        (((Command.rm.run (p.env E) false size n args).run s).2.trace ≠ s.trace ↔
          p.Removes flags.recursive) := by
  constructor
  · intro littleEndian args flags dst hs hargs hdst
    have hsim : flags.simulateOnly = true := by
      have hsim := cpArgs_simulateOnly true hs
      rwa [hargs] at hsim
    have hmove : flags.move = true := by
      have hmove := cpArgs_move true args
      rwa [hargs] at hmove
    have hlen : ¬ args.length < 2 := not_lt.mpr (two_le_length_of_cpArgs hargs)
    have hrun : Command.mv.run (p.env E) littleEndian size n args =
        cpMvPaths (p.env E) size n flags p.path dst := by
      unfold Command.run cpMvCommon
      simp only [if_neg hlen, hargs]
    rw [hrun]
    exact cpMvPaths_issues_iff p E hsim hmove size hn hdst s
  · intro args flags hs hargs
    exact advRm_issues_iff p E hn hs hargs s

end Commands

/-- `/fs/*`, where `/fs` has a directory `d` with a file `x.c`. -/
def wholeFs : Place where
  path := [47, 102, 115, 47, 42]
  isFile path := path = [47, 102, 115, 47, 100, 47, 120, 46, 99]
  hasdirs _ := false
  dirAt path := if path = [47, 102, 115] then some nested.entries
    else some [{ fname := [120, 46, 99], isDir := false }]
  tree := nested
  at_dir := by
    rintro dir pattern h
    cases h
    exact ⟨rfl, rfl, trivial, trivial⟩

/-- A file system on which nothing that is to change anything succeeds. -/
def refusing : Env Unit (List Dirent) :=
  walkEnv (fun _ => none) (fun _ => false) fun _ => false

/-- `mv /fs/* /b -R -s` and, on a big-endian machine, `rm /fs/* -R -s`
issue operations, also where each of these fails: both come to `x.c`. -/
theorem simulated_iff_nested :
    ((Command.mv.run (wholeFs.env refusing) true 0 4
        [wholeFs.path, [47, 98], optR, optS]).run { sys := () }).2.trace ≠ [] ∧
      ((Command.rm.run (wholeFs.env refusing) false 0 4 [wholeFs.path, optR, optS]).run
        { sys := () }).2.trace ≠ [] := by
  obtain ⟨hmv, hrm⟩ := simulated_iff wholeFs refusing (n := 4) (by decide) 0 { sys := () }
  have hmoves : wholeFs.Moves true [47, 98] :=
    .inr ⟨.inr (by decide), .inl (by decide), by decide⟩
  have hremoves : wholeFs.Removes true := ⟨.inr (by decide), by decide⟩
  exact ⟨(hmv true _ _ [47, 98] (by decide) rfl (by decide)).mpr hmoves,
    (hrm _ _ (by decide) rfl).mpr hremoves⟩

end Alcor.Proofs.Shell
