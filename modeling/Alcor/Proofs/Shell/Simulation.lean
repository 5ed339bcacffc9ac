import Alcor.Shell.Advanced

/-!
# `Alcor.Proofs.Shell.Simulation`: commands that change nothing

A program is `Quiet` if it leaves the trace of changes as it was, in
every state. Programs that are put together from quiet ones are quiet,
so `cp` and `rm` with `-s` are quiet because each change stands behind a
test of the flag. There is one lemma for each function that the commands
call.

* `quiet_actualWalkdir`: the walker is quiet if its callback is.
* `quiet_cp`, `quiet_rm`: the commands that keep the promise.
* `mv_simulated`, `rm_simulated`: a call of each of the others. `mv`
  renames before it looks at the flag, and the callback of `rm` reads it
  from the wrong byte on big-endian machines.
* `simulation_iff`: with `-s` nothing is changed by `cp`, and by `rm` on
  little-endian machines, and by no other command.
-/

set_option autoImplicit false

namespace Alcor.Proofs.Shell

open Alcor.Shell

variable {flags : Flags} {args : List Path}
variable {S D α β : Type}
variable {walk : Path → Cmd S Bool}

/-- The program changes nothing. -/
def Quiet (m : Cmd S α) : Prop := ∀ s : Host S, (m.run s).2.trace = s.trace

theorem quiet_pure (x : α) : Quiet (pure x : Cmd S α) := fun _ => rfl

theorem quiet_unfinished : Quiet (unfinished : Cmd S α) := fun _ => rfl

theorem quiet_look (f : S → α × S) : Quiet (look f) := fun _ => rfl

/-- Two quiet parts, one behind the other. -/
theorem quiet_bind {m : Cmd S α} {next : α → Cmd S β} (h : Quiet m)
    (hnext : ∀ x, Quiet (next x)) : Quiet (m >>= next) := by
  intro s
  have hm := h s
  show ((OptionT.run m >>= fun r => match r with
    | some x => OptionT.run (next x)
    | none   => pure none) s).2.trace = s.trace
  show (match m.run s with | (r, s) => (match r with
    | some x => OptionT.run (next x)
    | none   => pure none : StateM (Host S) (Option β)) s).2.trace = s.trace
  cases hrun : m.run s with
  | mk r t =>
    rw [hrun] at hm
    cases r with
    | none => exact hm
    | some x => exact (hnext x t).trans hm

theorem quiet_ite {c : Prop} {_ : Decidable c} {m m' : Cmd S α} (h : c → Quiet m)
    (h' : ¬ c → Quiet m') : Quiet (if c then m else m') := by
  split
  · next hc => exact h hc
  · next hc => exact h' hc

/-! ### The file functions -/

variable (env : Env S D)

theorem quiet_strdup (path : Path) : Quiet (strdup env path) :=
  quiet_bind (quiet_look _) fun _ => quiet_pure _

theorem quiet_splitPath (path : Path) : Quiet (cmnFsSplitPath env path) := by
  have hdup : ∀ dir mask, Quiet (do
      let d ← strdup env dir
      return d.map fun d => (d, mask) : Cmd S (Option (Path × Path))) := fun _ _ =>
    quiet_bind (quiet_strdup env _) fun _ => quiet_pure _
  unfold cmnFsSplitPath
  refine quiet_ite (fun _ => quiet_pure _) fun _ => quiet_ite (fun _ => hdup _ _) fun _ =>
    quiet_ite (fun _ => hdup _ _) fun _ => quiet_ite (fun _ => hdup _ _) fun _ =>
    quiet_bind (quiet_look _) fun file => quiet_ite (fun _ => hdup _ _) fun _ => hdup _ _

theorem quiet_canOpendir (path : Path) : Quiet (canOpendir env path) := by
  refine quiet_bind (quiet_look _) fun d => ?_
  cases d with
  | none => exact quiet_pure _
  | some d => exact quiet_bind (quiet_look _) fun _ => quiet_pure _

theorem quiet_getType (path : Path) : Quiet (cmnFsGetType env path) := by
  unfold cmnFsGetType
  refine quiet_ite (fun _ => quiet_pure _) fun _ => quiet_ite (fun _ => quiet_pure _) fun _ =>
    quiet_ite (fun _ => ?_) fun _ => quiet_ite (fun _ => quiet_pure _) fun _ =>
    quiet_bind (quiet_look _) fun file => quiet_ite (fun _ => quiet_pure _) fun _ => ?_
  · exact quiet_bind (quiet_canOpendir env _) fun _ => quiet_pure _
  · exact quiet_bind (quiet_canOpendir env _) fun _ => quiet_pure _

theorem quiet_pathJoin (parts : List Path) : Quiet (cmnFsPathJoin env parts) :=
  quiet_ite (fun _ => quiet_pure _) fun _ => quiet_strdup env _

/-! ### The walker -/

variable {cb : Callback S}

theorem quiet_walkEntries (hcb : ∀ path ent info, Quiet (cb path ent info))
    (pattern path : Path) :
    ∀ n d hasdirs, Quiet (walkEntries env cb pattern path n d hasdirs) := by
  intro n
  induction n with
  | zero => exact fun _ _ => quiet_unfinished
  | succ n ih =>
    intro d hasdirs
    refine quiet_bind (quiet_look _) fun r => ?_
    obtain ⟨ent, d⟩ := r
    cases ent with
    | none => exact quiet_pure _
    | some ent =>
      refine quiet_ite (fun _ => ih _ _) fun _ => quiet_bind (hcb _ _ _) fun go => ?_
      exact quiet_ite (fun _ => quiet_pure _) fun _ => ih _ _

theorem quiet_walkNamed (hcb : ∀ path ent info, Quiet (cb path ent info))
    (hwalk : ∀ path, Quiet (walk path)) (path fname : Path) :
    Quiet (walkNamed env cb walk path fname) := by
  refine quiet_bind (quiet_pathJoin env _) fun name => ?_
  cases name with
  | none => exact hcb _ _ _
  | some name => exact hwalk _

theorem quiet_walkDirs (hcb : ∀ path ent info, Quiet (cb path ent info))
    (hwalk : ∀ path, Quiet (walk path)) (path : Path) :
    ∀ n d, Quiet (walkDirs env cb walk path n d) := by
  intro n
  induction n with
  | zero => exact fun _ => quiet_unfinished
  | succ n ih =>
    intro d
    refine quiet_bind (quiet_look _) fun r => ?_
    obtain ⟨ent, d⟩ := r
    cases ent with
    | none => exact quiet_pure _
    | some ent =>
      refine quiet_ite (fun _ => ih _) fun _ =>
        quiet_bind (quiet_walkNamed env hcb hwalk _ _) fun go => ?_
      exact quiet_ite (fun _ => quiet_pure _) fun _ => ih _

theorem quiet_walkAgain (hcb : ∀ path ent info, Quiet (cb path ent info))
    (hwalk : ∀ path, Quiet (walk path)) (n : Nat) (path : Path) :
    Quiet (walkAgain env cb walk n path) := by
  refine quiet_bind (quiet_look _) fun d => ?_
  cases d with
  | none => exact hcb _ _ _
  | some d =>
    refine quiet_bind (quiet_walkDirs env hcb hwalk _ _ _) fun r => ?_
    exact quiet_bind (quiet_look _) fun _ => quiet_pure _

theorem quiet_walkDown (hcb : ∀ path ent info, Quiet (cb path ent info))
    (hwalk : ∀ path, Quiet (walk path)) (n : Nat) (path : Path) (down : Bool) :
    Quiet (walkDown env cb walk n path down) := by
  refine quiet_bind (hcb _ _ _) fun go => quiet_ite (fun _ => quiet_pure _) fun _ =>
    quiet_ite (fun _ => ?_) fun _ => hcb _ _ _
  refine quiet_bind (quiet_walkAgain env hcb hwalk _ _) fun go => ?_
  exact quiet_ite (fun _ => quiet_pure _) fun _ => hcb _ _ _

/-- The walker is quiet if its callback is. -/
theorem quiet_actualWalkdir (hcb : ∀ path ent info, Quiet (cb path ent info))
    (pattern : Path) (recursive : Bool) :
    ∀ n path, Quiet (cmnFsActualWalkdir env cb pattern recursive n path) := by
  intro n
  induction n with
  | zero => exact fun _ => quiet_unfinished
  | succ n ih =>
    intro path
    refine quiet_bind (quiet_look _) fun hasdirs => quiet_bind (quiet_look _) fun d => ?_
    cases d with
    | none => exact hcb _ _ _
    | some d =>
      refine quiet_bind (hcb _ _ _) fun go => quiet_ite (fun _ => ?_) fun _ => ?_
      · exact quiet_bind (quiet_look _) fun _ => quiet_pure _
      · refine quiet_bind (quiet_walkEntries env hcb _ _ _ _ _) fun r => ?_
        obtain ⟨d, hasdirs⟩ := r
        refine quiet_bind (quiet_look _) fun _ => ?_
        cases hasdirs with
        | none => exact quiet_pure _
        | some hasdirs => exact quiet_walkDown env hcb ih _ _ _

theorem quiet_walkdir (hcb : ∀ path ent info, Quiet (cb path ent info)) (n : Nat)
    (path : Path) (recursive : Bool) : Quiet (cmnFsWalkdir env n path cb recursive) := by
  refine quiet_bind (quiet_splitPath env _) fun split => ?_
  cases split with
  | none => exact quiet_pure _
  | some split =>
    exact quiet_bind (quiet_actualWalkdir env hcb _ _ _ _) fun _ => quiet_pure _

/-! ### `cp` -/

theorem quiet_askConfirmation (flags : Flags) : Quiet (askConfirmation env flags) :=
  quiet_ite (fun _ => quiet_look _) fun _ => quiet_pure _

/-- A copy that is only simulated opens files for reading. -/
theorem quiet_cpFile (size n : Nat) (src dst : Path) (hsim : flags.simulateOnly = true) :
    Quiet (cpFile env size n src dst flags) := by
  have hclose : ∀ fd, Quiet (closeFile env fd) := fun _ => quiet_look _
  refine quiet_ite (fun _ => quiet_pure _) fun _ =>
    quiet_bind (quiet_askConfirmation env _) fun confirmed =>
    quiet_ite (fun _ => quiet_pure _) fun _ => quiet_bind (quiet_look _) fun fds => ?_
  cases fds with
  | none => exact quiet_pure _
  | some fds =>
    have hexisting : Quiet (existingFile env dst flags) :=
      quiet_ite (fun _ => quiet_pure _) fun _ => quiet_look _
    refine quiet_bind hexisting fun existing => quiet_bind ?_ fun overwrite =>
      quiet_ite (fun _ => ?_) fun _ =>
      quiet_bind (quiet_look _) fun buf => quiet_ite (fun _ => ?_) fun _ =>
      -- what is after the test of the flag is not reached
      quiet_ite (fun _ => ?_) fun hnot => absurd hsim hnot
    · cases existing with
      | none => exact quiet_pure _
      | some fdd => exact quiet_bind (hclose _) fun _ => quiet_look _
    · exact quiet_bind (hclose _) fun _ => quiet_pure _
    · exact quiet_bind (hclose _) fun _ => quiet_pure _
    · exact quiet_bind (hclose _) fun _ => quiet_pure _

theorem quiet_cpOrMvFile (size n : Nat) (src dst : Path) (hsim : flags.simulateOnly = true)
    (hmove : flags.move = false) : Quiet (cpOrMvFile env size n src dst flags) := by
  have hstay : ¬ flags.move = true := by rw [hmove]; exact Bool.false_ne_true
  have hrename : Quiet (tryRename env src dst flags) :=
    quiet_ite (fun hm => absurd hm hstay) fun _ => quiet_pure _
  refine quiet_bind hrename fun renamed => ?_
  cases renamed with
  | error => exact quiet_pure _
  | ok => exact quiet_pure _
  | exdev =>
    refine quiet_bind (quiet_cpFile env _ _ _ _ hsim) fun copied =>
      quiet_ite (fun _ => quiet_pure _) fun _ => ?_
    exact quiet_ite (fun hm => absurd hm hstay) fun _ => quiet_pure _

/-- The callback of `cp` with `-s` is quiet. -/
theorem quiet_cpWalkdirCb (size n : Nat) {ps : CpState} (hsim : ps.flags.simulateOnly = true)
    (hmove : ps.flags.move = false) (path : Path) (ent : Option Dirent) (info : FsInfo) :
    Quiet (cpWalkdirCb env size n ps path ent info) := by
  cases info with
  | BEFORE_READDIR =>
    -- `mkdir` is behind a test of the flag
    refine quiet_ite (fun _ => quiet_pure _) fun _ =>
      quiet_bind (quiet_pathJoin env _) fun tmp => ?_
    cases tmp with
    | none => exact quiet_pure _
    | some tmp =>
      refine quiet_bind (quiet_canOpendir env _) fun there =>
        quiet_ite (fun _ => quiet_pure _) fun _ => quiet_ite (fun _ => quiet_pure _) fun hnot => ?_
      exact absurd hsim hnot
  | INSIDE_READDIR =>
    cases ent with
    | none => exact quiet_pure _
    | some ent =>
      refine quiet_ite (fun _ => quiet_pure _) fun _ => quiet_ite (fun _ => quiet_pure _) fun _ =>
        quiet_bind (quiet_pathJoin env _) fun tmp => ?_
      cases tmp with
      | none => exact quiet_pure _
      | some tmp =>
        refine quiet_bind (quiet_pathJoin env _) fun tmp2 => ?_
        cases tmp2 with
        | none => exact quiet_pure _
        | some tmp2 =>
          exact quiet_bind (quiet_cpOrMvFile env _ _ _ _ hsim hmove) fun _ => quiet_pure _
  | OPENDIR_FAILED => exact quiet_pure _
  | AFTER_CLOSEDIR => exact quiet_pure _
  | MEMORY_ERROR => exact quiet_pure _
  | DIRECTORY_DONE => exact quiet_pure _

/-- `cp` with `-s` is quiet, once its arguments are known. -/
theorem quiet_cpMvPaths (size n : Nat) (hsim : flags.simulateOnly = true)
    (hmove : flags.move = false) (src dst : Path) : Quiet (cpMvPaths env size n flags src dst) := by
  refine quiet_bind (quiet_getType env _) fun srctype =>
    quiet_bind (quiet_getType env _) fun dsttype =>
    quiet_ite (fun _ => quiet_pure _) fun _ => quiet_ite (fun _ => quiet_pure _) fun _ =>
    quiet_bind (quiet_splitPath env _) fun srcsplit =>
    quiet_bind (quiet_splitPath env _) fun dstsplit =>
    quiet_ite (fun _ => quiet_ite (fun _ => ?_) fun _ => quiet_ite (fun _ => ?_)
      fun _ => quiet_pure _) fun _ => quiet_ite (fun _ => quiet_pure _) fun _ => ?_
  · exact quiet_bind (quiet_cpOrMvFile env _ _ _ _ hsim hmove) fun _ => quiet_pure _
  · cases srcsplit with
    | none => exact quiet_pure _
    | some srcsplit =>
      cases dstsplit with
      | none => exact quiet_pure _
      | some dstsplit =>
        refine quiet_bind (quiet_pathJoin env _) fun tmp => ?_
        cases tmp with
        | none => exact quiet_pure _
        | some tmp =>
          exact quiet_bind (quiet_cpOrMvFile env _ _ _ _ hsim hmove) fun _ => quiet_pure _
  · cases srcsplit with
    | none => exact quiet_pure _
    | some srcsplit =>
      cases dstsplit with
      | none => exact quiet_pure _
      | some dstsplit =>
        refine quiet_bind (quiet_walkdir env ?_ _ _ _) fun _ => quiet_pure _
        exact quiet_cpWalkdirCb env _ _ hsim hmove

/-! ### `rm` -/

theorem quiet_rmOne (path : Path) (hsim : flags.simulateOnly = true) :
    Quiet (rmOne env path flags) := by
  refine quiet_bind (quiet_getType env _) fun ftype =>
    quiet_bind (quiet_askConfirmation env _) fun confirmed =>
    quiet_ite (fun _ => quiet_pure _) fun _ => quiet_ite (fun _ => quiet_pure _) fun hnot => ?_
  exact absurd hsim hnot

/-- The callback of `rm` is quiet with the flag. -/
theorem quiet_rmWalkdirCb (hsim : flags.simulateOnly = true) (path : Path) (ent : Option Dirent)
    (info : FsInfo) : Quiet (rmWalkdirCb env flags path ent info) := by
  cases info with
  | INSIDE_READDIR =>
    cases ent with
    | none => exact quiet_pure _
    | some ent =>
      refine quiet_bind (quiet_pathJoin env _) fun tmp => ?_
      cases tmp with
      | none => exact quiet_pure _
      | some tmp =>
        refine quiet_bind (quiet_getType env _) fun ftype =>
          quiet_ite (fun _ => ?_) fun _ => quiet_pure _
        exact quiet_bind (quiet_rmOne env _ hsim) fun _ => quiet_pure _
  | DIRECTORY_DONE =>
    refine quiet_ite (fun _ => ?_) fun _ => quiet_pure _
    exact quiet_bind (quiet_rmOne env _ hsim) fun _ => quiet_pure _
  | OPENDIR_FAILED => exact quiet_pure _
  | BEFORE_READDIR => exact quiet_pure _
  | AFTER_CLOSEDIR => exact quiet_pure _
  | MEMORY_ERROR => exact quiet_pure _

/-! ### The arguments -/

/-- What an argument sets and no argument undoes holds at the end if the argument is there. -/
theorem foldl_sets {γ δ : Type} {f : γ → δ → γ} {P : γ → Prop} {a : δ}
    (hkeep : ∀ x b, P x → P (f x b)) (hset : ∀ x, P (f x a)) :
    ∀ (l : List δ) (x : γ), a ∈ l ∨ P x → P (l.foldl f x) := by
  intro l
  induction l with
  | nil =>
    rintro x (h | h)
    · cases h
    · exact h
  | cons b l ih =>
    rintro x (h | h)
    · rcases List.mem_cons.mp h with rfl | h
      · exact ih _ (.inr (hset x))
      · exact ih _ (.inl h)
    · exact ih _ (.inr (hkeep x b h))

theorem cpArgs_simulateOnly (isMove : Bool) (h : optS ∈ args) :
    (cpArgs isMove args).1.simulateOnly = true := by
  refine foldl_sets (P := fun r : Flags × Option Path × Option Path =>
    r.1.simulateOnly = true) ?_ ?_ args _ (.inl h)
  · rintro ⟨flags, src, dst⟩ arg hsim
    simp only
    repeat' split
    all_goals first | exact hsim | rfl
  · rintro ⟨flags, src, dst⟩
    rfl

theorem cpArgs_move (isMove : Bool) (args : List Path) :
    (cpArgs isMove args).1.move = isMove := by
  refine List.foldlRecOn args _
    (motive := fun r : Flags × Option Path × Option Path => r.1.move = isMove) rfl ?_
  rintro ⟨flags, src, dst⟩ hmove arg -
  simp only
  repeat' split
  all_goals exact hmove

theorem rmArgs_simulateOnly (h : optS ∈ args) : (rmArgs args).1.simulateOnly = true := by
  refine foldl_sets (P := fun r : Flags × Option Path => r.1.simulateOnly = true) ?_ ?_ args _
    (.inl h)
  · rintro ⟨flags, mask⟩ arg hsim
    simp only
    repeat' split
    all_goals first | exact hsim | rfl
  · rintro ⟨flags, mask⟩
    rfl

/-! ### The commands -/

theorem quiet_cp (size n : Nat) (h : optS ∈ args) : Quiet (cpMvCommon env size n false args) := by
  have hsim := cpArgs_simulateOnly false h
  have hmove := cpArgs_move false args
  unfold cpMvCommon
  refine quiet_ite (fun _ => quiet_pure _) fun _ => ?_
  rcases hargs : cpArgs false args with ⟨flags, src, dst⟩
  rw [hargs] at hsim hmove
  cases src with
  | none => exact quiet_pure _
  | some src =>
    cases dst with
    | none => exact quiet_pure _
    | some dst => exact quiet_cpMvPaths env size n hsim hmove src dst

theorem quiet_rm (n : Nat) (h : optS ∈ args) : Quiet (advRm env n true args) := by
  have hsim := rmArgs_simulateOnly h
  unfold advRm
  rcases hargs : rmArgs args with ⟨flags, mask⟩
  rw [hargs] at hsim
  have hbyte : (byteFlags true flags).simulateOnly = true := hsim
  cases mask with
  | none => exact quiet_pure _
  | some mask =>
    refine quiet_bind (quiet_getType env _) fun masktype =>
      quiet_ite (fun _ => quiet_rmOne env _ hsim) fun _ =>
      quiet_ite (fun _ => quiet_pure _) fun _ =>
      quiet_ite (fun _ => quiet_pure _) fun _ => ?_
    exact quiet_bind (quiet_walkdir env (quiet_rmWalkdirCb env hbyte) _ _ _) fun _ => quiet_pure _

/-- A directory `/a` with a file `x`; every operation succeeds, every answer is yes. -/
def oneFile : Env Unit Bool where
  openRead _ s := (some 3, s)
  openWrite _ s := (some 4, s)
  fopen _ s := (true, s)
  read _ _ s := ((0, []), s)
  write _ data s := (data.length, s)
  close _ s := s
  opendir _ s := (some true, s)
  readdir d s := ((if d then some { fname := [120], isDir := false } else none, false), s)
  closedir _ s := s
  mkdir _ s := (0, s)
  unlink _ s := (0, s)
  rmdir _ s := (0, s)
  rename _ _ s := (.ok, s)
  ask s := (true, s)
  malloc s := (true, s)
  hasdirs _ s := (false, s)

/-- `mv /a/b /a/c -s` renames the file. -/
theorem mv_simulated :
    ((Command.mv.run oneFile true 0 9 [[47, 97, 47, 98], [47, 97, 47, 99], optS]).run
      { sys := () }).2.trace = [.rename [47, 97, 47, 98] [47, 97, 47, 99]] := by
  decide

/-- `rm /a/* -s` on a big-endian machine removes the file. -/
theorem rm_simulated :
    ((Command.rm.run oneFile false 0 9 [[47, 97, 47, 42], optS]).run
      { sys := () }).2.trace = [.unlink [47, 97, 47, 120]] := by
  decide

/-- Not every command with `-s` changes nothing. -/
theorem simulation_fails :
    ¬ ∀ (cmd : Command) (littleEndian : Bool) (S D : Type) (env : Env S D) (size n : Nat)
      (args : List Path) (s : Host S), optS ∈ args →
        ((cmd.run env littleEndian size n args).run s).2.trace = s.trace := by
  intro h
  have htrace := h .mv true Unit Bool oneFile 0 9 [[47, 97, 47, 98], [47, 97, 47, 99], optS]
    { sys := () } (by decide)
  exact absurd (mv_simulated.symm.trans htrace) (List.cons_ne_nil _ _)

/-- **Simulation**: with `-s` nothing is changed, for every file
system and every answer, by `cp`, and by `rm` on little-endian
machines, and by no other command. `simulated_iff` says of the others
which of their calls change something. -/
theorem simulation_iff (cmd : Command) (littleEndian : Bool) :
    (∀ (S D : Type) (env : Env S D) (size n : Nat) (args : List Path) (s : Host S),
      optS ∈ args → ((cmd.run env littleEndian size n args).run s).2.trace = s.trace) ↔
    cmd = .cp ∨ cmd = .rm ∧ littleEndian = true := by
  constructor
  · intro h
    cases cmd with
    | cp => exact .inl rfl
    | mv =>
      have hmv := h Unit Bool oneFile 0 9 [[47, 97, 47, 98], [47, 97, 47, 99], optS] { sys := () }
        (by decide)
      have htrace : _ = [] := hmv
      exact absurd (mv_simulated.symm.trans htrace) (List.cons_ne_nil _ _)
    | rm =>
      cases littleEndian with
      | true => exact .inr ⟨rfl, rfl⟩
      | false =>
        have hrm := h Unit Bool oneFile 0 9 [[47, 97, 47, 42], optS] { sys := () } (by decide)
        rw [rm_simulated] at hrm
        cases hrm
  · rintro (rfl | ⟨rfl, rfl⟩) S D env size n args s hs
    · exact quiet_cp env size n hs s
    · exact quiet_rm env n hs s

end Alcor.Proofs.Shell
