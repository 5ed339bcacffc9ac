import Alcor.Proofs.Shell.Paths
import Alcor.Proofs.Shell.Walk
import Alcor.Shell.Tree
import Mathlib.Data.List.Nodup

/-!
# `Alcor.Proofs.Shell.Recursive`: a walk while files are changed

`Runs` is the correctness of a program from a state, `Ends` with the end
of it. Each way to put programs together has its rule (`runs_pure`,
`runs_look`, `runs_change`, `runs_bind`, `runs_ite`, `Runs.mono`), and
both loops of the walker have one.

* `ends_walk`: the rule of the walker. If the directories that the walk
  enters are there whenever they are opened, and each call takes an
  invariant on the calls so far to the one with that call, then a walk
  takes it to the one with all calls.
* `mem_visited_walkCalls`: a walk visits the entries that match in the
  directories that it enters.
-/

set_option autoImplicit false

namespace Alcor.Proofs.Shell

open Alcor.Shell

variable {q : Path} {dir : Dir} {e : Dirent} {calls : List Call}
variable {S α β : Type}
variable {s : S} {Q : α → S → Prop} {m : Cmd S α}

/-! ### Programs that end -/

/-- What a program does from a state: it comes to an end if it was
given enough steps, and where it comes to an end, what it returns and
the state then are as stated. -/
def Runs (enough : Prop) (Q : α → S → Prop) (m : Cmd S α) (s : S) : Prop :=
  ∀ trace, match m.run { sys := s, trace } with
    | (some x, t) => Q x t.sys
    | (none, _)   => ¬ enough

/-- The program comes to an end, and what it returns and the state then
are as stated. -/
abbrev Ends (Q : α → S → Prop) (m : Cmd S α) (s : S) : Prop := Runs True Q m s

section Rules
variable {enough : Prop}

theorem runs_pure {x : α} (h : Q x s) : Runs enough Q (pure x) s :=
  fun _ => h

theorem runs_look {f : S → α × S} (h : Q (f s).1 (f s).2) :
    Runs enough Q (look f) s := fun _ => h

theorem runs_change {op : Mutation} {f : S → α × S} (h : Q (f s).1 (f s).2) :
    Runs enough Q (change op f) s := fun _ => h

theorem runs_unfinished (h : ¬ enough) :
    Runs enough Q (unfinished : Cmd S α) s := fun _ => h

theorem run_bind_none {next : α → Cmd S β} {s t : Host S} (h : m.run s = (none, t)) :
    (m >>= next).run s = (none, t) := by
  show (match m.run s with | (r, s) => (match r with
    | some x => OptionT.run (next x)
    | none   => pure none : StateM (Host S) (Option β)) s) = _
  rw [h]
  rfl

/-- **The bind rule**: what the first part ends with is where the
second one begins. -/
theorem runs_bind {Q : β → S → Prop} {next : α → Cmd S β}
    (h : Runs enough (fun x t => Runs enough Q (next x) t) m s) : Runs enough Q (m >>= next) s := by
  intro trace
  have hm := h trace
  rcases hrun : m.run { sys := s, trace } with ⟨_ | x, t⟩
  · rw [hrun] at hm
    rw [run_bind_none hrun]
    exact hm
  · rw [hrun] at hm
    rw [run_bind hrun]
    exact hm t.trace

theorem Runs.mono {R : α → S → Prop} (h : Runs enough Q m s) (hqr : ∀ x t, Q x t → R x t) :
    Runs enough R m s := by
  intro trace
  have hm := h trace
  split
  · next x t hrun =>
    rw [hrun] at hm
    exact hqr x t.sys hm
  · next t hrun =>
    rw [hrun] at hm
    exact hm

theorem runs_ite {c : Prop} {_ : Decidable c} {m' : Cmd S α} (h : c → Runs enough Q m s)
    (h' : ¬ c → Runs enough Q m' s) : Runs enough Q (if c then m else m') s := by
  split
  · next hc => exact h hc
  · next hc => exact h' hc

/-- The run of a program that ends. -/
theorem Ends.exists_run (h : Ends Q m s) (trace : List Mutation) :
    ∃ x t, m.run { sys := s, trace } = (some x, t) ∧ Q x t.sys := by
  have hm := h trace
  rcases hrun : m.run { sys := s, trace } with ⟨_ | x, t⟩
  · rw [hrun] at hm
    exact absurd trivial hm
  · rw [hrun] at hm
    exact ⟨x, t, rfl, hm⟩

end Rules

/-! ### The tree -/

/-- The entry of a directory. -/
def subEntry (p : Name × Dir) : Dirent := { fname := p.1.path, isDir := true }

/-- A directory of the tree at its path. -/
inductive InTree (root : Path) (tree : Dir) : Path → Dir → Prop
  | top : InTree root tree root tree
  | down {q : Path} {dir : Dir} {p : Name × Dir} (h : InTree root tree q dir)
      (hp : p ∈ dir.subs) : InTree root tree (child q p.1.path) p.2

theorem filter_isDir_entries (dir : Dir) :
    dir.entries.filter Dirent.isDir = dir.subs.map subEntry := by
  induction dir with
  | empty => rfl
  | file name rest ih => exact ih
  | sub name inner rest _ ih => exact congrArg (subEntry (name, inner) :: ·) ih

theorem size_of_mem_subs {p : Name × Dir} (h : p ∈ dir.subs) : p.2.size < dir.size := by
  induction dir with
  | empty => cases h
  | file name rest ih => exact Nat.lt_succ_of_lt (ih h)
  | sub name inner rest _ ih =>
    have hsize : (Dir.sub name inner rest).size = inner.size + rest.size + 1 := rfl
    rcases List.mem_cons.mp h with rfl | h
    · show inner.size < _
      omega
    · have hlt := ih h
      omega

theorem distinct_of_mem_subs (hd : dir.Distinct) {p : Name × Dir} (h : p ∈ dir.subs) :
    p.2.Distinct := by
  induction dir with
  | empty => cases h
  | file name rest ih => exact ih hd.2 h
  | sub name inner rest _ ih =>
    rcases List.mem_cons.mp h with rfl | h
    · exact hd.2.1
    · exact ih hd.2.2 h

theorem nodup_entries (hd : dir.Distinct) : (dir.entries.map Dirent.fname).Nodup := by
  induction dir with
  | empty => exact List.nodup_nil
  | file name rest ih => exact List.nodup_cons.mpr ⟨hd.1, ih hd.2⟩
  | sub name inner rest _ ih => exact List.nodup_cons.mpr ⟨hd.1, ih hd.2.2⟩

theorem nodup_subs (hd : dir.Distinct) : (dir.subs.map fun p => p.1.path).Nodup := by
  have hsub : (dir.subs.map subEntry).Sublist dir.entries := by
    rw [← filter_isDir_entries]
    exact List.filter_sublist
  have hmap := (hsub.map Dirent.fname).nodup (nodup_entries hd)
  simpa [List.map_map, Function.comp_def, subEntry] using hmap

theorem InTree.normal {root : Path} {tree : Dir} (hroot : Normal root)
    (h : InTree root tree q dir) : Normal q := by
  induction h with
  | top => exact hroot
  | down _ _ ih => exact ih.child _

theorem InTree.under {root : Path} {tree : Dir} (h : InTree root tree q dir) : Under root q := by
  induction h with
  | top => exact Under.refl _
  | down _ _ ih => exact ih.trans (under_child _ _)

theorem InTree.distinct {root : Path} {tree : Dir} (htree : tree.Distinct)
    (h : InTree root tree q dir) : dir.Distinct := by
  induction h with
  | top => exact htree
  | down _ hp ih => exact distinct_of_mem_subs ih hp

/-- A directory of the tree that a walk enters: the top, and the
directories in one that it enters and goes down from. -/
inductive Reached (pattern : Path) (recursive : Bool) (hasdirs : Path → Bool) (root : Path)
    (tree : Dir) : Path → Dir → Prop
  | top : Reached pattern recursive hasdirs root tree root tree
  | down {q : Path} {dir : Dir} {p : Name × Dir}
      (h : Reached pattern recursive hasdirs root tree q dir)
      (hgo : goesDown pattern recursive hasdirs q dir = true) (hp : p ∈ dir.subs) :
      Reached pattern recursive hasdirs root tree (child q p.1.path) p.2

theorem Reached.inTree {pattern : Path} {recursive : Bool} {hasdirs : Path → Bool} {root : Path}
    {tree : Dir} (h : Reached pattern recursive hasdirs root tree q dir) :
    InTree root tree q dir := by
  induction h with
  | top => exact .top
  | down _ _ hp ih => exact .down ih hp

/-! ### The calls -/

section
variable {pattern : Path} {hasdirs : Path → Bool}

/-- The calls for the directories below are walks. -/
theorem belowCalls_eq (recursive : Bool) (hq : Normal q) (dir : Dir) :
    belowCalls pattern recursive hasdirs q dir =
      dir.subs.flatMap fun p => walkCalls pattern recursive hasdirs (child q p.1.path) p.2 := by
  induction dir with
  | empty => rfl
  | file name rest ih => exact ih
  | sub name inner rest _ ih =>
    show dirCalls _ _ _ _ _ _ ++ _ = _
    rw [ih, inside_eq hq]
    rfl

/-- The calls of a walk are for what is under its directory. -/
theorem under_of_mem_walkCalls (recursive : Bool) {c : Call} :
    ∀ (k : Nat) (dir : Dir) (q : Path), dir.size < k → Normal q →
      c ∈ walkCalls pattern recursive hasdirs q dir → Under q c.path := by
  intro k
  induction k with
  | zero => exact fun _ _ h => absurd h (Nat.not_lt_zero _)
  | succ k ih =>
    intro dir q hk hq hc
    rw [walkCalls_eq] at hc
    rcases List.mem_cons.mp hc with rfl | hc
    · exact Under.refl _
    rcases List.mem_append.mp hc with hc | hc
    · obtain ⟨ent, -, rfl⟩ := List.mem_map.mp hc
      exact Under.refl _
    rcases List.mem_cons.mp hc with rfl | hc
    · exact Under.refl _
    rcases List.mem_append.mp hc with hc | hc
    · split at hc
      · rw [belowCalls_eq recursive hq] at hc
        obtain ⟨p, hp, hc⟩ := List.mem_flatMap.mp hc
        have hlt := size_of_mem_subs hp
        exact (under_child _ _).trans (ih p.2 _ (by omega) (hq.child _) hc)
      · cases hc
    · rw [List.mem_singleton.mp hc]
      exact Under.refl _

variable {recursive : Bool} {root : Path} {tree : Dir}

/-- The calls for a directory that is entered are among those of the walk. -/
theorem Reached.mem_walkCalls (hroot : Normal root)
    (h : Reached pattern recursive hasdirs root tree q dir) {c : Call}
    (hc : c ∈ walkCalls pattern recursive hasdirs q dir) :
    c ∈ walkCalls pattern recursive hasdirs root tree := by
  induction h with
  | top => exact hc
  | @down q dir p h hgo hp ih =>
    refine ih ?_
    rw [walkCalls_eq, hgo, if_pos rfl, belowCalls_eq recursive (h.inTree.normal hroot)]
    refine List.mem_cons_of_mem _ (List.mem_append_right _ (List.mem_cons_of_mem _
      (List.mem_append_left _ ?_)))
    exact List.mem_flatMap.mpr ⟨p, hp, hc⟩

/-- What a walk visits of a directory that it enters is in such directories. -/
theorem reached_of_visited (hroot : Normal root) :
    ∀ (k : Nat) (dir : Dir) (q₀ : Path), dir.size < k →
      Reached pattern recursive hasdirs root tree q₀ dir →
      (q, e) ∈ visited (walkCalls pattern recursive hasdirs q₀ dir) →
      ∃ dir', Reached pattern recursive hasdirs root tree q dir' ∧ e ∈ dir'.entries ∧
        cmnPatternMatches e.fname pattern = true := by
  intro k
  induction k with
  | zero => exact fun _ _ h => absurd h (Nat.not_lt_zero _)
  | succ k ih =>
    intro dir q₀ hk hin hv
    unfold walkCalls at hv
    rw [visited_dirCalls] at hv
    rcases List.mem_append.mp hv with hv | hv
    · obtain ⟨hhere, hmatch⟩ := List.mem_filter.mp hv
      obtain ⟨ent, hent, heq⟩ := List.mem_map.mp hhere
      cases heq
      exact ⟨dir, hin, hent, hmatch⟩
    · split at hv
      · next hgo =>
        rw [belowCalls_eq recursive (hin.inTree.normal hroot)] at hv
        obtain ⟨c, hc, hentry⟩ := List.mem_filterMap.mp hv
        obtain ⟨p, hp, hc⟩ := List.mem_flatMap.mp hc
        have hlt := size_of_mem_subs hp
        exact ih p.2 _ (by omega) (.down hin hgo hp) (List.mem_filterMap.mpr ⟨c, hc, hentry⟩)
      · cases hv

/-- A walk visits the entries that match in the directories that it
enters. -/
theorem mem_visited_walkCalls (hroot : Normal root) :
    (q, e) ∈ visited (walkCalls pattern recursive hasdirs root tree) ↔
      ∃ dir, Reached pattern recursive hasdirs root tree q dir ∧ e ∈ dir.entries ∧
        cmnPatternMatches e.fname pattern = true := by
  constructor
  · exact reached_of_visited hroot _ tree root (Nat.lt_succ_self _) .top
  · rintro ⟨dir, hin, he, hmatch⟩
    have hv : (q, e) ∈ visited (walkCalls pattern recursive hasdirs q dir) := by
      unfold walkCalls
      rw [visited_dirCalls]
      exact List.mem_append_left _
        (List.mem_filter.mpr ⟨List.mem_map.mpr ⟨e, he, rfl⟩, hmatch⟩)
    obtain ⟨c, hc, hentry⟩ := List.mem_filterMap.mp hv
    exact List.mem_filterMap.mpr ⟨c, hin.mem_walkCalls hroot hc, hentry⟩

end

/-! ### The rule of the walker -/

/-- Every operation succeeds. -/
def AllSucceed (fails : Nat → Bool) : Prop := ∀ k, fails k = false

/-- After a call that is answered with 1 the invariant holds with the call; another answer is
given only if some operation has failed. -/
def After (fails : Nat → Bool) (I : List Call → Disk → Prop) (calls : List Call) :
    Bool → Disk → Prop :=
  fun go t => if go then I calls t else ¬ AllSucceed fails

/-- What an invariant on the calls so far has to keep for a tree to be
walked. A directory has the entries that match when it is opened for the
first loop, and the directories when it is opened for the second one;
there may be an entry more in it that is neither. -/
structure Keeps (fails : Nat → Bool) (pattern : Path) (recursive : Bool) (hasdirs : Path → Bool)
    (root : Path) (tree : Dir) (cb : Callback Disk) (I : List Call → Disk → Prop) : Prop where
  tick : ∀ {calls : List Call} {s : Disk}, I calls s → I calls s.tick
  first : ∀ {calls : List Call} {s : Disk} {q : Path} {dir : Dir}, I calls s →
    Reached pattern recursive hasdirs root tree q dir → (∀ c ∈ calls, c.path ≠ q) →
    ∃ l, s.dir q = some l ∧ l.length ≤ dir.entries.length + 1 ∧
      (l.filter fun e => cmnPatternMatches e.fname pattern) =
        dir.entries.filter fun e => cmnPatternMatches e.fname pattern
  again : ∀ {calls : List Call} {s : Disk} {q : Path} {dir : Dir}, I calls s →
    Reached pattern recursive hasdirs root tree q dir →
    goesDown pattern recursive hasdirs q dir = true →
    ∃ l, s.dir q = some l ∧ l.length ≤ dir.entries.length + 1 ∧
      l.filter Dirent.isDir = dir.entries.filter Dirent.isDir
  entry : ∀ {calls : List Call} {s : Disk} {q : Path} {dir : Dir} {ent : Dirent}, I calls s →
    Reached pattern recursive hasdirs root tree q dir → ent ∈ dir.entries →
    cmnPatternMatches ent.fname pattern = true → (q, ent) ∉ visited calls →
    Ends (After fails I (calls ++ [⟨q, some ent, .INSIDE_READDIR⟩]))
      (cb q (some ent) .INSIDE_READDIR) s
  other : ∀ {calls : List Call} {s : Disk} {q : Path} {dir : Dir} {info : FsInfo}, I calls s →
    Reached pattern recursive hasdirs root tree q dir →
    info = .BEFORE_READDIR ∨ info = .AFTER_CLOSEDIR ∨ info = .DIRECTORY_DONE →
    Ends (After fails I (calls ++ [⟨q, none, info⟩])) (cb q none info) s
  failed : ∀ (q : Path) (s : Disk), Ends (fun go _ => go = false) (cb q none .OPENDIR_FAILED) s

section Walker
variable {fails : Nat → Bool} {root : Path} {tree : Dir} {cb : Callback Disk}
  {I : List Call → Disk → Prop} {pattern : Path} {hasdirs : Path → Bool} {recursive : Bool}

theorem visited_single_none (q : Path) (info : FsInfo) :
    visited [⟨q, none, info⟩] = [] := by
  simp [visited, Call.entry]

theorem visited_single_entry (q : Path) (ent : Dirent) :
    visited [⟨q, some ent, .INSIDE_READDIR⟩] = [(q, ent)] := rfl

/-- The first loop, over a listing in which the entries that match are
different ones of the directory. -/
theorem ends_walkEntries (h : Keeps fails pattern recursive hasdirs root tree cb I)
    (hin : Reached pattern recursive hasdirs root tree q dir) :
    ∀ (l : List Dirent) (n : Nat) (found : Bool) (calls : List Call) (s : Disk), l.length < n →
      (∀ e ∈ l.filter fun e => cmnPatternMatches e.fname pattern, e ∈ dir.entries) →
      (l.filter fun e => cmnPatternMatches e.fname pattern).Nodup →
      (∀ e ∈ l.filter fun e => cmnPatternMatches e.fname pattern, (q, e) ∉ visited calls) →
      I calls s →
      Ends (fun r t => match r.2 with
          | some f => f = (found ||
              l.any fun ent => cmnPatternMatches ent.fname pattern && ent.isDir) ∧
              I (calls ++ entryCalls pattern q l) t
          | none   => ¬ AllSucceed fails)
        (walkEntries (diskEnv fails hasdirs) cb pattern q n l found) s := by
  -- on what is left of the listing; each entry in it is one that no call was for
  intro l
  induction l with
  | nil =>
    intro n found calls s hn _ _ _ hI
    cases n with
    | zero => cases hn
    | succ n =>
      refine runs_bind (runs_look (runs_pure ⟨(Bool.or_false found).symm, ?_⟩))
      show I (calls ++ []) s
      rwa [List.append_nil]
  | cons ent l ih =>
    intro n found calls s hn hmem hnodup hfresh hI
    cases n with
    | zero => cases hn
    | succ n =>
      have hlen : l.length < n := Nat.lt_of_succ_lt_succ hn
      refine runs_bind (runs_look ?_)
      show Ends _ (if (!cmnPatternMatches ent.fname pattern) = true then _ else _) s
      cases hmatch : cmnPatternMatches ent.fname pattern with
      | false =>
        rw [List.filter_cons_of_neg (by rw [hmatch]; exact Bool.false_ne_true)] at hmem hnodup hfresh
        refine (ih n found calls s hlen hmem hnodup hfresh hI).mono fun r t hr => ?_
        rw [entryCalls_cons, hmatch, List.any_cons, hmatch]
        simpa using hr
      | true =>
        rw [List.filter_cons_of_pos (by rw [hmatch])] at hmem hnodup hfresh
        obtain ⟨hnotin, hnodup⟩ := List.nodup_cons.mp hnodup
        refine runs_bind ((h.entry hI hin (hmem ent List.mem_cons_self) hmatch
          (hfresh ent List.mem_cons_self)).mono fun go t hgo => ?_)
        cases go with
        | false => exact runs_pure hgo
        | true =>
          have hI' : I (calls ++ [⟨q, some ent, .INSIDE_READDIR⟩]) t := hgo
          have hfresh' : ∀ e ∈ l.filter fun e => cmnPatternMatches e.fname pattern,
              (q, e) ∉ visited (calls ++ [⟨q, some ent, .INSIDE_READDIR⟩]) := by
            intro e he
            rw [visited_append, visited_single_entry, List.mem_append, List.mem_singleton]
            rintro (hv | heq)
            · exact hfresh e (List.mem_cons_of_mem _ he) hv
            · exact hnotin ((Prod.mk.inj heq).2 ▸ he)
          refine (ih n (found || ent.isDir) _ t hlen
            (fun e he => hmem e (List.mem_cons_of_mem _ he)) hnodup hfresh' hI').mono
              fun r t hr => ?_
          rw [entryCalls_cons, hmatch, List.any_cons, hmatch]
          simpa [Bool.or_assoc] using hr

/-- The second loop, if the walks of the directories are as stated. -/
theorem ends_walkDirs (hroot : Normal root)
    (hin : Reached pattern recursive hasdirs root tree q dir) (walk : Path → Cmd Disk Bool)
    (hwalk : ∀ (p : Name × Dir) (calls : List Call) (s : Disk), p ∈ dir.subs →
      (∀ c ∈ calls, ¬ Under (child q p.1.path) c.path) → I calls s →
      Ends (After fails I (calls ++ walkCalls pattern recursive hasdirs (child q p.1.path) p.2))
        (walk (child q p.1.path)) s) :
    ∀ (l : List Dirent) (subs : List (Name × Dir)) (n : Nat) (calls : List Call) (s : Disk),
      l.length < n → l.filter Dirent.isDir = subs.map subEntry → (∀ p ∈ subs, p ∈ dir.subs) →
      (subs.map fun p => p.1.path).Nodup →
      (∀ p ∈ subs, ∀ c ∈ calls, ¬ Under (child q p.1.path) c.path) → I calls s →
      Ends (fun r t => After fails I (calls ++ subs.flatMap fun p =>
          walkCalls pattern recursive hasdirs (child q p.1.path) p.2) r.2 t)
        (walkDirs (diskEnv fails hasdirs) cb walk q n l) s := by
  have hq : Normal q := hin.inTree.normal hroot
  -- on what is left of the listing, with the directories that are still to come in it
  intro l
  induction l with
  | nil =>
    intro subs n calls s hn hsubs _ _ _ hI
    have hnil : subs = [] := List.map_eq_nil_iff.mp hsubs.symm
    cases n with
    | zero => cases hn
    | succ n =>
      refine runs_bind (runs_look (runs_pure ?_))
      show I (calls ++ _) s
      rwa [hnil, List.flatMap_nil, List.append_nil]
  | cons ent l ih =>
    intro subs n calls s hn hsubs hmem hnodup hfresh hI
    cases n with
    | zero => cases hn
    | succ n =>
      have hlen : l.length < n := Nat.lt_of_succ_lt_succ hn
      refine runs_bind (runs_look ?_)
      show Ends _ (if (!ent.isDir) = true then _ else _) s
      cases hdir : ent.isDir with
      | false =>
        rw [List.filter_cons_of_neg (by rw [hdir]; exact Bool.false_ne_true)] at hsubs
        exact ih subs n calls s hlen hsubs hmem hnodup hfresh hI
      | true =>
        rw [List.filter_cons_of_pos hdir] at hsubs
        cases subs with
        | nil => cases hsubs
        | cons p subs =>
          obtain ⟨rfl, hrest⟩ := List.cons.inj hsubs
          obtain ⟨hnotin, hnodup⟩ := List.nodup_cons.mp hnodup
          have hnamed : walkNamed (diskEnv fails hasdirs) cb walk q p.1.path =
              walk (child q p.1.path) := by
            have htotal := joinTotal_pos hq [p.1.path] (by
              intro x hx
              rw [List.mem_singleton.mp hx]
              exact .inr (head?_name p.1))
            have hjoin : cmnFsPathJoin (diskEnv fails hasdirs) [q, p.1.path] =
                (pure (some (child q p.1.path)) : Cmd Disk (Option Path)) := by
              rw [← inside_eq hq]
              exact if_neg htotal.ne'
            unfold walkNamed
            rw [hjoin, pure_bind]
          show Ends _ (walkNamed (diskEnv fails hasdirs) cb walk q p.1.path >>= _) s
          rw [hnamed]
          refine runs_bind ((hwalk p calls s (hmem p List.mem_cons_self)
            (hfresh p List.mem_cons_self) hI).mono fun go t hgo => ?_)
          cases go with
          | false => exact runs_pure hgo
          | true =>
            -- what the walk of one directory calls for is not under another one
            have hfresh' : ∀ p' ∈ subs, ∀ c ∈ calls ++
                walkCalls pattern recursive hasdirs (child q p.1.path) p.2,
                ¬ Under (child q p'.1.path) c.path := by
              intro p' hp' c hc hunder
              rcases List.mem_append.mp hc with hc | hc
              · exact hfresh p' (List.mem_cons_of_mem _ hp') c hc hunder
              · have hup := under_of_mem_walkCalls recursive _ _ _ (Nat.lt_succ_self _)
                  (hq.child p.1) hc
                exact hnotin (List.mem_map.mpr ⟨p', hp', (name_eq_of_under hup hunder).symm⟩)
            refine (ih subs n _ t hlen hrest (fun p' hp' => hmem p' (List.mem_cons_of_mem _ hp'))
              hnodup hfresh' hgo).mono fun r t hr => ?_
            rwa [List.flatMap_cons, ← List.append_assoc]

theorem not_allSucceed {k : Nat} (h : fails k = true) : ¬ AllSucceed fails := by
  intro hall
  rw [hall k] at h
  cases h

theorem runs_opendir {enough : Prop} {Q : Option (List Dirent) → Disk → Prop} {s : Disk}
    (hfail : ¬ AllSucceed fails → Q none s.tick) (hok : Q (s.dir (plain q)) s.tick) :
    Runs enough Q (look ((diskEnv fails hasdirs).opendir q)) s := by
  refine runs_look ?_
  show Q (if fails s.steps = true then none else s.dir (plain q)) s.tick
  split
  · next h => exact hfail (not_allSucceed h)
  · exact hok

theorem Normal.plain (h : Normal q) : plain q = q := if_neg h.2

theorem path_of_mem_visited (h : (q, e) ∈ visited calls) : ∃ c ∈ calls, c.path = q := by
  obtain ⟨c, hc, hentry⟩ := List.mem_filterMap.mp h
  refine ⟨c, hc, ?_⟩
  unfold Call.entry at hentry
  split at hentry
  · obtain ⟨ent, -, heq⟩ := Option.map_eq_some_iff.mp hentry
    exact (Prod.mk.inj heq).1
  · cases hentry

/-- The part of the walk that reads the directory again. -/
theorem ends_walkAgain (h : Keeps fails pattern recursive hasdirs root tree cb I)
    (hroot : Normal root) (htree : tree.Distinct)
    (hin : Reached pattern recursive hasdirs root tree q dir)
    (hdown : goesDown pattern recursive hasdirs q dir = true) (walk : Path → Cmd Disk Bool)
    (hwalk : ∀ (p : Name × Dir) (calls : List Call) (s : Disk), p ∈ dir.subs →
      (∀ c ∈ calls, ¬ Under (child q p.1.path) c.path) → I calls s →
      Ends (After fails I (calls ++ walkCalls pattern recursive hasdirs (child q p.1.path) p.2))
        (walk (child q p.1.path)) s) {n : Nat} (hn : dir.entries.length + 1 < n) {s : Disk}
    (hfresh : ∀ p ∈ dir.subs, ∀ c ∈ calls, ¬ Under (child q p.1.path) c.path) (hI : I calls s) :
    Ends (After fails I (calls ++ belowCalls pattern recursive hasdirs q dir))
      (walkAgain (diskEnv fails hasdirs) cb walk n q) s := by
  obtain ⟨l, hl, hlen, hsubs⟩ := h.again hI hin hdown
  rw [filter_isDir_entries] at hsubs
  refine runs_bind (runs_opendir (fun hbad => ?_) ?_)
  · refine (h.failed q s.tick).mono fun go t hgo => ?_
    rw [hgo]
    exact hbad
  · rw [(hin.inTree.normal hroot).plain, hl]
    refine runs_bind ((ends_walkDirs hroot hin walk hwalk l dir.subs n calls s.tick (by omega)
      hsubs (fun _ hp => hp) (nodup_subs (hin.inTree.distinct htree)) hfresh (h.tick hI)).mono
        fun r t hr => ?_)
    rw [belowCalls_eq recursive (hin.inTree.normal hroot)]
    exact runs_bind (runs_look (runs_pure hr))

/-- The walk after the first loop. -/
theorem ends_walkDown (h : Keeps fails pattern recursive hasdirs root tree cb I)
    (hroot : Normal root) (htree : tree.Distinct)
    (hin : Reached pattern recursive hasdirs root tree q dir) (walk : Path → Cmd Disk Bool)
    (hwalk : goesDown pattern recursive hasdirs q dir = true →
      ∀ (p : Name × Dir) (calls : List Call) (s : Disk), p ∈ dir.subs →
      (∀ c ∈ calls, ¬ Under (child q p.1.path) c.path) → I calls s →
      Ends (After fails I (calls ++ walkCalls pattern recursive hasdirs (child q p.1.path) p.2))
        (walk (child q p.1.path)) s) {n : Nat} (hn : dir.entries.length + 1 < n) {s : Disk}
    (hfresh : ∀ p ∈ dir.subs, ∀ c ∈ calls, ¬ Under (child q p.1.path) c.path) (hI : I calls s) :
    Ends (After fails I (calls ++ ⟨q, none, .AFTER_CLOSEDIR⟩ ::
        ((if goesDown pattern recursive hasdirs q dir then
            belowCalls pattern recursive hasdirs q dir else []) ++
          [⟨q, none, .DIRECTORY_DONE⟩])))
      (walkDown (diskEnv fails hasdirs) cb walk n q (goesDown pattern recursive hasdirs q dir))
      s := by
  refine runs_bind ((h.other hI hin (.inr (.inl rfl))).mono fun go t hgo => ?_)
  cases go with
  | false => exact runs_pure hgo
  | true =>
    have hfresh' : ∀ p ∈ dir.subs, ∀ c ∈ calls ++ [⟨q, none, .AFTER_CLOSEDIR⟩],
        ¬ Under (child q p.1.path) c.path := by
      intro p hp c hc
      rcases List.mem_append.mp hc with hc | hc
      · exact hfresh p hp c hc
      · rw [List.mem_singleton.mp hc]
        exact not_under_of_child _ _
    have hlast : ∀ {calls' : List Call} {t : Disk}, I calls' t →
        Ends (After fails I (calls' ++ [⟨q, none, .DIRECTORY_DONE⟩]))
          (cb q none .DIRECTORY_DONE) t := fun hI => h.other hI hin (.inr (.inr rfl))
    show Ends _ (if goesDown pattern recursive hasdirs q dir = true then _ else _) t
    cases hdown : goesDown pattern recursive hasdirs q dir with
    | false =>
      have hdone := hlast (show I _ t from hgo)
      simpa using hdone
    | true =>
      refine runs_bind ((ends_walkAgain h hroot htree hin hdown walk (hwalk hdown) hn hfresh'
        hgo).mono fun go t hgo => ?_)
      cases go with
      | false => exact runs_pure hgo
      | true =>
        have hdone := hlast (show I _ t from hgo)
        simpa using hdone

/-- A walk takes the invariant from the calls before it to those and its own. -/
theorem ends_walk (h : Keeps fails pattern recursive hasdirs root tree cb I)
    (hroot : Normal root) (htree : tree.Distinct) :
    ∀ (n : Nat) (q : Path) (dir : Dir) (calls : List Call) (s : Disk), dir.size + 3 ≤ n →
      Reached pattern recursive hasdirs root tree q dir → (∀ c ∈ calls, ¬ Under q c.path) →
      I calls s →
      Ends (After fails I (calls ++ walkCalls pattern recursive hasdirs q dir))
        (cmnFsActualWalkdir (diskEnv fails hasdirs) cb pattern recursive n q) s := by
  -- on the steps: a directory is smaller than the one it is in
  intro n
  induction n with
  | zero => exact fun _ _ _ _ hn => absurd hn (Nat.not_succ_le_zero _)
  | succ n ih =>
    intro q dir calls s hn hin hfresh hI
    have hlen : dir.entries.length + 1 < n := by
      have hle := length_entries_le dir
      omega
    obtain ⟨l, hl, hle, hfilter⟩ := h.first hI hin fun c hc hpath =>
      hfresh c hc (hpath ▸ Under.refl _)
    refine runs_bind (runs_look (runs_bind (runs_opendir (fun hbad => ?_) ?_)))
    · -- `opendir` fails only with a fault
      refine (h.failed q s.tick).mono fun go t hgo => ?_
      rw [hgo]
      exact hbad
    rw [show ((diskEnv fails hasdirs).hasdirs q s).2 = s from rfl,
      (hin.inTree.normal hroot).plain, hl]
    refine runs_bind ((h.other (h.tick hI) hin (.inl rfl)).mono fun go t hgo => ?_)
    cases go with
    | false => exact runs_bind (runs_look (runs_pure hgo))
    | true =>
      have hentries : ∀ e ∈ l.filter fun e => cmnPatternMatches e.fname pattern,
          e ∈ dir.entries := by
        intro e he
        rw [hfilter] at he
        exact List.mem_of_mem_filter he
      have hnot : ∀ e ∈ l.filter fun e => cmnPatternMatches e.fname pattern,
          (q, e) ∉ visited (calls ++ [⟨q, none, .BEFORE_READDIR⟩]) := by
        intro e _ he
        rw [visited_append, visited_single_none, List.append_nil] at he
        obtain ⟨c, hc, hpath⟩ := path_of_mem_visited he
        exact hfresh c hc (hpath ▸ Under.refl _)
      have hnodup : (l.filter fun e => cmnPatternMatches e.fname pattern).Nodup := by
        rw [hfilter]
        exact (List.Nodup.of_map _ (nodup_entries (hin.inTree.distinct htree))).filter _
      -- the first loop, over the entries that match
      refine runs_bind ((ends_walkEntries h hin l n (hasdirs q) _ t (by omega)
        hentries hnodup hnot hgo).mono fun r u hr => runs_bind (runs_look ?_))
      obtain ⟨d, found⟩ := r
      cases found with
      | none => exact runs_pure hr
      | some found =>
        obtain ⟨rfl, hI'⟩ := hr
        have hcalls : entryCalls pattern q l = entryCalls pattern q dir.entries := by
          unfold entryCalls
          rw [hfilter]
        have hdown : (recursive && (hasdirs q ||
            l.any fun ent => cmnPatternMatches ent.fname pattern && ent.isDir)) =
            goesDown pattern recursive hasdirs q dir := by
          unfold goesDown
          rw [← List.any_filter, hfilter, List.any_filter]
        rw [hcalls] at hI'
        -- none of the calls so far was for something below one of the directories
        have hbelow : ∀ p ∈ dir.subs,
            ∀ c ∈ calls ++ [⟨q, none, .BEFORE_READDIR⟩] ++ entryCalls pattern q dir.entries,
            ¬ Under (child q p.1.path) c.path := by
          intro p _ c hc hunder
          rcases List.mem_append.mp hc with hc | hc
          · rcases List.mem_append.mp hc with hc | hc
            · exact hfresh c hc ((under_child _ _).trans hunder)
            · rw [List.mem_singleton.mp hc] at hunder
              exact not_under_of_child _ _ hunder
          · obtain ⟨ent, -, rfl⟩ := List.mem_map.mp hc
            exact not_under_of_child _ _ hunder
        have hsize : ∀ p ∈ dir.subs, p.2.size + 3 ≤ n := by
          intro p hp
          have hlt := size_of_mem_subs hp
          omega
        show Ends _ (walkDown _ _ _ n q (recursive && (hasdirs q || _))) u
        rw [hdown]
        refine (ends_walkDown h hroot htree hin _ (fun hgo p calls s hp hfresh hI =>
          ih _ p.2 calls s (hsize p hp) (.down hin hgo hp) hfresh hI) hlen hbelow hI').mono
            fun go w hgo => ?_
        rw [walkCalls_eq]
        simpa using hgo

end Walker

end Alcor.Proofs.Shell
