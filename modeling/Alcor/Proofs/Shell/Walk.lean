import Alcor.Shell.Tree

/-!
# `Alcor.Proofs.Shell.Walk`: the walker visits what it enters

On a tree the walker makes the calls `walkCalls`, one after the other
until the callback returns 0. So what it visits, and what it returns, are
facts about that list. It leaves out the directories below one where
`hasdirs` stays 0, which no name has set to 1 that does not match the
pattern, and `cmn_fs_walkdir` returns 1 for every valid path.

* `actualWalkdir_eq`: the walker makes the calls of the list.
* `visited_walk_eq_iff`: when the list has all that matches.
* `walkdir_iff`: when a walk visits every matching entry once and returns
  whether the callback did.
* `walk_misses`: a walk with a mask that leaves out a file.
-/

set_option autoImplicit false

namespace Alcor.Proofs.Shell

open Alcor.Shell

variable {S α β : Type}

/-- A program goes on where the first part of it has come to. -/
theorem run_bind {m : Cmd S α} {next : α → Cmd S β} {s t : Host S} {x : α}
    (h : m.run s = (some x, t)) : (m >>= next).run s = (next x).run t := by
  show (match m.run s with | (r, s) => (match r with
    | some x => OptionT.run (next x)
    | none   => pure none : StateM (Host S) (Option β)) s) = _
  rw [h]

/-! ### Calls one after the other -/

theorem offerAll_nil (cb : Callback S) : offerAll cb [] = pure true := rfl

theorem offerAll_append (cb : Callback S) (a b : List Call) :
    offerAll cb (a ++ b) =
      (do
        let go ← offerAll cb a
        if !go then return false
        else offerAll cb b) := by
  induction a with
  | nil => simp [offerAll]
  | cons c a ih =>
    simp only [List.cons_append, offerAll, bind_assoc]
    congr 1
    funext go
    cases go with
    | false => simp
    | true => simpa using ih

/-- One call alone. -/
theorem offerAll_single (cb : Callback S) (c : Call) :
    offerAll cb [c] = cb c.path c.ent c.info := by
  simp only [offerAll]
  conv_rhs => rw [← bind_pure (cb c.path c.ent c.info)]
  congr 1
  funext go
  cases go <;> rfl

/-! ### The loops -/

variable {dirAt : Path → Option (List Dirent)} {isFile hasdirs : Path → Bool}

section Operations
variable (dirAt isFile hasdirs)

theorem look_opendir (path : Path) :
    look ((walkEnv dirAt isFile hasdirs).opendir path) =
      (pure (dirAt path) : Cmd S (Option (List Dirent))) := rfl

theorem look_readdir (d : List Dirent) :
    look ((walkEnv dirAt isFile hasdirs).readdir d) =
      (pure (d.head?, d.tail) : Cmd S (Option Dirent × List Dirent)) := rfl

theorem look_closedir (d : List Dirent) :
    look (fun s => ((), (walkEnv dirAt isFile hasdirs).closedir d s)) = (pure () : Cmd S Unit) :=
  rfl

theorem look_hasdirs (path : Path) :
    look ((walkEnv dirAt isFile hasdirs).hasdirs path) = (pure (hasdirs path) : Cmd S Bool) := rfl

theorem look_fopen (path : Path) :
    look ((walkEnv dirAt isFile hasdirs).fopen path) = (pure (isFile path) : Cmd S Bool) := rfl

theorem strdup_eq (path : Path) :
    strdup (walkEnv dirAt isFile hasdirs) path = (pure (some path) : Cmd S (Option Path)) := rfl

end Operations

theorem entryCalls_cons (pattern path : Path) (ent : Dirent) (ents : List Dirent) :
    entryCalls pattern path (ent :: ents) =
      if cmnPatternMatches ent.fname pattern then
        { path, ent := some ent, info := .INSIDE_READDIR } :: entryCalls pattern path ents
      else entryCalls pattern path ents := by
  unfold entryCalls
  rw [List.filter_cons]
  split <;> rfl

/-- The first loop makes the calls for the entries; what is left of the directory does not matter
after it. -/
theorem walkEntries_eq (cb : Callback S) (pattern path : Path)
    (next : List Dirent × Option Bool → Cmd S β) (hnext : ∀ d x, next (d, x) = next ([], x)) :
    ∀ (ents : List Dirent) (n : Nat) (found : Bool), ents.length < n →
      (walkEntries (walkEnv dirAt isFile hasdirs) cb pattern path n ents found >>= next) =
        (offerAll cb (entryCalls pattern path ents) >>= fun go =>
          next ([], if go then some (found ||
            ents.any fun ent => cmnPatternMatches ent.fname pattern && ent.isDir) else none)) := by
  intro ents
  induction ents with
  | nil =>
    intro n found hn
    cases n with
    | zero => cases hn
    | succ n => simp [walkEntries, look_readdir, entryCalls, offerAll_nil]
  | cons ent ents ih =>
    intro n found hn
    cases n with
    | zero => cases hn
    | succ n =>
      have hlen : ents.length < n := by simpa using hn
      simp only [walkEntries, look_readdir, pure_bind, List.head?_cons, List.tail_cons,
        entryCalls_cons, List.any_cons]
      cases hmatch : cmnPatternMatches ent.fname pattern with
      | false =>
        simp only [Bool.not_false, if_true, Bool.false_eq_true, if_false, Bool.false_and,
          Bool.false_or]
        exact ih n found hlen
      | true =>
        simp only [Bool.not_true, Bool.false_eq_true, if_false, if_true, bind_assoc, offerAll,
          Bool.true_and]
        congr 1
        funext go
        cases go with
        | false => simp [hnext ents none]
        | true =>
          simp only [Bool.not_true, Bool.false_eq_true, if_false, ← Bool.or_assoc]
          exact ih n _ hlen

/-! ### Paths -/

theorem joinPart_nonneg (path : Path) :
    0 ≤ (if path = [] then (0 : Int)
      else (path.length : Int) + (if path.getLast? = some SLASH then 0 else 1) -
        (if path.head? = some SLASH then 1 else 0)) := by
  split
  · exact Int.le_refl 0
  · next h =>
    have hpos : 0 < path.length := List.length_pos_iff.mpr h
    split <;> split <;> omega

/-- There is memory for the path of a directory. -/
theorem pathJoin_eq (path : Path) (name : Name) :
    cmnFsPathJoin (walkEnv dirAt isFile hasdirs) [path, name.path] =
      (pure (some (Dir.inside path name)) : Cmd S (Option Path)) := by
  have hlen : 0 < name.path.length := List.length_pos_iff.mpr name.ne_nil
  have hhead : name.path.head? ≠ some SLASH := fun h => name.no_slash (List.mem_of_head? h)
  have htotal : joinTotal [path, name.path] ≠ 0 := by
    have hpart := joinPart_nonneg path
    simp only [joinTotal, List.map_cons, List.map_nil, List.sum_cons, List.sum_nil, name.ne_nil,
      if_false, hhead]
    -- the part of the directory is only known not to be negative
    generalize (if path = [] then (0 : Int) else _) = part at hpart ⊢
    split <;> omega
  unfold cmnFsPathJoin
  rw [if_neg htotal, strdup_eq]
  rfl

theorem splitPath_eq (path : Path) :
    cmnFsSplitPath (walkEnv dirAt isFile hasdirs) path =
      (pure (splitOf isFile path) : Cmd S (Option (Path × Path))) := by
  unfold cmnFsSplitPath splitOf
  simp only [strdup_eq, look_fopen, pure_bind, Option.map_some]
  repeat' split
  all_goals rfl

/-! ### The walk of a tree -/

theorem length_entries_le (dir : Dir) : dir.entries.length ≤ dir.size := by
  induction dir with
  | empty => exact Nat.le_refl 0
  | file name rest ih => exact Nat.succ_le_succ ih
  | sub name inner rest _ ih =>
    have hsize : (Dir.sub name inner rest).size = inner.size + rest.size + 1 := rfl
    simp only [Dir.entries, List.length_cons]
    omega

variable {pattern : Path} {recursive : Bool}

/-- The second loop makes the calls for the directories, if the walks of them do. -/
theorem walkDirs_eq (cb : Callback S) (walk : Path → Cmd S Bool) (path : Path)
    (next : Bool → Cmd S β) (bound : Nat)
    (hwalk : ∀ q (inner : Dir), inner.size < bound → dirAt q = some inner.entries →
      inner.HasBelow dirAt q → walk q = offerAll cb (walkCalls pattern recursive hasdirs q inner)) :
    ∀ (dir : Dir) (n : Nat), dir.entries.length < n → dir.size ≤ bound →
      dir.HasBelow dirAt path →
      (walkDirs (walkEnv dirAt isFile hasdirs) cb walk path n dir.entries >>= fun r => next r.2) =
        (offerAll cb (belowCalls pattern recursive hasdirs path dir) >>= next) := by
  -- on the entries: each step of the loop reads one of them
  intro dir
  induction dir with
  | empty =>
    intro n hn _ _
    cases n with
    | zero => cases hn
    | succ n => simp [walkDirs, look_readdir, Dir.entries, belowCalls, offerAll_nil]
  | file name rest ih =>
    intro n hn hsize hbelow
    cases n with
    | zero => cases hn
    | succ n =>
      have hlen : rest.entries.length < n := by simpa [Dir.entries] using hn
      -- files are skipped here, the first loop has offered them
      simp only [walkDirs, look_readdir, pure_bind, Dir.entries, List.head?_cons, List.tail_cons,
        Bool.not_false, if_true, belowCalls]
      exact ih n hlen (Nat.le_of_succ_le hsize) hbelow
  | sub name inner rest _ ih =>
    intro n hn hsize hbelow
    obtain ⟨hat, hinner, hrest⟩ := hbelow
    have hsum : inner.size + rest.size + 1 ≤ bound := hsize
    cases n with
    | zero => cases hn
    | succ n =>
      have hlen : rest.entries.length < n := by simpa [Dir.entries] using hn
      have hsub : walkNamed (walkEnv dirAt isFile hasdirs) cb walk path name.path =
          offerAll cb (walkCalls pattern recursive hasdirs (Dir.inside path name) inner) := by
        unfold walkNamed
        rw [pathJoin_eq, pure_bind]
        exact hwalk _ _ (by omega) hat hinner
      simp only [walkDirs, look_readdir, pure_bind, Dir.entries, List.head?_cons, List.tail_cons,
        Bool.not_true, Bool.false_eq_true, if_false, belowCalls, offerAll_append, bind_assoc, hsub]
      congr 1
      funext go
      cases go with
      | false => simp
      | true => simpa using ih n hlen (by omega) hrest

theorem walkCalls_eq (path : Path) (dir : Dir) :
    walkCalls pattern recursive hasdirs path dir =
      { path, ent := none, info := .BEFORE_READDIR } :: (entryCalls pattern path dir.entries ++
        { path, ent := none, info := .AFTER_CLOSEDIR } ::
          ((if goesDown pattern recursive hasdirs path dir then
              belowCalls pattern recursive hasdirs path dir else []) ++
            [{ path, ent := none, info := .DIRECTORY_DONE }])) := by
  simp [walkCalls, dirCalls]

/-- A walk makes the calls `walkCalls`, for as long as the callback returns 1. -/
theorem actualWalkdir_eq (cb : Callback S) :
    ∀ (n : Nat) (path : Path) (dir : Dir), dir.size + 2 ≤ n → dirAt path = some dir.entries →
      dir.HasBelow dirAt path →
      cmnFsActualWalkdir (walkEnv dirAt isFile hasdirs) cb pattern recursive n path =
        offerAll cb (walkCalls pattern recursive hasdirs path dir) := by
  intro n
  -- on the steps: a directory is smaller than the one it is in
  induction n with
  | zero => exact fun _ _ hn => absurd hn (Nat.not_succ_le_zero _)
  | succ n ih =>
    intro path dir hn hat hbelow
    have hlen : dir.entries.length < n := by
      have hle := length_entries_le dir
      omega
    have hagain : ∀ next : Bool → Cmd S Bool,
        (walkAgain (walkEnv dirAt isFile hasdirs) cb
          (cmnFsActualWalkdir (walkEnv dirAt isFile hasdirs) cb pattern recursive n) n path >>=
            next) =
        (offerAll cb (belowCalls pattern recursive hasdirs path dir) >>= next) := by
      intro next
      unfold walkAgain
      simp only [look_opendir, hat, pure_bind, bind_assoc, look_closedir]
      exact walkDirs_eq cb _ path next dir.size (fun q inner hlt => ih q inner (by omega)) dir n
        hlen (Nat.le_refl _) hbelow
    simp only [cmnFsActualWalkdir, look_hasdirs, look_opendir, hat, pure_bind, look_closedir,
      walkCalls_eq, offerAll]
    congr 1
    funext go
    cases go with
    | false => simp
    | true =>
      simp only [Bool.not_true, Bool.false_eq_true, if_false]
      -- the first loop, then whatever comes after it
      refine (walkEntries_eq cb pattern path _ (fun _ _ => rfl) dir.entries n _ hlen).trans ?_
      rw [offerAll_append]
      congr 1
      funext go
      cases go with
      | false => rfl
      | true =>
        simp only [if_true, Bool.not_true, Bool.false_eq_true, if_false, walkDown, offerAll]
        congr 1
        funext go
        cases go with
        | false => rfl
        | true =>
          simp only [Bool.not_true, Bool.false_eq_true, if_false, offerAll_append,
            offerAll_single]
          -- the second loop is entered if the first has found a directory
          show (if goesDown pattern recursive hasdirs path dir = true then _ else _) = _
          split
          · rw [hagain]
          · rw [offerAll_nil, pure_bind]
            rfl

/-! ### What is visited -/

theorem visited_append (a b : List Call) : visited (a ++ b) = visited a ++ visited b :=
  List.filterMap_append

theorem visited_entryCalls (path : Path) (dir : Dir) :
    visited (entryCalls pattern path dir.entries) =
      (dir.here path).filter (matchesPattern pattern) := by
  unfold Dir.here
  induction dir.entries with
  | nil => rfl
  | cons ent ents ih =>
    rw [entryCalls_cons, List.map_cons, List.filter_cons]
    show visited (if cmnPatternMatches ent.fname pattern = true then _ else _) =
      if cmnPatternMatches ent.fname pattern = true then _ else _
    split
    · rw [← ih]
      rfl
    · exact ih

/-- A directory is visited, and what is below it if it goes down. -/
theorem visited_dirCalls (path : Path) (dir : Dir) (below : List Call) :
    visited (dirCalls pattern recursive hasdirs path dir below) =
      (dir.here path).filter (matchesPattern pattern) ++
        if goesDown pattern recursive hasdirs path dir then visited below else [] := by
  simp only [dirCalls, visited_append, visited_entryCalls]
  split <;> simp [visited, Call.entry]

theorem append_eq_iff {γ : Type} {a b c d : List γ} (hab : a.Sublist c) (hbd : b.Sublist d) :
    a ++ b = c ++ d ↔ a = c ∧ b = d := by
  constructor
  · intro h
    have hlen := congrArg List.length h
    simp only [List.length_append] at hlen
    have hac := hab.length_le
    have hbd' := hbd.length_le
    exact ⟨hab.eq_of_length (by omega), hbd.eq_of_length (by omega)⟩
  · rintro ⟨rfl, rfl⟩
    rfl

/-- Nothing is visited twice, and nothing that does not match. -/
theorem visited_below_sublist (dir : Dir) :
    ∀ path, (visited (belowCalls pattern recursive hasdirs path dir)).Sublist
      ((dir.deeper path).filter (matchesPattern pattern)) := by
  induction dir with
  | empty => exact fun _ => List.Sublist.refl _
  | file name rest ih => exact ih
  | sub name inner rest ihinner ihrest =>
    intro path
    simp only [belowCalls, Dir.deeper, visited_append, visited_dirCalls, List.filter_append]
    refine (List.Sublist.append (List.Sublist.append (List.Sublist.refl _) ?_) (ihrest path))
    split
    · exact ihinner _
    · exact List.nil_sublist _

theorem filter_eq_nil_iff_all {γ : Type} (f g : γ → Bool) (l : List γ) :
    [] = (l.filter f).filter g ↔ (l.all fun e => !(f e && g e)) = true := by
  rw [eq_comm, List.filter_filter, List.filter_eq_nil_iff, List.all_eq_true]
  refine forall₂_congr fun e _ => ?_
  cases f e <;> simp

/-- What matches, of some kind, is all visited below a directory if the walk enters where there is
some. -/
theorem visited_below_eq_iff (kind : Path × Dirent → Bool) (dir : Dir) :
    ∀ path, (visited (belowCalls pattern recursive hasdirs path dir)).filter kind =
        ((dir.deeper path).filter (matchesPattern pattern)).filter kind ↔
      EntersBelow pattern recursive hasdirs (fun e => matchesPattern pattern e && kind e) path
        dir := by
  induction dir with
  | empty => exact fun _ => ⟨fun _ => trivial, fun _ => rfl⟩
  | file name rest ih => exact ih
  | sub name inner rest ihinner ihrest =>
    intro path
    have hdown : ((if goesDown pattern recursive hasdirs (Dir.inside path name) inner
          then visited (belowCalls pattern recursive hasdirs (Dir.inside path name) inner)
          else []).Sublist
        ((inner.deeper (Dir.inside path name)).filter (matchesPattern pattern))) := by
      split
      · exact visited_below_sublist inner _
      · exact List.nil_sublist _
    simp only [belowCalls, Dir.deeper, visited_append, visited_dirCalls, List.filter_append,
      EntersBelow]
    rw [append_eq_iff (List.Sublist.append (List.Sublist.refl _) (hdown.filter kind))
      ((visited_below_sublist rest path).filter kind),
      append_eq_iff (List.Sublist.refl _) (hdown.filter kind), ihrest path]
    simp only [true_and]
    refine and_congr_left fun _ => ?_
    split
    · exact ihinner _
    · exact filter_eq_nil_iff_all _ _ _

theorem visited_walk (path : Path) (dir : Dir) :
    visited (walkCalls pattern recursive hasdirs path dir) =
      (dir.here path).filter (matchesPattern pattern) ++
        if goesDown pattern recursive hasdirs path dir
          then visited (belowCalls pattern recursive hasdirs path dir) else [] :=
  visited_dirCalls path dir _

/-- What matches, of some kind, is all visited by a walk if it enters where there is some. -/
theorem visited_walk_eq_iff (kind : Path × Dirent → Bool) (path : Path) (dir : Dir) :
    (visited (walkCalls pattern recursive hasdirs path dir)).filter kind =
        (((dir.here path) ++ dir.deeper path).filter (matchesPattern pattern)).filter kind ↔
      Enters pattern recursive hasdirs (fun e => matchesPattern pattern e && kind e) path dir := by
  simp only [visited_walk, List.filter_append, List.append_cancel_left_eq, Enters]
  split
  · exact visited_below_eq_iff kind dir path
  · exact filter_eq_nil_iff_all _ _ _

/-! ### The log -/

/-- The log after calls that are all answered with 1, or up to the first that is not. -/
def answered {σ : Type} (answer : Answer σ) : List Call → σ → List (Call × Bool)
  | [],         _ => []
  | c :: calls, x =>
    (c, (answer c x).1) :: if (answer c x).1 then answered answer calls (answer c x).2 else []

variable {σ : Type} (answer : Answer σ)

/-- The calls are made until one is answered with 0. Induction on the
calls. -/
theorem offerAll_run (calls : List Call) :
    ∀ s : Host (Log σ), ((offerAll (logged answer) calls).run s).1 =
        some (accepts answer calls s.sys.data) ∧
      ((offerAll (logged answer) calls).run s).2.sys.calls =
        s.sys.calls ++ answered answer calls s.sys.data := by
  induction calls with
  | nil => exact fun s => ⟨rfl, (List.append_nil _).symm⟩
  | cons c calls ih =>
    intro s
    let t : Host (Log σ) := { s with sys := s.sys.call answer c }
    have hrun : (offerAll (logged answer) (c :: calls)).run s =
        (if !(answer c s.sys.data).1 then pure false
          else offerAll (logged answer) calls : Cmd (Log σ) Bool).run t := rfl
    rw [hrun]
    unfold accepts answered
    cases hgo : (answer c s.sys.data).1 with
    | false =>
      refine ⟨rfl, ?_⟩
      show s.sys.calls ++ [(c, (answer c s.sys.data).1)] = _
      rw [hgo]
      rfl
    | true =>
      obtain ⟨hres, hcalls⟩ := ih t
      refine ⟨hres, hcalls.trans ?_⟩
      show s.sys.calls ++ [(c, (answer c s.sys.data).1)] ++ _ = _
      rw [hgo, List.append_assoc]
      rfl

/-- Some call was answered with 0 if not all are accepted. -/
theorem answered_refused (calls : List Call) :
    ∀ x, (∃ c ∈ answered answer calls x, c.2 = false) ↔ accepts answer calls x = false := by
  induction calls with
  | nil => simp [answered, accepts]
  | cons c calls ih =>
    intro x
    unfold answered accepts
    cases hgo : (answer c x).1 with
    | false => simp
    | true => simpa using ih _

/-- A callback that always returns 1 is called for the whole list. -/
theorem answered_all (hone : ∀ c x, (answer c x).1 = true) (calls : List Call) :
    ∀ x, (answered answer calls x).map Prod.fst = calls := by
  induction calls with
  | nil => exact fun _ => rfl
  | cons c calls ih =>
    intro x
    simp only [answered, hone, if_true, List.map_cons, ih]

/-! ### `cmn_fs_walkdir` -/

variable (p : Place)

theorem splitOf_eq_none (isFile : Path → Bool) (path : Path) :
    splitOf isFile path = none ↔ isInvalid path = true := by
  unfold splitOf
  constructor
  · intro h
    by_contra hvalid
    rw [if_neg hvalid] at h
    revert h
    repeat' split
    all_goals exact nofun
  · exact fun h => if_pos h

/-- The walk makes the calls of the place, and returns whether the path is valid. -/
theorem walk_run (recursive : Bool) (x : σ) :
    ∃ s, s.sys.calls = answered answer (p.calls recursive) x ∧
      ∀ n, p.tree.size + 2 ≤ n → p.walk recursive answer n x = (some !isInvalid p.path, s) := by
  unfold Place.walk cmnFsWalkdir Place.calls
  rw [splitPath_eq]
  cases hsplit : splitOf p.isFile p.path with
  | none =>
    rw [(splitOf_eq_none _ _).mp hsplit]
    exact ⟨_, rfl, fun _ _ => rfl⟩
  | some split =>
    obtain ⟨dir, pattern⟩ := split
    have hvalid : isInvalid p.path = false := by
      rw [← Bool.not_eq_true, ← splitOf_eq_none p.isFile, hsplit]
      exact nofun
    obtain ⟨hat, hbelow⟩ := p.at_dir dir pattern hsplit
    obtain ⟨hres, hcalls⟩ := offerAll_run answer (walkCalls pattern recursive p.hasdirs dir p.tree)
      { sys := { data := x, calls := [] } }
    refine ⟨_, hcalls, fun n hn => ?_⟩
    simp only [pure_bind, actualWalkdir_eq _ n dir p.tree hn hat hbelow, hvalid]
    exact run_bind (Prod.ext hres rfl)

theorem visited_sublist (recursive : Bool) :
    (visited (p.calls recursive)).Sublist (p.wanted recursive) := by
  unfold Place.calls Place.wanted
  cases splitOf p.isFile p.path with
  | none => exact List.Sublist.refl _
  | some split =>
    obtain ⟨dir, pattern⟩ := split
    simp only [visited_walk, List.filter_append]
    refine List.Sublist.append (List.Sublist.refl _) ?_
    cases recursive with
    | false => exact List.nil_sublist _
    | true =>
      split
      · exact visited_below_sublist p.tree dir
      · exact List.nil_sublist _

/-- The calls are for every entry that is wanted if a recursive walk enters where there are any. -/
theorem visited_eq_iff (recursive : Bool) :
    visited (p.calls recursive) = p.wanted recursive ↔ (recursive = true → p.EntersAll) := by
  unfold Place.calls Place.wanted Place.EntersAll
  cases splitOf p.isFile p.path with
  | none => exact ⟨fun _ _ => trivial, fun _ => rfl⟩
  | some split =>
    obtain ⟨dir, pattern⟩ := split
    cases recursive with
    | false => simp [visited_walk, goesDown]
    | true =>
      have hall : _ ↔ Enters pattern true p.hasdirs (fun e => matchesPattern pattern e && true)
          dir p.tree := visited_walk_eq_iff (fun _ => true) dir p.tree
      simpa [List.filter_true] using hall

/-- A recursive walk with a callback that always returns 1 visits each matching entry once, at
every depth, and any other walk those of the top directory. -/
def VisitsOnce (recursive : Bool) (calls : List (Call × Bool)) : Prop :=
  (∀ c x, (answer c x).1 = true) → (visited (calls.map Prod.fst)).Perm (p.wanted recursive)

/-- 0 is returned if and only if the path is invalid or the callback has returned 0. -/
def ReportsRefusal (res : Bool) (calls : List (Call × Bool)) : Prop :=
  res = false ↔ isInvalid p.path = true ∨ ∃ c ∈ calls, c.2 = false

theorem visitsOnce_iff (recursive : Bool) (x : σ) :
    VisitsOnce answer p recursive (answered answer (p.calls recursive) x) ↔
      ((∀ c x, (answer c x).1 = true) → recursive = true → p.EntersAll) := by
  refine forall_congr' fun hone => ?_
  rw [answered_all answer hone, ← visited_eq_iff p recursive]
  exact ⟨fun h => (visited_sublist p recursive).eq_of_length h.length_eq, fun h => h ▸ .refl _⟩

theorem reportsRefusal_iff (recursive : Bool) (x : σ) :
    ReportsRefusal p (!isInvalid p.path) (answered answer (p.calls recursive) x) ↔
      accepts answer (p.calls recursive) x = true := by
  unfold ReportsRefusal
  rw [answered_refused]
  cases hinv : isInvalid p.path with
  | false => simp
  | true =>
    have hnone : p.calls recursive = [] := by
      unfold Place.calls
      rw [(splitOf_eq_none p.isFile p.path).mpr hinv]
    simp [hnone, accepts]

/-- A walk comes to an end, and then it has visited what it should and returns what it should, if
and only if a recursive walk enters every directory with a matching entry below, and the callback
returns 1 for every call. -/
theorem walkdir_iff (recursive : Bool) (x : σ) :
    (∃ res s, (∃ bound, ∀ n, bound ≤ n → p.walk recursive answer n x = (some res, s)) ∧
      VisitsOnce answer p recursive s.sys.calls ∧ ReportsRefusal p res s.sys.calls) ↔
    ((∀ c x, (answer c x).1 = true) → recursive = true → p.EntersAll) ∧
      accepts answer (p.calls recursive) x = true := by
  -- the run does not depend on the steps once there are enough
  obtain ⟨t, hcalls, hwalk⟩ := walk_run answer p recursive x
  rw [← visitsOnce_iff answer p recursive x, ← reportsRefusal_iff answer p recursive x, ← hcalls]
  constructor
  · rintro ⟨res, s, ⟨bound, hrun⟩, hvisits, hreports⟩
    have hend := (hrun _ (Nat.le_max_left bound (p.tree.size + 2))).symm.trans
      (hwalk _ (Nat.le_max_right _ _))
    obtain ⟨hres, rfl⟩ := Prod.mk.inj hend
    cases Option.some.inj hres
    exact ⟨hvisits, hreports⟩
  · exact fun h => ⟨_, t, ⟨_, hwalk⟩, h⟩

/-- `/fs` with a directory `d`, and in it a file `x.c`. -/
def nested : Dir :=
  .sub ⟨[100], by decide, by decide⟩ (.file ⟨[120, 46, 99], by decide, by decide⟩ .empty) .empty

/-- The path `/fs/*.c`, where `hasdirs` happens to be 0. -/
def masked : Place where
  path := [47, 102, 115, 47, 42, 46, 99]
  isFile _ := false
  hasdirs _ := false
  dirAt path := if path = [47, 102, 115] then some nested.entries
    else some [{ fname := [120, 46, 99], isDir := false }]
  tree := nested
  at_dir := by
    rintro dir pattern h
    cases h
    exact ⟨rfl, rfl, trivial, trivial⟩

/-- The walk of `/fs/*.c` does not visit `x.c`, as `d` does not match the mask. -/
theorem walk_misses :
    ¬ ∃ res s, (∃ bound, ∀ n, bound ≤ n →
        masked.walk true (fun _ (x : Unit) => (true, x)) n () = (some res, s)) ∧
      VisitsOnce (fun _ (x : Unit) => (true, x)) masked true s.sys.calls ∧
      ReportsRefusal masked res s.sys.calls := by
  rintro ⟨res, s, ⟨bound, hrun⟩, hvisits, -⟩
  obtain ⟨t, hcalls, hwalk⟩ := walk_run (fun _ (x : Unit) => (true, x)) masked true ()
  have hend := (hrun _ (Nat.le_max_left bound (masked.tree.size + 2))).symm.trans
    (hwalk _ (Nat.le_max_right _ _))
  obtain ⟨-, rfl⟩ := Prod.mk.inj hend
  have hlen := (hvisits fun _ _ => rfl).length_eq
  rw [hcalls] at hlen
  exact absurd hlen (by decide)

end Alcor.Proofs.Shell
