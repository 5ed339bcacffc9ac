import Alcor.Proofs.Shell.WalkerPieces

/-!
# `Alcor.Proofs.Shell.Walker`: every directory is closed, and 0 stops the walk

The walker of the source with its handles, in any surroundings: what can
be opened and read, what there is memory for, and what the callback
returns and does to the directories may be anything.

* `actualWalkdir_ends`: the number of steps that is enough on a tree,
  with any outcomes of `dm_opendir`.
* `actualWalkdir_disciplined`: every directory that is opened is closed
  once and not used behind that, and nothing is called behind a callback
  that returns 0.
-/

set_option autoImplicit false

namespace Alcor.Proofs.Shell.Walker

open Alcor.Shell (Path Dirent FsInfo Call Dir Name joined joinTotal cmnPatternMatches)
open Alcor.Shell.Walker

variable {S α β : Type} {s s' : State S} {evs : List Event} {env : Around S} {path : Path}

/-! ### Enough steps -/

/-- The program comes to its end. -/
def Ends (m : Walk S α) (s : State S) : Prop := ∃ result, m s = some result

theorem Ends.bind {m : Walk S α} {next : α → Walk S β} (hm : Ends m s)
    (hnext : ∀ y s', m s = some (y, s') → Ends (next y) s') : Ends (m >>= next) s := by
  obtain ⟨⟨y, s'⟩, hy⟩ := hm
  obtain ⟨result, hresult⟩ := hnext y s' hy
  exact ⟨result, Option.bind_eq_some_iff.mpr ⟨_, hy, hresult⟩⟩

theorem Ends.pure (x : α) (s : State S) : Ends (pure x) s := ⟨_, rfl⟩

theorem Ends.ite {b : Bool} {m m' : Walk S α} (hm : b = true → Ends m s)
    (hm' : b = false → Ends m' s) : Ends (if b then m else m') s := by
  cases b with
  | true => exact hm rfl
  | false => exact hm' rfl

theorem ends_dmOpendir (env : Around S) (path : Path) (s : State S) :
    Ends (dmOpendir env path) s := by
  unfold Ends dmOpendir
  split <;> exact ⟨_, rfl⟩

theorem ends_cmnFsPathJoin (env : Around S) (parts : List Path) (s : State S) :
    Ends (cmnFsPathJoin env parts) s := by
  unfold Ends cmnFsPathJoin
  split <;> exact ⟨_, rfl⟩

theorem ends_cb (env : Around S) (path : Path) (ent : Option Dirent) (info : FsInfo)
    (s : State S) : Ends (cb env path ent info) s := ⟨_, rfl⟩

/-- A call of the callback, and nothing behind it. -/
theorem ends_cb_only (env : Around S) (path : Path) (info : FsInfo) (s : State S) (x y : α) :
    Ends (do
      let go ← cb env path none info
      if !go then return x else return y) s :=
  (ends_cb env path none info s).bind fun _ _ _ =>
    Ends.ite (fun _ => Ends.pure _ _) fun _ => Ends.pure _ _

section Total
variable (pattern : Path) (recursive : Bool) {walk : Path → Walk S Bool}

/-- The first loop ends if it has more steps than entries. Induction
on the steps. -/
theorem readLoop_ends (path : Path) (n : Nat) :
    ∀ (k : Nat) (hasdirs : Bool) (s : State S), (s.left k).length < n →
      Ends (readLoop env pattern path n k hasdirs) s := by
  induction n with
  | zero =>
    intro k hasdirs s hn
    exact absurd hn (Nat.not_lt_zero _)
  | succ n ih =>
    intro k hasdirs s hn
    refine Ends.bind ⟨_, rfl⟩ fun ent s₁ hread => ?_
    obtain ⟨-, hent, hleft⟩ := dmReaddir_piece hread
    cases ent with
    | none => exact Ends.pure _ _
    | some ent =>
      -- what is left to read gets shorter
      have hshort : (s₁.left k).length < n := by
        rw [hleft, List.length_tail]
        cases hk : s.left k with
        | nil => simp [hk] at hent
        | cons e es =>
          rw [hk, List.length_cons] at hn
          simpa using hn
      refine Ends.ite (fun _ => ih k hasdirs s₁ hshort) fun _ => ?_
      refine (ends_cb _ _ _ _ _).bind fun go s₂ hcb => ?_
      obtain ⟨c, -, hsame⟩ := cb_piece hcb none
      exact Ends.ite (fun _ => Ends.pure _ _) fun _ => ih k _ s₂ (hsame ▸ hshort)

/-- The body of the second loop ends if the walk of the directory
does. -/
theorem walkEntry_ends {k : Nat} {ent : Dirent}
    (hends : ∀ t, Ends (walk (joined [path, ent.fname])) t) :
    Ends (walkEntry env walk path k ent) s := by
  refine (ends_cmnFsPathJoin _ _ _).bind fun fullname s₁ hjoin => ?_
  cases fullname with
  | some fullname =>
    -- where there is memory the walk goes to the directory below
    have hname : fullname = joined [path, ent.fname] := by
      rw [cmnFsPathJoin] at hjoin
      split at hjoin
      · simp at hjoin
      · rw [Option.some.injEq, Prod.mk.injEq] at hjoin
        have hres := hjoin.1
        split at hres
        · exact (Option.some.inj hres).symm
        · cases hres
    subst hname
    exact (hends s₁).bind fun r s₂ _ =>
      Ends.ite (fun _ => Ends.pure _ _) fun _ => Ends.pure _ _
  | none => exact ends_cb_only env path .MEMORY_ERROR s₁ _ _

/-- The second loop ends if it has more steps than entries, and the
walks of the directories do. Induction on the steps. -/
theorem walkLoop_ends (hwalk : ∀ p s r s', walk p s = some (r, s') → Walked s r s') (n : Nat) :
    ∀ (k : Nat) (s : State S), k < s.opened → (s.left k).length < n →
      (∀ ent ∈ s.left k, ent.isDir = true → ∀ t, Ends (walk (joined [path, ent.fname])) t) →
      Ends (walkLoop env walk path n k) s := by
  induction n with
  | zero =>
    intro k s _ hn
    exact absurd hn (Nat.not_lt_zero _)
  | succ n ih =>
    intro k s hk hn hends
    refine Ends.bind ⟨_, rfl⟩ fun ent s₁ hread => ?_
    obtain ⟨hpiece, hent, hleft⟩ := dmReaddir_piece hread
    have hk₁ := Nat.lt_of_lt_of_le hk hpiece.le
    cases ent with
    | none => exact Ends.pure _ _
    | some ent =>
      obtain ⟨es, hes⟩ : ∃ es, s.left k = ent :: es := by
        cases hk : s.left k with
        | nil => simp [hk] at hent
        | cons e es =>
          rw [hk, List.head?_cons, Option.some.injEq] at hent
          exact ⟨es, by rw [hent]⟩
      rw [hes, List.tail_cons] at hleft
      rw [hes, List.length_cons] at hn
      -- a walk of a directory does not change what is left to read here
      have hgo : ∀ s₂ : State S, k < s₂.opened → s₂.left k = es →
          Ends (walkLoop env walk path n k) s₂ := by
        intro s₂ hk₂ hleft₂
        refine ih k s₂ hk₂ (by rw [hleft₂]; omega) fun e he => ?_
        rw [hleft₂] at he
        exact hends e (by rw [hes]; exact List.mem_cons_of_mem ent he)
      refine Ends.ite (fun hdir => ?_) fun _ => hgo s₁ hk₁ hleft
      refine (walkEntry_ends (hends ent (by rw [hes]; exact List.mem_cons_self) hdir)).bind
        fun flow s₂ hentry => ?_
      cases flow with
      | next x =>
        obtain ⟨hk₂, hleft₂⟩ := walkEntry_keeps hwalk hk₁ hentry
        exact hgo s₂ hk₂ (hleft₂.trans hleft)
      | abort d => exact Ends.pure _ _
      | ret r => exact Ends.pure _ _

/-! ### Trees -/

/-- `dm_opendir` fails, or shows the directory that is at the path. -/
def Shows (env : Around S) (dirAt : Path → Option (List Dirent)) : Prop :=
  ∀ path sys entries sys', env.opendir path sys = (some entries, sys') → dirAt path = some entries

/-- A directory has no more entries than the tree. -/
theorem length_entries_le (tree : Dir) : tree.entries.length ≤ tree.size := by
  induction tree with
  | empty => exact Nat.le_refl _
  | file name rest ih =>
    rw [Dir.entries, Dir.size, List.length_cons]
    exact Nat.succ_le_succ ih
  | sub name inner rest _ ih =>
    rw [Dir.entries, Dir.size, List.length_cons]
    omega

/-- A directory in a tree has a smaller tree at its path. -/
theorem exists_inner {dirAt : Path → Option (List Dirent)} {tree : Dir}
    (hbelow : tree.HasBelow dirAt path) :
    ∀ ent ∈ tree.entries, ent.isDir = true →
      ∃ inner : Dir, dirAt (joined [path, ent.fname]) = some inner.entries ∧
        inner.HasBelow dirAt (joined [path, ent.fname]) ∧ inner.size < tree.size := by
  induction tree with
  | empty =>
    intro ent hmem
    cases hmem
  | file name rest ih =>
    intro ent hmem hdir
    cases List.mem_cons.mp hmem with
    | inl heq =>
      rw [heq] at hdir
      cases hdir
    | inr hrest =>
      obtain ⟨inner, hat, hinner, hsize⟩ := ih hbelow ent hrest hdir
      exact ⟨inner, hat, hinner, Nat.lt_succ_of_lt hsize⟩
  | sub name inner rest _ ih =>
    intro ent hmem hdir
    rw [Dir.HasBelow] at hbelow
    cases List.mem_cons.mp hmem with
    | inl heq =>
      -- it is the first entry
      subst heq
      exact ⟨inner, hbelow.1, hbelow.2.1, by rw [Dir.size]; omega⟩
    | inr hrest =>
      obtain ⟨inner', hat, hinner, hsize⟩ := ih hbelow.2.2 ent hrest hdir
      exact ⟨inner', hat, hinner, by rw [Dir.size]; omega⟩

theorem ends_atAbort (flow : Flow Unit) (s : State S) : Ends (atAbort flow) s := by
  cases flow with
  | next x => exact ⟨_, rfl⟩
  | ret r => exact ⟨_, rfl⟩
  | abort d => cases d <;> exact ⟨_, rfl⟩

section OneDirectory
variable {dirAt : Path → Option (List Dirent)} {entries : List Dirent} {n : Nat}

/-- The part that reads the directory again ends. -/
theorem walkAgain_ends (hshows : Shows env dirAt) (hat : dirAt path = some entries)
    (hn : entries.length < n) (hwalk : ∀ p s r s', walk p s = some (r, s') → Walked s r s')
    (hends : ∀ ent ∈ entries, ent.isDir = true → ∀ t, Ends (walk (joined [path, ent.fname])) t)
    (s : State S) : Ends (walkAgain env walk n path) s := by
  refine (ends_dmOpendir env path s).bind fun d s₁ hopen => ?_
  cases d with
  | none => exact ends_cb_only env path .OPENDIR_FAILED s₁ _ _
  | some k =>
    obtain ⟨hk, -, hopened, -, sys, hsys⟩ := dmOpendir_some hopen
    -- the second time the entries are the same
    have hleft : s₁.left k = entries :=
      Option.some.inj ((hshows path _ _ _ hsys).symm.trans hat)
    have hloop : Ends (walkLoop env walk path n k) s₁ := by
      refine walkLoop_ends hwalk n k s₁ (by omega) (by rwa [hleft]) ?_
      rwa [hleft]
    refine hloop.bind fun flow s₂ _ => ?_
    cases flow with
    | next x => exact ⟨_, rfl⟩
    | abort d => exact Ends.pure _ _
    | ret r => exact Ends.pure _ _

theorem closeAndDescend_ends (hagain : ∀ s : State S, Ends (walkAgain env walk n path) s) (k : Nat)
    (hasdirs : Bool) (s : State S) :
    Ends (closeAndDescend env recursive walk n path k hasdirs) s := by
  refine Ends.bind ⟨_, rfl⟩ fun _ s₁ _ => ?_
  refine (ends_cb _ _ _ _ _).bind fun go s₂ _ => ?_
  refine Ends.ite (fun _ => Ends.pure _ _) fun _ => ?_
  refine Ends.ite (fun _ => ?_) fun _ => ends_cb_only env path .DIRECTORY_DONE s₂ _ _
  refine (hagain s₂).bind fun flow s₃ _ => ?_
  cases flow with
  | next x => exact ends_cb_only env path .DIRECTORY_DONE s₃ _ _
  | abort d => exact Ends.pure _ _
  | ret r => exact Ends.pure _ _

/-- The function ends up to the label `abort`. -/
theorem walkBody_ends (hshows : Shows env dirAt) (hat : dirAt path = some entries)
    (hn : entries.length < n) (hagain : ∀ s : State S, Ends (walkAgain env walk n path) s)
    (s : State S) : Ends (walkBody env pattern recursive walk n path) s := by
  refine Ends.bind ⟨_, rfl⟩ fun hasdirs s₁ _ => ?_
  refine (ends_dmOpendir env path s₁).bind fun d s₂ hopen => ?_
  cases d with
  | none => exact ends_cb_only env path .OPENDIR_FAILED s₂ _ _
  | some k =>
    obtain ⟨-, -, -, -, sys, hsys⟩ := dmOpendir_some hopen
    have hleft : s₂.left k = entries :=
      Option.some.inj ((hshows path _ _ _ hsys).symm.trans hat)
    refine (ends_cb _ _ _ _ _).bind fun go s₃ hcb => ?_
    obtain ⟨c, -, hsame⟩ := cb_piece hcb none
    refine Ends.ite (fun _ => Ends.pure _ _) fun _ => ?_
    refine (readLoop_ends pattern path n k hasdirs s₃ (by rwa [hsame, hleft])).bind
      fun flow s₄ _ => ?_
    cases flow with
    | next hasdirs => exact closeAndDescend_ends recursive hagain k hasdirs s₄
    | abort d => exact Ends.pure _ _
    | ret r => exact Ends.pure _ _

end OneDirectory

/-- The walk of a tree comes to its end. -/
theorem actualWalkdir_ends {dirAt : Path → Option (List Dirent)} (hshows : Shows env dirAt)
    (n : Nat) :
    ∀ (tree : Dir) (path : Path) (s : State S), tree.size + 2 ≤ n →
      dirAt path = some tree.entries → tree.HasBelow dirAt path →
      Ends (cmnFsActualWalkdir env pattern recursive n path) s := by
  induction n with
  | zero =>
    intro tree path s hn
    exact absurd hn (Nat.not_succ_le_zero _)
  | succ n ih =>
    intro tree path s hn hat hbelow
    have hlen : tree.entries.length < n := by
      have hle := length_entries_le tree
      omega
    -- the trees below are smaller, so the steps are enough for them
    have hagain (s : State S) : Ends (walkAgain env
        (cmnFsActualWalkdir env pattern recursive n) n path) s := by
      refine walkAgain_ends hshows hat hlen (actualWalkdir_walked pattern recursive n) ?_ s
      intro ent hmem hdir t
      obtain ⟨inner, hat', hbelow', hsize⟩ := exists_inner hbelow ent hmem hdir
      exact ih inner _ t (by omega) hat' hbelow'
    rw [cmnFsActualWalkdir]
    exact (walkBody_ends pattern recursive hshows hat hlen hagain s).bind
      fun flow s' _ => ends_atAbort flow s'

end Total

/-! ### The whole walk -/

/-- Each handle was closed once, behind its last use; there are no others. -/
def ClosesEach (s : State S) : Prop :=
  ∀ h, if h < s.opened then Lib.Resources.Complete (Lib.Resources.on handleUse h s.events)
    else Lib.Resources.on handleUse h s.events = []

/-- What may happen behind a call of the callback that returns 0. -/
def AfterStop : Event → Prop
  | .called _ _ => False
  | .returned r => r = false
  | _           => True

/-- Nothing is called behind a call that returns 0, and everything returns 0 from there on. -/
def Stops (evs : List Event) : Prop :=
  evs.Pairwise fun e e' => (∃ c, e = .called c false) → AfterStop e'

theorem Going.stops (h : Going evs) : Stops evs := by
  refine List.Pairwise.imp_of_mem (R := fun _ _ => True) ?_ (List.pairwise_of_forall (by simp))
  rintro _ _ hmem - - ⟨c, rfl⟩
  exact absurd hmem (h c)

theorem Quiet.stops (h : Quiet evs) : Stops evs :=
  Going.stops fun c => h.1 c false

theorem Quiet.afterStop (h : Quiet evs) : ∀ e ∈ evs, AfterStop e := by
  intro e hmem
  cases e with
  | called c go => exact h.1 c go hmem
  | returned r => exact h.2 r hmem
  | opened d => trivial
  | read d => trivial
  | closed d => trivial

theorem Stopped.stops (h : Stopped evs) : Stops evs := by
  obtain ⟨xs, c, ys, rfl, hgoing, hquiet⟩ := h
  -- in front of the call that returns 0 no call does, and behind it nothing is called
  refine List.pairwise_append.mpr ⟨hgoing.stops, ?_, ?_⟩
  · exact List.pairwise_cons.mpr ⟨fun e hmem _ => hquiet.afterStop e hmem, hquiet.stops⟩
  · rintro _ hmem _ - ⟨c', rfl⟩
    exact absurd hmem (hgoing c')

theorem Stopped.mem (h : Stopped evs) : ∃ c, .called c false ∈ evs := by
  obtain ⟨xs, c, ys, rfl, -, -⟩ := h
  exact ⟨c, by simp⟩

/-- What a walk has done that returns `r`: every directory that it opened is closed once and not
used any more; when the callback has returned 0 it is not called again and every call of the
walker returns 0, this one too. -/
structure Disciplined (r : Bool) (s : State S) : Prop where
  closes : ClosesEach s
  stops : Stops s.events
  returns : r = true ↔ ∀ c, .called c false ∉ s.events

/-- **The walker**: a walk is `Disciplined` whatever can be opened and
read, whatever there is memory for and whatever the callback returns
and does to the directories; the walk of a tree comes to its end. The
two parts have inductions of their own. -/
theorem actualWalkdir_disciplined (env : Around S) (pattern path : Path) (recursive : Bool)
    (sys : S) :
    (∀ n r s', cmnFsActualWalkdir env pattern recursive n path { sys } = some (r, s') →
      Disciplined r s') ∧
    ∀ (dirAt : Path → Option (List Dirent)) (tree : Dir) (n : Nat), Shows env dirAt →
      dirAt path = some tree.entries → tree.HasBelow dirAt path → tree.size + 2 ≤ n →
        ∃ r s', cmnFsActualWalkdir env pattern recursive n path { sys } = some (r, s') := by
  constructor
  · intro n r s' hrun
    obtain ⟨evs, hpiece, hevs⟩ := actualWalkdir_walked pattern recursive n path _ r s' hrun
    have hevents : s'.events = evs := hpiece.events
    constructor
    · intro h
      have htidy := hpiece.tidy h
      rw [if_neg (by simp)] at htidy
      simpa [hevents] using htidy
    · rw [hevents]
      cases r with
      | true => exact Going.stops hevs
      | false => exact Stopped.stops hevs
    · rw [hevents]
      cases r with
      | true => exact ⟨fun _ => hevs, fun _ => rfl⟩
      | false =>
        obtain ⟨c, hmem⟩ := Stopped.mem hevs
        exact ⟨fun h => absurd h (by simp), fun h => absurd hmem (h c)⟩
  · intro dirAt tree n hshows hat hbelow hn
    obtain ⟨⟨r, s'⟩, hrun⟩ :=
      actualWalkdir_ends pattern recursive hshows n tree path { sys } hn hat hbelow
    exact ⟨r, s', hrun⟩

/-- `/d` with the directory `a`. -/
def oneInside : Dir := .sub ⟨[97], by decide, by decide⟩ .empty .empty

/-- The directories of a file system with `/d`. -/
def oneInsideAt (path : Path) : Option (List Dirent) :=
  if path = [47, 100] then some oneInside.entries
  else if path = [47, 100, 47, 97] then some []
  else none

/-- A callback that returns 0 from the fourth call on. -/
def threeCalls : Around Nat where
  opendir path sys := (oneInsideAt path, sys)
  callback _ sys := (sys < 3, sys + 1)
  malloc sys := (true, sys)
  hasdirs _ sys := (false, sys)

/-- The hypotheses of `actualWalkdir_disciplined` hold of a walk whose
callback returns 0 from its fourth call on. -/
theorem actualWalkdir_disciplined_threeCalls :
    ∃ r s', cmnFsActualWalkdir threeCalls [42] true 3 [47, 100] { sys := 0 } = some (r, s') ∧
      Disciplined r s' := by
  obtain ⟨hdisciplined, hends⟩ := actualWalkdir_disciplined threeCalls [42] [47, 100] true 0
  obtain ⟨r, s', hrun⟩ := hends oneInsideAt oneInside 3
    (fun _ _ _ _ hopen => (Prod.mk.inj hopen).1) rfl ⟨by decide, trivial, trivial⟩ (by decide)
  exact ⟨r, s', hrun, hdisciplined 3 r s' hrun⟩

end Alcor.Proofs.Shell.Walker
