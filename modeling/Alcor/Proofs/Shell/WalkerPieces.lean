import Alcor.Shell.Walker

/-!
# `Alcor.Proofs.Shell.WalkerPieces`: what a part of a walk leaves

Each part of the walker is a `Piece`: it opens, uses and closes its own
handles and only uses the one that it was given. A piece is `Going` as
long as the callback returns 1, and `Stopped` once it has returned 0.
`FlowIn` is what the loops leave, which have an open directory, and
`FlowOut` what the rest of the function leaves.

* `Piece.trans`, `Piece.bracket`: pieces one behind the other, and inside
  of a directory that is opened and closed.
* `readLoop_flow`, `walkLoop_flow`, `walkBody_flow`: the parts.
* `walked_of_flow`: the label `abort` closes what is open.
* `actualWalkdir_walked`: every walk that comes to its end has closed
  what it opened.
-/

set_option autoImplicit false

namespace Alcor.Proofs.Shell.Walker

open Lib.Resources (Use Tidy)
open Alcor.Shell (Path Dirent FsInfo Call Dir Name joined joinTotal cmnPatternMatches)
open Alcor.Shell.Walker

variable {flow : Flow Unit} {k n : Nat} {xs ys : List Event} {ent : Option Dirent} {go : Bool}

/-! ### What the events say -/

/-- What an event does with a handle. -/
def handleUse : Event → Option (Nat × Use)
  | .opened d => some (d, .opened)
  | .read d   => some (d, .used)
  | .closed d => some (d, .closed)
  | _         => none

/-- The callback has returned 1 each time. -/
def Going (evs : List Event) : Prop := ∀ c, .called c false ∉ evs

/-- No callback is called, and every call of the walker returns 0. -/
def Quiet (evs : List Event) : Prop :=
  (∀ c go, .called c go ∉ evs) ∧ ∀ r, .returned r ∈ evs → r = false

/-- The callback has returned 0 once, and nothing was called since. -/
def Stopped (evs : List Event) : Prop :=
  ∃ xs c ys, evs = xs ++ .called c false :: ys ∧ Going xs ∧ Quiet ys

theorem Going.nil : Going [] := fun _ => List.not_mem_nil

theorem Quiet.nil : Quiet [] := ⟨fun _ _ => List.not_mem_nil, fun _ h => absurd h List.not_mem_nil⟩

theorem Going.append (hx : Going xs) (hy : Going ys) : Going (xs ++ ys) := by
  intro c hmem
  cases List.mem_append.mp hmem with
  | inl h => exact hx c h
  | inr h => exact hy c h

theorem Stopped.after (hx : Going xs) (hy : Stopped ys) : Stopped (xs ++ ys) := by
  obtain ⟨us, c, vs, rfl, hgoing, hquiet⟩ := hy
  exact ⟨xs ++ us, c, vs, by rw [List.append_assoc], hx.append hgoing, hquiet⟩

theorem Stopped.quiet (hx : Stopped xs) (hy : Quiet ys) : Stopped (xs ++ ys) := by
  obtain ⟨us, c, vs, rfl, hgoing, hquiet⟩ := hx
  refine ⟨us, c, vs ++ ys, by rw [List.append_assoc, List.cons_append], hgoing, ?_, ?_⟩
  · intro c go hmem
    cases List.mem_append.mp hmem with
    | inl h => exact hquiet.1 c go h
    | inr h => exact hy.1 c go h
  · intro r hmem
    cases List.mem_append.mp hmem with
    | inl h => exact hquiet.2 r h
    | inr h => exact hy.2 r h

/-- One event that is no call of the callback. -/
theorem going_single {e : Event} (he : ∀ c, e ≠ .called c false) : Going [e] := by
  intro c hmem
  exact he c (List.mem_singleton.mp hmem).symm

theorem quiet_closed (d : Nat) : Quiet [.closed d] := by
  constructor <;> simp

theorem quiet_returned : Quiet [.returned false] := by
  constructor <;> simp

theorem stopped_called (c : Call) : Stopped [.called c false] :=
  ⟨[], c, [], rfl, Going.nil, Quiet.nil⟩

/-! ### Pieces -/

variable {S α β : Type}
variable {s₁ : State S} {x : α}

/-- What a part of a walk leaves; `d` is the directory that it has open. -/
structure Piece (d : Option Nat) (s s' : State S) (evs : List Event) : Prop where
  events : s'.events = s.events ++ evs
  le : s.opened ≤ s'.opened
  tidy : Tidy handleUse s.opened s'.opened d evs
  left : ∀ h, h < s.opened → d ≠ some h → s'.left h = s.left h

variable {d : Option Nat} {s s' s'' : State S} {evs evs' : List Event}

theorem Piece.trans (h : Piece d s s' evs) (h' : Piece d s' s'' evs') :
    Piece d s s'' (evs ++ evs') where
  events := by rw [h'.events, h.events, List.append_assoc]
  le := Nat.le_trans h.le h'.le
  tidy := Tidy.append h.le h'.le h.tidy h'.tidy
  left := fun k hk hd => (h'.left k (Nat.lt_of_lt_of_le hk h.le) hd).trans (h.left k hk hd)

/-- A piece with handles of its own, in the middle of one that has a directory open. -/
theorem Piece.weaken (h : Piece none s s' evs) (hk : k < s.opened) : Piece (some k) s s' evs :=
  ⟨h.events, h.le, h.tidy.weaken hk, fun j hj _ => h.left j hj (by simp)⟩

/-- A piece that leaves only the system changed. -/
theorem Piece.sys (d : Option Nat) (s : State S) (sys : S) : Piece d s { s with sys } [] :=
  ⟨(List.append_nil _).symm, Nat.le_refl _, Tidy.nil _ _, fun _ _ _ => rfl⟩

/-- A directory is opened, used by a piece, and closed. -/
theorem Piece.bracket {s₂ : State S} (hevents : s₁.events = s.events ++ [.opened s.opened])
    (hopened : s₁.opened = s.opened + 1) (hleft : ∀ h, h < s.opened → s₁.left h = s.left h)
    (h : Piece (some s.opened) s₁ s₂ evs) :
    Piece none s { s₂ with events := s₂.events ++ [.closed s.opened] }
      (.opened s.opened :: (evs ++ [.closed s.opened])) where
  events := by
    show s₂.events ++ _ = _
    rw [h.events, hevents]
    simp
  le := by
    have hle := h.le
    rw [hopened] at hle
    exact Nat.le_of_succ_le hle
  tidy := by
    have hle := h.le
    have htidy := h.tidy
    rw [hopened] at hle htidy
    exact Tidy.bracket rfl rfl hle htidy
  left := by
    intro k hk _
    have hne : some s.opened ≠ some k := fun heq => Nat.ne_of_gt hk (Option.some.inj heq)
    exact (h.left k (by omega) hne).trans (hleft k hk)

/-! ### The operations -/

/-- A program that ends has its first part behind it. -/
theorem bind_some {m : Walk S α} {next : α → Walk S β} {x : β}
    (h : (m >>= next) s = some (x, s'')) :
    ∃ y s', m s = some (y, s') ∧ next y s' = some (x, s'') := by
  obtain ⟨⟨y, s'⟩, hm, hnext⟩ := Option.bind_eq_some_iff.mp h
  exact ⟨y, s', hm, hnext⟩

theorem pure_some {y : α} (h : (pure x : Walk S α) s = some (y, s')) : x = y ∧ s = s' := by
  have h : some (x, s) = some (y, s') := h
  rw [Option.some.injEq, Prod.mk.injEq] at h
  exact h

variable {env : Around S} {path : Path}

theorem dmReaddir_piece (h : dmReaddir k s = some (ent, s')) :
    Piece (some k) s s' [.read k] ∧ ent = (s.left k).head? ∧ s'.left k = (s.left k).tail := by
  rw [dmReaddir, Option.some.injEq, Prod.mk.injEq] at h
  obtain ⟨rfl, rfl⟩ := h
  refine ⟨⟨rfl, Nat.le_refl _, Tidy.used rfl _, fun j _ hj => ?_⟩, rfl, Function.update_self _ _ _⟩
  exact Function.update_of_ne (fun heq => hj (congrArg some heq.symm)) _ _

theorem cb_piece {info : FsInfo} (h : cb env path ent info s = some (go, s')) (d : Option Nat) :
    ∃ c, Piece d s s' [.called c go] ∧ s'.left = s.left := by
  rw [cb, Option.some.injEq, Prod.mk.injEq] at h
  obtain ⟨rfl, rfl⟩ := h
  exact ⟨_, ⟨rfl, Nat.le_refl _, Tidy.other rfl _ _, fun _ _ _ => rfl⟩, rfl⟩

/-- A call of the callback, and where the function goes on. -/
theorem cb_only_some {info : FsInfo} {y flow : α} (h : (do
      let go ← cb env path ent info
      if !go then return x else return y : Walk S α) s = some (flow, s')) (d : Option Nat) :
    ∃ c go, Piece d s s' [.called c go] ∧ flow = if go then y else x := by
  obtain ⟨go, s₁, hcb, h⟩ := bind_some h
  obtain ⟨c, hcall, -⟩ := cb_piece hcb d
  cases go with
  | true =>
    obtain ⟨rfl, rfl⟩ := pure_some h
    exact ⟨c, true, hcall, rfl⟩
  | false =>
    obtain ⟨rfl, rfl⟩ := pure_some h
    exact ⟨c, false, hcall, rfl⟩

theorem cmnFsPathJoin_piece {parts : List Path} {res : Option Path}
    (h : cmnFsPathJoin env parts s = some (res, s')) (d : Option Nat) :
    Piece d s s' [] ∧ s'.left = s.left := by
  rw [cmnFsPathJoin] at h
  split at h
  · rw [Option.some.injEq, Prod.mk.injEq] at h
    rw [← h.2]
    exact ⟨Piece.sys d s s.sys, rfl⟩
  · rw [Option.some.injEq, Prod.mk.injEq] at h
    rw [← h.2]
    exact ⟨Piece.sys d s _, rfl⟩

/-- The directory could not be opened. -/
theorem dmOpendir_none (h : dmOpendir env path s = some (none, s')) : Piece none s s' [] := by
  rw [dmOpendir] at h
  split at h
  · rw [Option.some.injEq, Prod.mk.injEq] at h
    rw [← h.2]
    exact Piece.sys none s _
  · simp at h

/-- The directory was opened. -/
theorem dmOpendir_some (h : dmOpendir env path s = some (some k, s')) :
    k = s.opened ∧ s'.events = s.events ++ [.opened s.opened] ∧ s'.opened = s.opened + 1 ∧
      (∀ j, j < s.opened → s'.left j = s.left j) ∧
      ∃ sys, env.opendir path s.sys = (some (s'.left k), sys) := by
  rw [dmOpendir] at h
  split at h
  · simp at h
  · next entries sys hopen =>
      rw [Option.some.injEq, Prod.mk.injEq, Option.some.injEq] at h
      obtain ⟨rfl, rfl⟩ := h
      refine ⟨rfl, rfl, rfl, fun j hj => ?_, sys, ?_⟩
      · exact Function.update_of_ne (Nat.ne_of_lt hj) _ _
      · rw [hopen]
        simp

/-! ### Flows -/

/-- A walk of a directory: it returns 1 as long as the callback does. -/
def Walked (s : State S) (r : Bool) (s' : State S) : Prop :=
  ∃ evs, Piece none s s' evs ∧ if r then Going evs else Stopped evs

/-- What a loop leaves that has the directory `k` open. -/
def FlowIn (k : Nat) (s : State S) (flow : Flow α) (s' : State S) : Prop :=
  ∃ evs, Piece (some k) s s' evs ∧
    match flow with
    | .next _  => Going evs
    | .abort d => d = some k ∧ Stopped evs
    | .ret _   => False

/-- What the rest leaves: everything is closed, or one directory is left to the label `abort`. -/
def FlowOut (s : State S) (flow : Flow α) (s' : State S) : Prop :=
  ∃ evs,
    match flow with
    | .next _         => Piece none s s' evs ∧ Going evs
    | .ret r          => r = false ∧ Piece none s s' evs ∧ Stopped evs
    | .abort none     => Piece none s s' evs ∧ Stopped evs
    | .abort (some k) =>
      Piece none s { s' with events := s'.events ++ [.closed k] } (evs ++ [.closed k]) ∧
        Stopped evs

theorem FlowIn.before {flow : Flow α} (h : Piece (some k) s s' evs) (hgoing : Going evs)
    (hflow : FlowIn k s' flow s'') : FlowIn k s flow s'' := by
  obtain ⟨evs', h', hflow⟩ := hflow
  refine ⟨evs ++ evs', h.trans h', ?_⟩
  cases flow with
  | next x => exact hgoing.append hflow
  | abort d => exact ⟨hflow.1, Stopped.after hgoing hflow.2⟩
  | ret r => exact hflow

theorem FlowOut.before {flow : Flow α} (h : Piece none s s' evs) (hgoing : Going evs)
    (hflow : FlowOut s' flow s'') : FlowOut s flow s'' := by
  obtain ⟨evs', hflow⟩ := hflow
  refine ⟨evs ++ evs', ?_⟩
  cases flow with
  | next x => exact ⟨h.trans hflow.1, hgoing.append hflow.2⟩
  | ret r => exact ⟨hflow.1, h.trans hflow.2.1, Stopped.after hgoing hflow.2.2⟩
  | abort d =>
    cases d with
    | none => exact ⟨h.trans hflow.1, Stopped.after hgoing hflow.2⟩
    | some k =>
      refine ⟨?_, Stopped.after hgoing hflow.2⟩
      rw [List.append_assoc]
      exact h.trans hflow.1

/-- A call of the callback, and where it leads. -/
theorem FlowIn.call {c : Call} (h : Piece (some k) s s' [.called c go]) (x : α) :
    FlowIn k s (if go then .next x else .abort (some k)) s' := by
  refine ⟨_, h, ?_⟩
  cases go with
  | true => exact going_single (by simp)
  | false => exact ⟨rfl, stopped_called c⟩

theorem FlowOut.call {c : Call} (h : Piece none s s' [.called c go])
    (hflow : flow = .ret false ∨ flow = .abort none) :
    FlowOut s (if go then .next () else flow) s' := by
  refine ⟨[.called c go], ?_⟩
  cases go with
  | true => exact ⟨h, going_single (by simp)⟩
  | false =>
    rcases hflow with rfl | rfl
    · exact ⟨rfl, h, stopped_called c⟩
    · exact ⟨h, stopped_called c⟩

/-! ### The loops -/

section Loops
variable (pattern : Path) {walk : Path → Walk S Bool}

/-- The first loop. Induction on the steps. -/
theorem readLoop_flow (path : Path) (n : Nat) :
    ∀ (k : Nat) (hasdirs : Bool) (s s' : State S) (flow : Flow Bool),
      readLoop env pattern path n k hasdirs s = some (flow, s') → FlowIn k s flow s' := by
  induction n with
  | zero =>
    intro k hasdirs s s' flow h
    cases h
  | succ n ih =>
    intro k hasdirs s s' flow h
    rw [readLoop] at h
    obtain ⟨ent, s₁, hread, h⟩ := bind_some h
    have hpiece := (dmReaddir_piece hread).1
    have hgoing : Going [.read k] := going_single (by simp)
    cases ent with
    | none =>
      -- the end of the directory
      obtain ⟨rfl, rfl⟩ := pure_some h
      exact ⟨_, hpiece, hgoing⟩
    | some ent =>
      simp only at h
      split at h
      · -- the entry does not match
        exact FlowIn.before hpiece hgoing (ih k hasdirs s₁ s' flow h)
      · obtain ⟨go, s₂, hcb, h⟩ := bind_some h
        obtain ⟨c, hcall, -⟩ := cb_piece hcb (some k)
        refine FlowIn.before hpiece hgoing ?_
        cases go with
        | false =>
          obtain ⟨rfl, rfl⟩ := pure_some h
          exact FlowIn.call hcall hasdirs
        | true =>
          exact FlowIn.before hcall (going_single (by simp)) (ih k _ s₂ s' flow h)

/-- A directory below is walked, or the callback is told that there is no memory. -/
theorem walkEntry_flow (hwalk : ∀ p s r s', walk p s = some (r, s') → Walked s r s')
    {ent : Dirent} (hk : k < s.opened) (h : walkEntry env walk path k ent s = some (flow, s')) :
    FlowIn k s flow s' := by
  rw [walkEntry] at h
  obtain ⟨fullname, s₁, hjoin, h⟩ := bind_some h
  have hpiece := (cmnFsPathJoin_piece hjoin (some k)).1
  refine FlowIn.before hpiece Going.nil ?_
  cases fullname with
  | some fullname =>
    obtain ⟨r, s₂, hwalked, h⟩ := bind_some h
    obtain ⟨evs, hevs, hstop⟩ := hwalk fullname s₁ r s₂ hwalked
    have hevs := hevs.weaken (Nat.lt_of_lt_of_le hk hpiece.le)
    cases r with
    | true =>
      obtain ⟨rfl, rfl⟩ := pure_some h
      exact ⟨evs, hevs, hstop⟩
    | false =>
      -- the callback has stopped below, so this call goes to `abort` with its own handle
      obtain ⟨rfl, rfl⟩ := pure_some h
      exact ⟨evs, hevs, rfl, hstop⟩
  | none =>
    obtain ⟨c, go, hcall, rfl⟩ := cb_only_some h (some k)
    exact FlowIn.call hcall ()

/-- A walk of a directory below opens handles of its own, so it leaves
what the handle of the loop has left to read. -/
theorem walkEntry_keeps (hwalk : ∀ p s r s', walk p s = some (r, s') → Walked s r s')
    {ent : Dirent} (hk : k < s.opened) (h : walkEntry env walk path k ent s = some (flow, s')) :
    k < s'.opened ∧ s'.left k = s.left k := by
  rw [walkEntry] at h
  obtain ⟨fullname, s₁, hjoin, h⟩ := bind_some h
  obtain ⟨hpiece, hleft₁⟩ := cmnFsPathJoin_piece hjoin none
  have hk₁ := Nat.lt_of_lt_of_le hk hpiece.le
  cases fullname with
  | some fullname =>
    obtain ⟨r, s₂, hwalked, h⟩ := bind_some h
    obtain ⟨evs, hevs, -⟩ := hwalk fullname s₁ r s₂ hwalked
    have hsame : s₂ = s' := by
      cases r <;> exact (pure_some h).2
    subst hsame
    exact ⟨Nat.lt_of_lt_of_le hk₁ hevs.le, (hevs.left k hk₁ (by simp)).trans (by rw [hleft₁])⟩
  | none =>
    obtain ⟨go, s₂, hcb, h⟩ := bind_some h
    obtain ⟨c, hcall, hleft₂⟩ := cb_piece hcb none
    have hsame : s₂ = s' := by
      cases go <;> exact (pure_some h).2
    subst hsame
    exact ⟨Nat.lt_of_lt_of_le hk₁ hcall.le, by rw [hleft₂, hleft₁]⟩

/-- The second loop, if the walks of directories below are as stated.
Induction on the steps. -/
theorem walkLoop_flow (hwalk : ∀ p s r s', walk p s = some (r, s') → Walked s r s') (n : Nat) :
    ∀ (k : Nat) (s s' : State S) (flow : Flow Unit), k < s.opened →
      walkLoop env walk path n k s = some (flow, s') → FlowIn k s flow s' := by
  induction n with
  | zero =>
    intro k s s' flow _ h
    cases h
  | succ n ih =>
    intro k s s' flow hk h
    rw [walkLoop] at h
    obtain ⟨ent, s₁, hread, h⟩ := bind_some h
    have hpiece := (dmReaddir_piece hread).1
    have hgoing : Going [.read k] := going_single (by simp)
    have hk₁ := Nat.lt_of_lt_of_le hk hpiece.le
    refine FlowIn.before hpiece hgoing ?_
    cases ent with
    | none =>
      obtain ⟨rfl, rfl⟩ := pure_some h
      exact ⟨[], Piece.sys _ _ s₁.sys, Going.nil⟩
    | some ent =>
      simp only at h
      split at h
      · obtain ⟨flow₂, s₂, hentry, h⟩ := bind_some h
        have hflow := walkEntry_flow hwalk hk₁ hentry
        cases flow₂ with
        | next x =>
          obtain ⟨evs, hevs, hgo⟩ := hflow
          exact FlowIn.before hevs hgo
            (ih k s₂ s' flow (Nat.lt_of_lt_of_le hk₁ hevs.le) h)
        | abort d =>
          obtain ⟨rfl, rfl⟩ := pure_some h
          exact hflow
        | ret r =>
          -- no statement of the loop returns
          obtain ⟨evs, -, hfalse⟩ := hflow
          exact hfalse.elim
      · -- no directory
        exact ih k s₁ s' flow hk₁ h

end Loops

/-! ### The function -/

section Function
variable (pattern : Path) (recursive : Bool) {walk : Path → Walk S Bool}

/-- An open directory that a loop has left. -/
theorem flowOut_of_abort {d : Option Nat} (hevents : s₁.events = s.events ++ [.opened s.opened])
    (hopened : s₁.opened = s.opened + 1) (hleft : ∀ h, h < s.opened → s₁.left h = s.left h)
    (h : FlowIn (α := α) s.opened s₁ (.abort d) s') : FlowOut (α := β) s (.abort d) s' := by
  obtain ⟨evs, hevs, rfl, hstopped⟩ := h
  refine ⟨.opened s.opened :: evs, ?_, ?_⟩
  · exact Piece.bracket hevents hopened hleft hevs
  · exact Stopped.after (going_single (e := .opened s.opened) (by simp)) hstopped

/-- An open directory that a loop has read to its end is closed. -/
theorem piece_of_next (hevents : s₁.events = s.events ++ [.opened s.opened])
    (hopened : s₁.opened = s.opened + 1) (hleft : ∀ h, h < s.opened → s₁.left h = s.left h)
    (h : FlowIn s.opened s₁ (.next x) s') :
    ∃ evs, Going evs ∧
      Piece none s { s' with events := s'.events ++ [.closed s.opened] } evs := by
  obtain ⟨evs, hevs, hgoing⟩ := h
  refine ⟨.opened s.opened :: (evs ++ [.closed s.opened]), ?_,
    Piece.bracket hevents hopened hleft hevs⟩
  have hopen : Going [.opened s.opened] := going_single (by simp)
  exact hopen.append (hgoing.append (going_single (by simp)))

/-- The part that reads the directory again. -/
theorem walkAgain_flow (hwalk : ∀ p s r s', walk p s = some (r, s') → Walked s r s')
    (h : walkAgain env walk n path s = some (flow, s')) : FlowOut s flow s' := by
  rw [walkAgain] at h
  obtain ⟨d, s₁, hopen, h⟩ := bind_some h
  cases d with
  | some k =>
    obtain ⟨rfl, hevents, hopened, hleft, -⟩ := dmOpendir_some hopen
    obtain ⟨flow₂, s₂, hloop, h⟩ := bind_some h
    have hflow := walkLoop_flow hwalk n s.opened s₁ s₂ flow₂ (by omega) hloop
    cases flow₂ with
    | next x =>
      obtain ⟨u, s₃, hclose, h⟩ := bind_some h
      rw [dmClosedir, Option.some.injEq, Prod.mk.injEq] at hclose
      obtain ⟨rfl, rfl⟩ := pure_some h
      obtain ⟨evs, hgoing, hevs⟩ := piece_of_next hevents hopened hleft hflow
      exact ⟨evs, hclose.2 ▸ hevs, hgoing⟩
    | abort d =>
      obtain ⟨rfl, rfl⟩ := pure_some h
      exact flowOut_of_abort hevents hopened hleft hflow
    | ret r =>
      obtain ⟨evs, -, hfalse⟩ := hflow
      exact hfalse.elim
  | none =>
    obtain ⟨c, go, hcall, rfl⟩ := cb_only_some h none
    exact FlowOut.before (dmOpendir_none hopen) Going.nil (FlowOut.call hcall (.inl rfl))

theorem directoryDone_flow (h : directoryDone env path s = some (flow, s')) :
    FlowOut s flow s' := by
  rw [directoryDone] at h
  obtain ⟨c, go, hcall, rfl⟩ := cb_only_some h none
  exact FlowOut.call hcall (.inr rfl)

/-- The first loop has come to the end of the directory. -/
theorem closeAndDescend_flow (hwalk : ∀ p s r s', walk p s = some (r, s') → Walked s r s')
    {hasdirs : Bool} {s₂ : State S} (hevents : s₁.events = s.events ++ [.opened s.opened])
    (hopened : s₁.opened = s.opened + 1) (hleft : ∀ h, h < s.opened → s₁.left h = s.left h)
    (hloop : FlowIn s.opened s₁ (.next x) s₂)
    (h : closeAndDescend env recursive walk n path s.opened hasdirs s₂ = some (flow, s')) :
    FlowOut s flow s' := by
  -- `SAFE_CLOSEDIR`: behind it no handle is open, and `d` is `NULL`
  obtain ⟨evs, hgoing, hpiece⟩ := piece_of_next hevents hopened hleft hloop
  rw [closeAndDescend] at h
  obtain ⟨u, s₃, hclose, h⟩ := bind_some h
  rw [dmClosedir, Option.some.injEq, Prod.mk.injEq] at hclose
  rw [hclose.2] at hpiece
  refine FlowOut.before hpiece hgoing ?_
  obtain ⟨go, s₄, hcb, h⟩ := bind_some h
  obtain ⟨c, hcall, -⟩ := cb_piece hcb none
  cases go with
  | false =>
    obtain ⟨rfl, rfl⟩ := pure_some h
    exact FlowOut.call hcall (.inr rfl)
  | true =>
    refine FlowOut.before hcall (going_single (by simp)) ?_
    simp only [Bool.not_true, Bool.false_eq_true, if_false] at h
    split at h
    · obtain ⟨flow₂, s₅, hagain, h⟩ := bind_some h
      have hflow := walkAgain_flow hwalk hagain
      cases flow₂ with
      | next y =>
        obtain ⟨evs', hpiece', hgoing'⟩ := hflow
        exact FlowOut.before hpiece' hgoing' (directoryDone_flow h)
      | abort d =>
        obtain ⟨rfl, rfl⟩ := pure_some h
        exact hflow
      | ret r =>
        obtain ⟨rfl, rfl⟩ := pure_some h
        exact hflow
    · exact directoryDone_flow h

/-- The function up to the label `abort`. -/
theorem walkBody_flow (hwalk : ∀ p s r s', walk p s = some (r, s') → Walked s r s')
    (h : walkBody env pattern recursive walk n path s = some (flow, s')) : FlowOut s flow s' := by
  rw [walkBody] at h
  obtain ⟨hasdirs, s₁, hhasdirs, h⟩ := bind_some h
  rw [hasdirsOf, Option.some.injEq, Prod.mk.injEq] at hhasdirs
  have hsys : Piece none s s₁ [] := by
    rw [← hhasdirs.2]
    exact Piece.sys none s _
  refine FlowOut.before hsys Going.nil ?_
  obtain ⟨d, s₂, hopen, h⟩ := bind_some h
  cases d with
  | some k =>
    obtain ⟨rfl, hevents, hopened, hleft, -⟩ := dmOpendir_some hopen
    simp only [walkOpened] at h
    obtain ⟨go, s₃, hcb, h⟩ := bind_some h
    obtain ⟨c, hcall, -⟩ := cb_piece hcb (some s₁.opened)
    cases go with
    | false =>
      obtain ⟨rfl, rfl⟩ := pure_some h
      exact flowOut_of_abort hevents hopened hleft (FlowIn.call hcall ())
    | true =>
      obtain ⟨flow₂, s₄, hloop, h⟩ := bind_some h
      have hflow := FlowIn.before hcall (going_single (by simp))
        (readLoop_flow pattern path n s₁.opened hasdirs s₃ s₄ flow₂ hloop)
      cases flow₂ with
      | next hasdirs => exact closeAndDescend_flow recursive hwalk hevents hopened hleft hflow h
      | abort d =>
        obtain ⟨rfl, rfl⟩ := pure_some h
        exact flowOut_of_abort hevents hopened hleft hflow
      | ret r =>
        obtain ⟨evs, -, hfalse⟩ := hflow
        exact hfalse.elim
  | none =>
    obtain ⟨c, go, hcall, rfl⟩ := cb_only_some h none
    exact FlowOut.before (dmOpendir_none hopen) Going.nil (FlowOut.call hcall (.inl rfl))

/-- The last thing that a call does. -/
theorem leave_walked {r r' : Bool} (hpiece : Piece none s s' evs)
    (hevs : if r then Going evs else Stopped evs) (h : leave r s' = some (r', s'')) :
    Walked s r' s'' := by
  rw [leave, Option.some.injEq, Prod.mk.injEq] at h
  obtain ⟨rfl, rfl⟩ := h
  have hlast : Piece none s' { s' with events := s'.events ++ [.returned r] } [.returned r] :=
    ⟨rfl, Nat.le_refl _, Tidy.other rfl _ _, fun _ _ _ => rfl⟩
  refine ⟨_, hpiece.trans hlast, ?_⟩
  cases r with
  | true => exact Going.append hevs (going_single (by simp))
  | false => exact Stopped.quiet hevs quiet_returned

/-- The label `abort` closes the directory that is open. -/
theorem walked_of_flow {r : Bool} (hflow : FlowOut s flow s')
    (h : atAbort flow s' = some (r, s'')) : Walked s r s'' := by
  obtain ⟨evs, hflow⟩ := hflow
  cases flow with
  | next x => exact leave_walked (r := true) hflow.1 hflow.2 h
  | ret r =>
    -- the two places that return 0 have nothing open
    obtain ⟨rfl, hpiece, hstopped⟩ := hflow
    exact leave_walked (r := false) hpiece hstopped h
  | abort d =>
    cases d with
    | none => exact leave_walked (r := false) hflow.1 hflow.2 h
    | some k =>
      obtain ⟨u, s₁, hclose, h⟩ := bind_some h
      rw [dmClosedir, Option.some.injEq, Prod.mk.injEq] at hclose
      obtain ⟨hpiece, hstopped⟩ := hflow
      rw [hclose.2] at hpiece
      exact leave_walked (r := false) hpiece (hstopped.quiet (quiet_closed k)) h

/-- Every walk that comes to its end has closed what it opened, and returns 0 only if the callback
has; then nothing was called any more. -/
theorem actualWalkdir_walked (n : Nat) :
    ∀ (path : Path) (s : State S) (r : Bool) (s' : State S),
      cmnFsActualWalkdir env pattern recursive n path s = some (r, s') → Walked s r s' := by
  induction n with
  | zero =>
    intro path s r s' h
    cases h
  | succ n ih =>
    intro path s r s' h
    rw [cmnFsActualWalkdir] at h
    obtain ⟨flow, s₁, hbody, h⟩ := bind_some h
    exact walked_of_flow (walkBody_flow pattern recursive ih hbody) h

end Function

end Alcor.Proofs.Shell.Walker
