import Alcor.Lua.Dump
import Alcor.Proofs.Lua.RoundTrip

/-!
# `Alcor.Proofs.Lua.Plan`: how a dump ends

A dump goes through the steps of its plan. As long as nothing fails it
does all of them. The first error sets the status; from there no byte is
written, so that the remaining steps only matter if one of them is an
`Align4`: it waits for a number of bytes that does not change any more.

* `exec_function` and the lemmas before it: a dump executes the steps of
  its plan. `dump_eq_walk` says what comes of that: the blocks that were
  written and the status.
* `dump_of_quiet` and `dump_of_first`: a dump without an error, and one
  from its first error.
* `endsAndReports_iff`: a dump ends and reports what goes wrong exactly
  if its first error is aligned and overflows are noticed.
* `not_always_endsAndReports` is a dump that does not end.
-/

set_option autoImplicit false

namespace Alcor.Proofs.Lua

open Lib
open Alcor.Lua

variable {pre post steps q : List Step} {e : Step}

/-! ### The functions of the dumper, step by step -/

section Exec
variable (D : Dumper)

def execStep : Step → DumpM Unit
  | .block b        => dumpBlock D b
  | .align          => dumpAlign4 D 4
  | .error status _ => setStatus status
  | .overflow       => pure ()

def exec : List Step → DumpM Unit
  | []            => pure ()
  | step :: steps => do
      execStep D step
      exec steps

variable {D}

@[simp] theorem exec_nil : exec D [] = pure () := rfl

@[simp] theorem exec_cons (step : Step) (steps : List Step) :
    exec D (step :: steps) = execStep D step >>= fun _ => exec D steps := rfl

@[simp] theorem exec_append (steps steps' : List Step) :
    exec D (steps ++ steps') = exec D steps >>= fun _ => exec D steps' := by
  induction steps with
  | nil => simp
  | cons step steps ih => simp [ih]

theorem exec_flatMap {α : Type} (xs : List α) (steps : α → List Step) :
    exec D (xs.flatMap steps) = xs.forM fun x => exec D (steps x) := by
  induction xs with
  | nil => rfl
  | cons x xs ih => simp [ih]

/-- An error that is recorded if a value is refused. -/
theorem exec_refused (refused : Prop) [Decidable refused] (e : Step) (next : DumpM Unit) :
    (exec D (if refused then [e] else []) >>= fun _ => next) =
      if refused then execStep D e >>= fun _ => next else next := by
  split <;> simp

theorem exec_bounds (outside : Prop) [Decidable outside] (next : DumpM Unit) :
    (exec D (boundsSteps outside) >>= fun _ => next) =
      if outside then setStatus LUA_ERR_CC_INTOVERFLOW >>= fun _ => next else next := by
  by_cases h : outside <;> simp [boundsSteps, h, execStep]

theorem exec_int (x : Int) (w : Nat) : exec D (intSteps D x w) = dumpIntWithSize D x w := by
  unfold intSteps dumpIntWithSize
  split <;> simp [exec_bounds, execStep, wordStep, dumpChar, dumpWord, -Bool.decide_or]

theorem exec_count (x : Int) : exec D (countSteps D x) = dumpInt D x := exec_int x _

theorem exec_size (x : Nat) : exec D (sizeSteps D x) = dumpSize D x := by
  unfold sizeSteps dumpSize
  generalize D.target.sizeofStrsizeT = w
  split <;> simp [exec_bounds, execStep, wordStep, dumpChar, dumpWord]

theorem exec_number (x : Number) : exec D (numberSteps D x) = dumpNumber D x := by
  unfold numberSteps dumpNumber
  split
  · cases x with
    | int x =>
      simp only [exec_append, exec_refused, exec_int]
      rfl
    | float bits => simp [execStep]
  · generalize D.target.sizeofLuaNumber = w
    split
    · -- the overflow of a `float` is not noticed
      cases hoverflow : x.overflowsFloat <;> simp [execStep, wordStep, dumpWord]
    · simp [execStep]
    · simp

theorem exec_string (s : Option TString) : exec D (stringSteps D s) = dumpString D s := by
  cases s with
  | none => exact exec_size 0
  | some s =>
    simp only [stringSteps, dumpString]
    cases hoverflow : sizeOverflows D s <;> simp [execStep, exec_size]

theorem exec_constant (o : TValue) : exec D (constantSteps D o) = dumpConstant D o := by
  cases o with
  | nil => simp [constantSteps, dumpConstant, execStep, dumpChar]
  | boolean b => simp [constantSteps, dumpConstant, execStep, dumpChar]
  | number x => simp [constantSteps, dumpConstant, execStep, dumpChar, exec_number]
  | string s => simp [constantSteps, dumpConstant, execStep, dumpChar, exec_string]

theorem exec_code (f : Proto) : exec D (codeSteps D f) = dumpCode D f := by
  simp [codeSteps, dumpCode, execStep, exec_count, exec_flatMap, wordStep, dumpWord]

theorem exec_locVar (v : LocVar) : exec D (locVarSteps D v) = dumpLocVar D v := by
  simp [locVarSteps, dumpLocVar, exec_string, exec_count]

theorem exec_debug (f : Proto) : exec D (debugSteps D f) = dumpDebug D f := by
  simp [debugSteps, dumpDebug, execStep, exec_count, exec_flatMap, exec_locVar, exec_string]

mutual

theorem exec_function : ∀ (f : Proto) (p : Option TString),
    exec D (functionSteps D f p) = dumpFunction D f p
  | ⟨_, _, _, _, _, _, _, _, _, inner, _, _, _⟩, p => by
    simp [functionSteps, dumpFunction, dumpConstants, execStep, dumpChar, exec_string,
      exec_count, exec_code, exec_flatMap, exec_constant, exec_debug,
      exec_functions inner]

theorem exec_functions : ∀ (fs : List Proto) (p : Option TString),
    exec D (functionsSteps D fs p) = dumpFunctions D fs p
  | [],      p => by simp [functionsSteps, dumpFunctions]
  | f :: fs, p => by
    simp [functionsSteps, dumpFunctions, exec_function f, exec_functions fs]

end

end Exec

/-! ### The status and the blocks -/

section Walk
variable (writer : List (List UInt8) → List UInt8 → Int)

/-- A step on the status and the blocks written. -/
def walkStep : Int × List (List UInt8) → Step → Option (Int × List (List UInt8))
  | (status, bs), .block b =>
    some (if status = 0 then (writer bs b, bs ++ [b]) else (status, bs))
  | (status, bs), .align => if bs.flatten.length % 4 = 0 then some (status, bs) else none
  | (_, bs), .error status _ => some (status, bs)
  | c, .overflow => some c

/-- The steps of a plan. -/
def walk (c : Int × List (List UInt8)) (steps : List Step) :
    Option (Int × List (List UInt8)) :=
  steps.foldlM (walkStep writer) c

variable {writer}

@[simp] theorem walk_nil (c : Int × List (List UInt8)) : walk writer c [] = some c := rfl

@[simp] theorem walk_cons (c : Int × List (List UInt8)) (step : Step) (steps : List Step) :
    walk writer c (step :: steps) =
      (walkStep writer c step).bind fun c => walk writer c steps := by
  simp [walk]

theorem walk_append (c : Int × List (List UInt8)) (steps steps' : List Step) :
    walk writer c (steps ++ steps') =
      (walk writer c steps).bind fun c => walk writer c steps' := by
  simp [walk]

/-- Nothing is aligned in these steps, or the blocks are. -/
def Harmless (bs : List (List UInt8)) (steps : List Step) : Prop :=
  bs.flatten.length % 4 = 0 ∨ .align ∉ steps

/-- After an error the steps keep the blocks, and `Align4` ends only if they are aligned. -/
theorem walk_failed (bs : List (List UInt8)) (steps : List Step)
    (writer : List (List UInt8) → List UInt8 → Int) :
    ∀ status : Int, status ≠ 0 →
      (Harmless bs steps ∧
          ∃ status', status' ≠ 0 ∧ walk writer (status, bs) steps = some (status', bs)) ∨
        (¬ Harmless bs steps ∧ walk writer (status, bs) steps = none) := by
  induction steps with
  | nil => exact fun status hstatus => .inl ⟨.inr List.not_mem_nil, status, hstatus, rfl⟩
  | cons step steps ih =>
    intro status hstatus
    -- a step that is no `Align4` changes at most the status
    have hnext (status' : Int) (hstatus' : status' ≠ 0) (hstep : step ≠ .align)
        (hsome : walkStep writer (status, bs) step = some (status', bs)) :
        (Harmless bs (step :: steps) ∧ ∃ status', status' ≠ 0 ∧
            walk writer (status, bs) (step :: steps) = some (status', bs)) ∨
          (¬ Harmless bs (step :: steps) ∧
            walk writer (status, bs) (step :: steps) = none) := by
      have hiff : Harmless bs (step :: steps) ↔ Harmless bs steps := by
        simp [Harmless, Ne.symm hstep]
      rw [walk_cons, hsome, Option.bind_some, hiff]
      exact ih status' hstatus'
    cases step with
    | block b => exact hnext status hstatus (by simp) (by simp [walkStep, hstatus])
    | error e he => exact hnext e he (by simp) rfl
    | overflow => exact hnext status hstatus (by simp) rfl
    | align =>
      by_cases hbytes : bs.flatten.length % 4 = 0
      · rw [walk_cons, walkStep, if_pos hbytes, Option.bind_some]
        obtain ⟨-, h⟩ | ⟨hnot, -⟩ := ih status hstatus
        · exact .inl ⟨.inl hbytes, h⟩
        · exact absurd (.inl hbytes) hnot
      · -- the loop of `Align4` waits for bytes that are no longer counted
        refine .inr ⟨by simpa [Harmless] using hbytes, ?_⟩
        rw [walk_cons, walkStep, if_neg hbytes, Option.bind_none]

/-! ### The dumper takes the steps of the plan -/

/-- The offset counts the bytes of the blocks. -/
def Counted (s : DumpState) : Prop := s.wrote = s.blocks.flatten.length

/-- What the plan is about. -/
def core (s : DumpState) : Int × List (List UInt8) := (s.status, s.blocks)

/-- From `n` bytes, unless it has failed, the dumper takes these steps to `n'` bytes. -/
def Takes (D : Dumper) (n : Nat) (m : DumpM Unit) (steps : List Step) (n' : Nat) : Prop :=
  ∀ s, Counted s → (s.status = 0 → s.wrote = n) →
    (m s = none ∧ walk D.writer (core s) steps = none) ∨
      ∃ s', m s = some ((), s') ∧ walk D.writer (core s) steps = some (core s') ∧
        Counted s' ∧ (s'.status = 0 → s'.wrote = n')

variable {D : Dumper}

theorem takes_nil (n : Nat) : Takes D n (pure ()) [] n :=
  fun s hs hn => .inr ⟨s, rfl, rfl, hs, hn⟩

theorem Takes.bind {n n' n'' : Nat} {m m' : DumpM Unit} {steps' : List Step}
    (h : Takes D n m steps n') (h' : Takes D n' m' steps' n'') :
    Takes D n (m >>= fun _ => m') (steps ++ steps') n'' := by
  intro s hs hn
  have hbind : (m >>= fun _ => m') s = (m s).bind fun r => m' r.2 := rfl
  rw [walk_append, hbind]
  obtain ⟨hm, hwalk⟩ | ⟨s', hm, hwalk, hs', hn'⟩ := h s hs hn
  · exact .inl ⟨by rw [hm]; rfl, by rw [hwalk]; rfl⟩
  · rw [hm, hwalk]
    exact h' s' hs' hn'

theorem takes_block (n : Nat) (b : List UInt8) :
    Takes D n (dumpBlock D b) [.block b] (n + b.length) := by
  intro s hs hn
  refine .inr ⟨_, rfl, ?_, ?_, ?_⟩ <;> by_cases hstatus : s.status = 0
  · simp [walkStep, core, hstatus]
  · simp [walkStep, core, hstatus]
  · simpa [hstatus, Counted] using hs
  · simpa [hstatus] using hs
  · simp [hstatus, hn hstatus]
  · simp [hstatus]

theorem takes_error (n : Nat) {status : Int} (hstatus : status ≠ 0) :
    Takes D n (setStatus status) [.error status hstatus] n :=
  fun _ hs _ => .inr ⟨_, rfl, rfl, hs, fun h => absurd h hstatus⟩

theorem takes_overflow (n : Nat) : Takes D n (pure ()) [.overflow] n :=
  fun s hs hn => .inr ⟨s, rfl, rfl, hs, hn⟩

/-- After an error the loop of `Align4` changes nothing. -/
theorem dumpAlign4_failed {s : DumpState} (hstatus : s.status ≠ 0) (m : Nat) :
    dumpAlign4 D (m + 1) s = if s.wrote % 4 ≠ 0 then none else some ((), s) := by
  induction m with
  | zero =>
    rw [dumpAlign4_succ]
    split <;> rfl
  | succ m ih =>
    rw [dumpAlign4_succ]
    split
    · next hne =>
        have hpadding : dumpPadding D s = some ((), s) := by
          simp [dumpPadding, dumpChar, dumpBlock, modify, modifyGet, MonadStateOf.modifyGet,
            StateT.modifyGet, bind, StateT.bind, pure, hstatus]
        rw [if_pos hne] at ih
        simp only [bind, StateT.bind]
        rw [hpadding]
        exact ih
    · rfl

theorem padding_failed {s : DumpState} (hs : Counted s) (hstatus : s.status ≠ 0) (m k n' : Nat) :
    (dumpAlign4 D (m + 1) s = none ∧
        walk D.writer (core s) (List.replicate k (.block [0]) ++ [.align]) = none) ∨
      ∃ s', dumpAlign4 D (m + 1) s = some ((), s') ∧
        walk D.writer (core s) (List.replicate k (.block [0]) ++ [.align]) = some (core s') ∧
        Counted s' ∧ (s'.status = 0 → s'.wrote = n') := by
  have hblocks : walk D.writer (core s) (List.replicate k (.block [0])) = some (core s) := by
    induction k with
    | zero => rfl
    | succ k ih => simpa [List.replicate_succ, walkStep, core, hstatus] using ih
  rw [dumpAlign4_failed hstatus, walk_append, hblocks]
  by_cases hbytes : s.wrote % 4 = 0
  · refine .inr ⟨s, by simp [hbytes], ?_, hs, fun h => absurd h hstatus⟩
    simp only [Option.bind_some, walk_cons, walk_nil, core, walkStep]
    rw [← hs, if_pos hbytes, Option.bind_some]
  · refine .inl ⟨by simp [hbytes], ?_⟩
    simp only [Option.bind_some, walk_cons, walk_nil, core, walkStep]
    rw [← hs, if_neg hbytes, Option.bind_none]

/-- The loop of `Align4`: it writes as many zero bytes as are missing. -/
theorem takes_padding (k : Nat) : ∀ m n, k < m → k = (4 - n % 4) % 4 →
    Takes D n (dumpAlign4 D m) (List.replicate k (.block [0]) ++ [.align]) (n + k) := by
  induction k with
  | zero =>
    rintro (_ | m) n hm hk s hs hn
    · cases hm
    by_cases hstatus : s.status = 0
    · have hbytes : s.wrote % 4 = 0 := by
        rw [hn hstatus]
        omega
      refine .inr ⟨s, ?_, ?_, hs, hn⟩
      · rw [dumpAlign4_succ, if_neg (not_not.mpr hbytes)]
      · simp only [List.replicate_zero, List.nil_append, walk_cons, walk_nil, core, walkStep]
        rw [← hs, if_pos hbytes, Option.bind_some]
    · exact padding_failed hs hstatus m 0 n
  | succ k ih =>
    rintro (_ | m) n hm hk s hs hn
    · cases hm
    by_cases hstatus : s.status = 0
    · -- one byte of padding, and the rest of the loop from the next offset
      have hbytes : s.wrote % 4 ≠ 0 := by
        rw [hn hstatus]
        omega
      have hnext := (takes_block n [0]).bind
        (ih m (n + 1) (Nat.lt_of_succ_lt_succ hm) (by omega))
        { s with padded := s.padded ++ [s.wrote] } hs hn
      have hpad : (dumpPadding D >>= fun _ => dumpAlign4 D m) s =
          (dumpBlock D [0] >>= fun _ => dumpAlign4 D m)
            { s with padded := s.padded ++ [s.wrote] } := by
        show (dumpBlock D [0] >>= fun _ => dumpAlign4 D m)
          { s with padded := if s.status = 0 then s.padded ++ [s.wrote] else s.padded } = _
        rw [if_pos hstatus]
      rw [dumpAlign4_succ, if_pos hbytes, hpad, List.replicate_succ, List.cons_append,
        show n + (k + 1) = n + 1 + k by omega]
      exact hnext
    · exact padding_failed hs hstatus m (k + 1) _

/-- Every step list is taken as `laidOut` says. -/
theorem takes_laidOut (steps : List Step) :
    ∀ n, ∃ n', Takes D n (exec D steps) (laidOut n steps) n' := by
  induction steps with
  | nil => exact fun n => ⟨n, takes_nil n⟩
  | cons step steps ih =>
    intro n
    cases step with
    | block b =>
      obtain ⟨n', h⟩ := ih (n + b.length)
      exact ⟨n', (takes_block n b).bind h⟩
    | align =>
      obtain ⟨n', h⟩ := ih (n + (4 - n % 4) % 4)
      exact ⟨n', (takes_padding _ 4 n (by omega) rfl).bind h⟩
    | error status hstatus =>
      obtain ⟨n', h⟩ := ih n
      exact ⟨n', (takes_error n hstatus).bind h⟩
    | overflow =>
      obtain ⟨n', h⟩ := ih n
      exact ⟨n', (takes_overflow n).bind h⟩

/-- A dump, without its offset and the places of the padding, is a walk through its plan. -/
theorem dump_eq_walk (f : Proto) :
    (luaUDumpCrosscompile D f).map core = walk D.writer (0, []) (dumpPlan D f) := by
  have hexec : (do dumpHeader D; dumpFunction D f none : DumpM Unit) =
      exec D (headerStep D :: functionSteps D f none) := by
    rw [exec_cons, exec_function]
    rfl
  obtain ⟨n', h⟩ := takes_laidOut (D := D) (headerStep D :: functionSteps D f none) 0
  rw [luaUDumpCrosscompile, hexec]
  show ((exec D (headerStep D :: functionSteps D f none) {}).map (·.2)).map core =
    walk D.writer (core {}) (laidOut 0 (headerStep D :: functionSteps D f none))
  obtain ⟨hrun, hwalk⟩ | ⟨s', hrun, hwalk, -⟩ := h {} rfl fun _ => rfl
  · rw [hrun, hwalk]
    rfl
  · rw [hrun, hwalk]
    rfl

/-! ### The first error -/

/-- Behind `n` bytes every `Align4` of the steps finds them aligned, if none fails. -/
def Aligned : Nat → List Step → Prop
  | _, []                => True
  | n, .block b :: steps => Aligned (n + b.length) steps
  | n, .align :: steps   => n % 4 = 0 ∧ Aligned n steps
  | n, .error _ _ :: steps => Aligned n steps
  | n, .overflow :: steps => Aligned n steps

theorem blocksOf_append (steps steps' : List Step) :
    blocksOf (steps ++ steps') = blocksOf steps ++ blocksOf steps' := by
  induction steps with
  | nil => rfl
  | cons step steps ih => cases step <;> simp [blocksOf, ih]

theorem aligned_append (steps steps' : List Step) :
    ∀ n, Aligned n (steps ++ steps') ↔ Aligned n steps ∧ Aligned (n + bytesOf steps) steps' := by
  induction steps with
  | nil => simp [Aligned, bytesOf, blocksOf]
  | cons step steps ih =>
    intro n
    cases step <;> simp [Aligned, ih, bytesOf, blocksOf, and_assoc, Nat.add_assoc]

theorem aligned_padding (k : Nat) (n : Nat) :
    Aligned n (List.replicate k (.block [0]) ++ [.align]) ↔ (n + k) % 4 = 0 := by
  induction k generalizing n with
  | zero => simp [Aligned]
  | succ k ih =>
    rw [List.replicate_succ, List.cons_append, Aligned, ih, Nat.add_assoc, Nat.add_comm k 1]
    rfl

theorem bytesOf_padding (k : Nat) :
    bytesOf (List.replicate k (.block [0]) ++ [.align]) = k := by
  induction k with
  | zero => rfl
  | succ k ih =>
    rw [List.replicate_succ, List.cons_append, bytesOf, blocksOf, List.flatten_cons,
      List.length_append, ← bytesOf, ih, Nat.add_comm k 1]
    rfl

theorem aligned_laidOut (steps : List Step) : ∀ n, Aligned n (laidOut n steps) := by
  induction steps with
  | nil => exact fun _ => trivial
  | cons step steps ih =>
    intro n
    cases step with
    | block b => exact ih _
    | align =>
      rw [laidOut, paddingSteps, aligned_append, aligned_padding, bytesOf_padding]
      exact ⟨by omega, ih _⟩
    | error status h => exact ih n
    | overflow => exact ih n

/-- No error has been recorded in the steps before. -/
theorem quiet_of_append (h : Quiet D.writer (pre ++ post)) : Quiet D.writer pre :=
  fun l e r hpre => h l e (r ++ post) (by simp [hpre])

/-- Without an error all blocks are written. -/
theorem walk_quiet (steps : List Step) (hquiet : Quiet D.writer steps)
    (haligned : Aligned 0 steps) : walk D.writer (0, []) steps = some (0, blocksOf steps) := by
  induction steps using List.reverseRecOn with
  | nil => rfl
  | append_singleton steps step ih =>
    obtain ⟨hbefore, hstep⟩ := (aligned_append steps [step] 0).mp haligned
    rw [walk_append, ih (quiet_of_append hquiet) hbefore, Option.bind_some, walk_cons,
      blocksOf_append]
    have hrecords : ¬ Records D.writer steps step := hquiet steps step [] rfl
    cases step with
    | block b =>
      have hwriter : D.writer (blocksOf steps) b = 0 := not_not.mp hrecords
      simp [walkStep, hwriter, blocksOf]
    | align =>
      rw [Nat.zero_add] at hstep
      have hbytes : (blocksOf steps).flatten.length % 4 = 0 := hstep.1
      rw [walkStep, if_pos hbytes]
      simp [blocksOf]
    | error status h => exact absurd trivial hrecords
    | overflow => simp [walkStep, blocksOf]

/-- The step at which the first error is recorded. -/
theorem walk_first (hquiet : Quiet D.writer pre) (haligned : Aligned 0 pre)
    (he : Records D.writer pre e) (post : List Step) :
    ∃ status, status ≠ 0 ∧ walk D.writer (0, []) (pre ++ e :: post) =
      walk D.writer (status, blocksOf (pre ++ [e])) post := by
  rw [walk_append, walk_quiet pre hquiet haligned, Option.bind_some, walk_cons, blocksOf_append]
  cases e with
  | block b => exact ⟨_, he, rfl⟩
  | align => exact he.elim
  | error status h => exact ⟨status, h, by simp [walkStep, blocksOf]⟩
  | overflow => exact he.elim

/-- If an error is recorded there is a first one. -/
theorem quiet_or_first (steps : List Step) :
    Quiet D.writer steps ∨ ∃ pre e post, steps = pre ++ e :: post ∧ Quiet D.writer pre ∧
      Records D.writer pre e := by
  induction steps using List.reverseRecOn with
  | nil => exact .inl fun pre e post h => by simp at h
  | append_singleton steps step ih =>
    obtain hquiet | ⟨pre, e, post, rfl, hquiet, he⟩ := ih
    · by_cases hstep : Records D.writer steps step
      · exact .inr ⟨steps, step, [], rfl, hquiet, hstep⟩
      · -- a place in the longer list is the last one, or one of the list before
        refine .inl fun pre e post h => ?_
        obtain rfl | ⟨post', x, rfl⟩ := post.eq_nil_or_concat'
        · obtain ⟨rfl, hlast⟩ := List.append_inj' h rfl
          rw [List.singleton_inj] at hlast
          exact hlast ▸ hstep
        · rw [← List.cons_append, ← List.append_assoc] at h
          exact hquiet pre e post' (List.append_inj' h rfl).1
    · exact .inr ⟨pre, e, post ++ [step], by simp, hquiet, he⟩

/-- Two places in one list: the first is before, at or behind the second. -/
theorem place_cases {α : Type} {pre p post q : List α} {d e : α}
    (h : pre ++ d :: post = p ++ e :: q) :
    (∃ mid, p = pre ++ d :: mid ∧ post = mid ++ e :: q) ∨ (pre = p ∧ d = e ∧ post = q) ∨
      ∃ mid, pre = p ++ e :: mid ∧ q = mid ++ d :: post := by
  obtain ⟨l, rfl, hpost⟩ | ⟨l, rfl, hq⟩ := List.append_eq_append_iff.mp h
  · cases l with
    | nil =>
      obtain ⟨hd, hrest⟩ := List.cons.inj hpost
      exact .inr (.inl ⟨(List.append_nil _).symm, hd, hrest⟩)
    | cons x l =>
      obtain ⟨rfl, hrest⟩ := List.cons.inj hpost
      exact .inl ⟨l, rfl, hrest⟩
  · cases l with
    | nil =>
      obtain ⟨he, hrest⟩ := List.cons.inj hq
      exact .inr (.inl ⟨List.append_nil _, he.symm, hrest.symm⟩)
    | cons x l =>
      obtain ⟨rfl, hrest⟩ := List.cons.inj hq
      exact .inr (.inr ⟨l, rfl, hrest⟩)

/-- An error is recorded behind what is quiet. -/
theorem first_behind {p : List Step} {o : Step} (hpre : steps = pre ++ o :: post)
    (hp : steps = p ++ e :: q) (hquiet : Quiet D.writer pre) (he : Records D.writer p e)
    (ho : ¬ Records D.writer pre o) : ∃ mid, p = pre ++ o :: mid ∧ post = mid ++ e :: q := by
  obtain hbehind | ⟨rfl, rfl, -⟩ | ⟨mid, rfl, -⟩ := place_cases (hpre.symm.trans hp)
  · exact hbehind
  · exact absurd he ho
  · exact absurd he (hquiet p e mid rfl)

/-- The first error is at one place. -/
theorem first_unique {p : List Step} {d : Step} (hpre : steps = pre ++ d :: post)
    (hp : steps = p ++ e :: q) (hquiet : Quiet D.writer pre) (hquiet' : Quiet D.writer p)
    (hd : Records D.writer pre d) (he : Records D.writer p e) : pre = p ∧ d = e ∧ post = q := by
  obtain ⟨mid, rfl, -⟩ | hsame | ⟨mid, rfl, -⟩ := place_cases (hpre.symm.trans hp)
  · exact absurd hd (hquiet' pre d mid rfl)
  · exact hsame
  · exact absurd he (hquiet p e mid rfl)

end Walk

/-! ### The result -/

section Result
variable {D : Dumper} {f : Proto}

theorem aligned_before (h : dumpPlan D f = pre ++ e :: post) : Aligned 0 pre := by
  have haligned : Aligned 0 (dumpPlan D f) := aligned_laidOut _ 0
  rw [h, aligned_append] at haligned
  exact haligned.1

/-- What a dump has done in the end, from its first error. -/
theorem dump_of_first (hplan : dumpPlan D f = pre ++ e :: post) (hquiet : Quiet D.writer pre)
    (he : Records D.writer pre e) :
    (Harmless (blocksOf (pre ++ [e])) post ∧ ∃ s, luaUDumpCrosscompile D f = some s ∧
        s.status ≠ 0 ∧ s.blocks = blocksOf (pre ++ [e])) ∨
      (¬ Harmless (blocksOf (pre ++ [e])) post ∧ luaUDumpCrosscompile D f = none) := by
  obtain ⟨status, hstatus, hfirst⟩ := walk_first hquiet (aligned_before hplan) he post
  have hwalk := dump_eq_walk (D := D) f
  rw [hplan, hfirst] at hwalk
  obtain ⟨hcond, status', hstatus', hsome⟩ | ⟨hcond, hnone⟩ :=
    walk_failed (blocksOf (pre ++ [e])) post D.writer status hstatus
  · rw [hsome, Option.map_eq_some_iff] at hwalk
    obtain ⟨s, hs, hcore⟩ := hwalk
    obtain ⟨rfl, hblocks⟩ := Prod.mk.inj hcore
    exact .inl ⟨hcond, s, hs, hstatus', hblocks⟩
  · rw [hnone, Option.map_eq_none_iff] at hwalk
    exact .inr ⟨hcond, hwalk⟩

/-- Without an error everything is written. -/
theorem dump_of_quiet (hquiet : Quiet D.writer (dumpPlan D f)) :
    ∃ s, luaUDumpCrosscompile D f = some s ∧ s.status = 0 ∧ s.blocks = blocksOf (dumpPlan D f) := by
  have hwalk := dump_eq_walk (D := D) f
  rw [walk_quiet _ hquiet (aligned_laidOut _ 0), Option.map_eq_some_iff] at hwalk
  obtain ⟨s, hs, hcore⟩ := hwalk
  exact ⟨s, hs, Prod.mk.inj hcore⟩

theorem blocksOf_eq_nil_of_recorded (he : Records D.writer pre e) (hblocks : blocksOf [e] = []) :
    ∃ status h, e = .error status h := by
  cases e with
  | block b => cases hblocks
  | align => exact he.elim
  | error status h => exact ⟨status, h, rfl⟩
  | overflow => exact he.elim

/-- Up to the first error nothing is written if none is up to a later one. -/
theorem blocksOf_until {mid mid' : List Step} {status : Int} {h : status ≠ 0}
    (heq : mid' ++ e :: q = mid ++ .error status h :: post)
    (hquiet : Quiet D.writer (pre ++ mid')) (hmid : blocksOf mid = []) :
    blocksOf (mid' ++ [e]) = [] := by
  obtain ⟨l, rfl, -⟩ | ⟨rfl, rfl, -⟩ | ⟨l, rfl, -⟩ := place_cases heq
  · rw [List.append_cons, blocksOf_append, List.append_eq_nil_iff] at hmid
    exact hmid.1
  · rw [blocksOf_append, hmid]
    rfl
  · -- the error of `heq` would be before the first one
    rw [← List.append_assoc] at hquiet
    exact absurd trivial (hquiet _ _ l rfl)

/-- A dump ends and reports what goes wrong exactly if its first error
is aligned and overflows are noticed. Behind an error that is recorded
nothing is written any more, so that the loop for the alignment waits
for ever. -/
theorem endsAndReports_iff (D : Dumper) (f : Proto) :
    EndsAndReports D f ↔ ErrorAligned D f ∧ OverflowNoticed D f := by
  constructor
  · rintro ⟨s, hs, hreports⟩
    have haligned : ErrorAligned D f := by
      intro pre e post hplan hquiet he
      obtain ⟨hcond, -⟩ | ⟨-, hnone⟩ := dump_of_first hplan hquiet he
      · exact hcond
      · rw [hs] at hnone
        cases hnone
    refine ⟨haligned, fun pre post hplan hquiet => ?_⟩
    obtain ⟨hstatus, hblocks⟩ := hreports pre .overflow post hplan hquiet (.inr rfl)
    -- the status comes from an error behind the overflow, and no block was written until then
    obtain hall | ⟨p, e, q, hplan', hquiet', he⟩ := quiet_or_first (D := D) (dumpPlan D f)
    · obtain ⟨s', hs', hzero, -⟩ := dump_of_quiet hall
      rw [hs, Option.some.injEq] at hs'
      exact absurd (hs' ▸ hzero) hstatus
    · obtain ⟨mid, rfl, rfl⟩ := first_behind hplan hplan' hquiet he id
      obtain ⟨-, s', hs', -, hblocks'⟩ | ⟨-, hnone⟩ := dump_of_first hplan' hquiet' he
      · rw [hs, Option.some.injEq] at hs'
        subst hs'
        rw [hblocks] at hblocks'
        simp only [blocksOf_append, blocksOf, List.append_assoc, List.append_nil,
          List.self_eq_append_right, List.append_eq_nil_iff] at hblocks'
        obtain ⟨status, h, rfl⟩ := blocksOf_eq_nil_of_recorded he hblocks'.2
        exact ⟨mid, status, h, q, rfl, hblocks'.1⟩
      · rw [hs] at hnone
        cases hnone
  · rintro ⟨haligned, hnoticed⟩
    -- without an error there is no overflow either, else the first error is what ends the dump
    obtain hall | ⟨p, e, q, hplan, hquiet, he⟩ := quiet_or_first (D := D) (dumpPlan D f)
    · obtain ⟨s, hs, -⟩ := dump_of_quiet hall
      refine ⟨s, hs, fun pre e post hplan hquiet he => ?_⟩
      obtain he | rfl := he
      · exact absurd he (hall pre e post hplan)
      · obtain ⟨mid, status, h, post', rfl, -⟩ := hnoticed pre post hplan hquiet
        exact absurd trivial
          (hall (pre ++ .overflow :: mid) (.error status h) post' (by simp [hplan]))
    · obtain ⟨-, s, hs, hstatus, hblocks⟩ | ⟨hcond, -⟩ := dump_of_first hplan hquiet he
      · refine ⟨s, hs, fun pre e' post hplan' hquiet' he' => ⟨hstatus, ?_⟩⟩
        obtain he' | rfl := he'
        · obtain ⟨rfl, rfl, -⟩ := first_unique hplan' hplan hquiet' hquiet he' he
          exact hblocks
        · -- an overflow before the first error: nothing is written between the two
          obtain ⟨mid', rfl, rfl⟩ := first_behind hplan' hplan hquiet' he id
          obtain ⟨mid, status, h, post', heq, hmid⟩ := hnoticed pre _ hplan' hquiet'
          rw [List.append_cons] at hquiet
          have huntil : blocksOf (mid' ++ [e]) = [] := blocksOf_until heq hquiet hmid
          have hsplit : s.blocks = blocksOf (pre ++ [.overflow] ++ (mid' ++ [e])) := by
            simpa using hblocks
          rw [hsplit, blocksOf_append, huntil, List.append_nil]
      · exact absurd (haligned p e q hplan hquiet he) hcond

/-- A constant that is not an integer, for a target with integers: the status is set behind the
type of the constant, and the padding of the line information never ends. -/
theorem not_always_endsAndReports : ¬ ∀ D f, EndsAndReports D f := by
  intro h
  obtain ⟨s, hs, -⟩ := h
    { writer := fun _ _ => 0
      strip := false
      target := ⟨true, 4, 4, 4, true, false⟩
      platformLittleEndian := true }
    { source := none
      linedefined := 0
      lastlinedefined := 0
      nups := 0
      numparams := 0
      isVararg := 0
      maxstacksize := 2
      code := [0x1E]
      k := [.number (.float 0x3FF8000000000000)]
      p := []
      lineinfo := [1]
      locvars := []
      upvalues := [] }
  have hnone : _ = false := congrArg Option.isNone hs
  revert hnone
  decide

end Result

end Alcor.Proofs.Lua
