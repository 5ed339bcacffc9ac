import Mathlib.Algebra.Group.Nat.Defs
import Alcor.Lib.Run
import Mathlib.Logic.Function.Basic

/-!
# `Alcor.Interrupts.Queue`: the queue of Lua interrupts

`src/elua_int.c`: an interrupt handler in C queues interrupts with
`elua_int_add` and sets a count hook of the Lua VM, and the hook takes
one interrupt from the queue and calls the Lua function registered for
it. An id of 0 marks an empty slot. The hook removes itself when the
next slot is empty, but a Lua function that raises an error leaves the
hook by a `longjmp` before it gets there.

The hook is modelled step by step, since an interrupt may come at any
point of it. While it calls a Lua function, that function may register
other ones. A handler is registered and its interrupt enabled by
`cpu.set_int_handler` (`src/modules/cpu.c`), the only caller of
`elua_int_enable` and `elua_int_disable`.

Beside the variables stands what happened: the interrupts that were
accepted, those that left the queue, what became of them, and all
calls of `elua_int_add`.
-/

set_option autoImplicit false

namespace Alcor.Interrupts

def ELUA_INT_EMPTY_SLOT : UInt8 := 0
def ELUA_INT_FIRST_ID : UInt8 := 1
def LUA_INT_MAX_SOURCES : Nat := 128

/-- `elua_int_element`. -/
structure Element where
  /-- `elua_int_id`. -/
  id : UInt8
  /-- `elua_int_resnum`. -/
  resnum : UInt16
  deriving DecidableEq, Repr

/-- The platform. -/
structure Platform where
  /-- `PLATFORM_INT_QUEUE_LOG_SIZE`; the indices are 8 bits wide. -/
  logSize : Nat
  /-- `INT_ELUA_LAST`. -/
  last : UInt8
  logSize_le : logSize ≤ 8
  last_lt : last.toNat < LUA_INT_MAX_SOURCES

/-- The number of slots. -/
def Platform.capacity (pf : Platform) : Nat := 2 ^ pf.logSize

/-- A Lua function. -/
abbrev Handler := Nat

/-- Where the hook stands. -/
inductive HookPhase where
  /-- Not called. -/
  | idle
  /-- `crt` is copied from its slot. -/
  | fetched (crt : Element)
  /-- The slot is marked empty. -/
  | emptied (crt : Element)
  /-- The read index has moved on. -/
  | advanced (crt : Element)
  /-- The Lua function runs. -/
  | calling
  /-- Before the test of the next slot. -/
  | finishing
  deriving DecidableEq

/-- What became of an interrupt that left the queue. -/
structure Outcome where
  /-- The interrupt. -/
  crt : Element
  /-- Whether it was enabled then. -/
  enabled : Bool
  /-- The function registered then. -/
  registered : Option Handler
  /-- The function that was called. -/
  called : Option Handler
  deriving DecidableEq

/-- A call of `elua_int_add`. -/
structure Attempt where
  /-- It returned `PLATFORM_OK`. -/
  ok : Bool
  /-- The id is one of an interrupt. -/
  valid : Bool
  /-- There was a Lua state. -/
  running : Bool
  /-- The interrupt was enabled. -/
  enabled : Bool
  /-- The number of entries in the queue. -/
  entries : Nat
  deriving DecidableEq

/-- The variables of the module and what happened so far. -/
structure Ints where
  /-- `elua_int_queue`. -/
  queue : Nat → Element := fun _ => ⟨ELUA_INT_EMPTY_SLOT, 0⟩
  /-- `elua_int_read_idx`. -/
  readIdx : Nat := 0
  /-- `elua_int_write_idx`. -/
  writeIdx : Nat := 0
  /-- `elua_int_flags`, bit by bit. -/
  flags : UInt8 → Bool := fun _ => false
  /-- The table at `LUA_INT_HANDLER_KEY`; `none` is nil. -/
  handlers : UInt8 → Option Handler := fun _ => none
  /-- `lua_getstate` is not `NULL`. -/
  luaState : Bool := true
  /-- The hook is set. -/
  hookSet : Bool := false
  /-- The hook under way. -/
  phase : HookPhase := .idle
  /-- The interrupts for which `elua_int_add` returned `PLATFORM_OK`. -/
  accepted : List Element := []
  /-- Those the hook took from the queue. -/
  dequeued : List Element := []
  /-- What became of them. -/
  outcomes : List Outcome := []
  /-- All calls of `elua_int_add`. -/
  attempts : List Attempt := []

/-- `elua_int_is_enabled`. -/
def eluaIntIsEnabled (s : Ints) (inttype : UInt8) : Bool :=
  decide (inttype.toNat < LUA_INT_MAX_SOURCES) && s.flags inttype

/-- The index behind `i`: `( i + 1 ) & INT_IDX_MASK`. -/
def nextIdx (pf : Platform) (i : Nat) : Nat := (i + 1) &&& (1 <<< pf.logSize - 1)

/-- `elua_int_add`: whether it returned `PLATFORM_OK`, and the variables. -/
def eluaIntAdd (pf : Platform) (s : Ints) (inttype : UInt8) (resnum : UInt16) : Bool × Ints :=
  if inttype < ELUA_INT_FIRST_ID ∨ inttype > pf.last then (false, s)
  else if ¬ s.luaState ∨ ¬ eluaIntIsEnabled s inttype then (false, s)
  else if (s.queue s.writeIdx).id ≠ ELUA_INT_EMPTY_SLOT then (false, s)
  else (true, { s with
    queue := Function.update s.queue s.writeIdx ⟨inttype, resnum⟩
    writeIdx := nextIdx pf s.writeIdx
    hookSet := true })

/-- `cpu_set_int_handler`: register a function and enable the interrupt, or unregister and
disable it. -/
def cpuSetIntHandler (s : Ints) (id : UInt8) (f : Option Handler) : Ints :=
  { s with
    flags := Function.update s.flags id f.isSome
    handlers := Function.update s.handlers id f }

/-- The next step of `elua_int_hook`, or a call of it by the VM while it is set. A Lua function
that was called is left by other events. -/
def hookStep (pf : Platform) (s : Ints) : Option Ints :=
  match s.phase with
  | .idle =>
    if s.hookSet then some { s with phase := .fetched (s.queue s.readIdx) } else none
  | .fetched crt =>
    some { s with
      queue := Function.update s.queue s.readIdx
        { s.queue s.readIdx with id := ELUA_INT_EMPTY_SLOT }
      phase := .emptied crt
      dequeued := s.dequeued ++ [crt] }
  | .emptied crt =>
    some { s with readIdx := nextIdx pf s.readIdx, phase := .advanced crt }
  | .advanced crt =>
    let f := if eluaIntIsEnabled s crt.id then s.handlers crt.id else none
    some { s with
      phase := if f.isSome then .calling else .finishing
      outcomes := s.outcomes ++
        [⟨crt, eluaIntIsEnabled s crt.id, s.handlers crt.id, f⟩] }
  | .calling => none
  | .finishing =>
    -- with interrupts disabled, so this is one step
    some { s with
      phase := .idle
      hookSet := if (s.queue s.readIdx).id = ELUA_INT_EMPTY_SLOT then false else s.hookSet }

/-- What happens next. -/
inductive Event where
  /-- An interrupt calls `elua_int_add`. -/
  | add (inttype : UInt8) (resnum : UInt16)
  /-- The hook is called, or goes on. -/
  | hook
  /-- The Lua function returns. -/
  | handlerReturns
  /-- The Lua function raises an error. -/
  | handlerRaises
  /-- The program, or the Lua function, calls `cpu.set_int_handler`. -/
  | setHandler (id : UInt8) (f : Option Handler)

/-- One event; `none` if it cannot happen. -/
def Ints.step (pf : Platform) (s : Ints) : Event → Option Ints
  | .add inttype resnum =>
    let (ok, s') := eluaIntAdd pf s inttype resnum
    some { s' with
      accepted := if ok then s.accepted ++ [⟨inttype, resnum⟩] else s.accepted
      attempts := s.attempts ++
        [⟨ok, decide (ELUA_INT_FIRST_ID ≤ inttype ∧ inttype ≤ pf.last), s.luaState,
          eluaIntIsEnabled s inttype, s.accepted.length - s.dequeued.length⟩] }
  | .hook => hookStep pf s
  | .handlerReturns => if s.phase = .calling then some { s with phase := .finishing } else none
  | .handlerRaises => if s.phase = .calling then some { s with phase := .idle } else none
  | .setHandler id f =>
    if ELUA_INT_FIRST_ID ≤ id ∧ id ≤ pf.last ∧ (s.phase = .idle ∨ s.phase = .calling) then
      some (cpuSetIntHandler s id f)
    else none

/-! ### What the queue is for -/

/-- The interrupt the hook has taken and not yet passed on. -/
def HookPhase.inHand : HookPhase → List Element
  | .emptied crt | .advanced crt => [crt]
  | _                            => []

/-- The interrupts leave the queue in the order in which they were accepted, each once, and no
slot that was not filled, and while some are left the hook is set; those passed on went to the
function registered then, or were dropped since they were disabled then. -/
structure Ints.Ordered (s : Ints) : Prop where
  queue : ∃ pending, s.accepted = s.dequeued ++ pending ∧ (pending ≠ [] → s.hookSet = true)
  outcomes : s.dequeued = s.outcomes.map (·.crt) ++ s.phase.inHand
  delivered : ∀ o ∈ s.outcomes,
    (o.enabled = true ∧ o.called = o.registered ∧ o.called ≠ none) ∨
    (o.enabled = false ∧ o.called = none)

/-- `elua_int_add` fails only when the queue is full. -/
def Ints.FailsOnlyFull (pf : Platform) (s : Ints) : Prop :=
  ∀ a ∈ s.attempts, a.ok = false → a.entries = pf.capacity

/-- `elua_int_add` fails only for an id that is none, without a Lua state, for a disabled
interrupt, or when the queue is full. -/
def Ints.FailsAsDesigned (pf : Platform) (s : Ints) : Prop :=
  ∀ a ∈ s.attempts, a.ok = false →
    a.valid = false ∨ a.running = false ∨ a.enabled = false ∨ a.entries = pf.capacity

/-- The hook is called only with an interrupt in the queue. -/
def Ints.HookHasWork (s : Ints) : Event → Prop
  | .hook => s.phase = .idle → s.hookSet → (s.queue s.readIdx).id ≠ ELUA_INT_EMPTY_SLOT
  | _     => True

/-- A Lua function raises an error only with an interrupt in the queue. -/
def Ints.ErrorsWithWork (s : Ints) : Event → Prop
  | .handlerRaises => (s.queue s.readIdx).id ≠ ELUA_INT_EMPTY_SLOT
  | _              => True

instance (s : Ints) (e : Event) : Decidable (s.HookHasWork e) := by
  cases e <;> dsimp only [Ints.HookHasWork] <;> infer_instance

end Alcor.Interrupts
