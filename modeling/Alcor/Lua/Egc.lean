import Alcor.Lib.Run

/-!
# `Alcor.Lua.Egc`: the memory limit of the emergency collector

`l_check_memlimit` and `l_alloc` of `src/lua/lauxlib.c`, called by
`luaM_realloc_`, which accounts for what they do in `totalbytes`.

The collector is that of `src/lua/lgc.c` with its phases. How much a step
of it leaves allocated is chosen with the step: finalizers may run in it
and allocate as well. A finalizer that sets another mode or limit is
left out: a step keeps both, and they change between two requests
only.
-/

set_option autoImplicit false

namespace Alcor.Lua.Egc

/-- `EGC_ON_ALLOC_FAILURE`. -/
def EGC_ON_ALLOC_FAILURE : Nat := 1

/-- `EGC_ON_MEM_LIMIT`. -/
def EGC_ON_MEM_LIMIT : Nat := 2

/-- `EGC_ALWAYS`. -/
def EGC_ALWAYS : Nat := 4

/-- The phases of a collection. -/
inductive GcState where
  | pause
  | propagate
  | sweepstring
  | sweep
  | finalize
  deriving DecidableEq, Repr

/-- What `global_State` has for the allocator. -/
structure State where
  /-- Blocks are disjoint, so this has no overflow. -/
  totalbytes : Nat
  /-- 0 is no limit. -/
  memlimit : UInt32 := 0
  egcmode : Nat := 0
  gcstate : GcState := .pause
  /-- `GCBlockGCBit`. -/
  blockGc : Bool := false
  deriving DecidableEq, Repr

/-- The mode has this bit. -/
def State.hasMode (s : State) (bit : Nat) : Bool := s.egcmode &&& bit != 0

/-! ### The collector -/

/-- How far a call of the collector got, beside the state: `begun` since a collection was started,
and `cycles` that were completed since they were started. -/
structure Progress where
  begun : Bool := false
  cycles : Nat := 0
  deriving DecidableEq, Repr

/-- What one `singlestep` comes to. -/
structure Single where
  /-- There is more to do in the phase. -/
  more : Bool
  totalbytes : Nat

/-- `singlestep`. -/
def singlestep (x : Single) (s : State) (p : Progress) : State × Progress :=
  let s' := { s with totalbytes := x.totalbytes }
  match s.gcstate with
  | .pause       => ({ s' with gcstate := .propagate }, { p with begun := true })
  | .propagate   => ({ s' with gcstate := if x.more then .propagate else .sweepstring }, p)
  | .sweepstring => ({ s' with gcstate := if x.more then .sweepstring else .sweep }, p)
  | .sweep       => ({ s' with gcstate := if x.more then .sweep else .finalize }, p)
  | .finalize    =>
    if x.more then (s', p)
    else ({ s' with gcstate := .pause },
      ⟨false, if p.begun then p.cycles + 1 else p.cycles⟩)

/-- The loop of `luaC_step`, behind its first round. -/
def stepLoop : List Single → State → Progress → State × Progress
  | [],      s, p => (s, p)
  | x :: xs, s, p =>
    if s.gcstate = .pause then (s, p)
    else
      let (s, p) := singlestep x s p
      stepLoop xs s p

/-- `luaC_step`, with the first `singlestep` and those behind it. -/
def luaCStep (x : Single × List Single) (s : State) (p : Progress) : State × Progress :=
  let (s, p) := singlestep x.1 s p
  stepLoop x.2 s p

/-- `luaC_fullgc`, and what it leaves allocated. -/
def luaCFullgc (totalbytes : Nat) (s : State) : State :=
  if s.blockGc then s else { s with totalbytes, gcstate := .pause }

/-! ### The allocator -/

/-- `cycle_count`, behind the test for a pause. -/
def countPause (cycleCount : Nat) (s : State) : Nat :=
  if s.gcstate = .pause then cycleCount + 1 else cycleCount

/-- The loop of `l_check_memlimit`, with the calls of `luaC_step`. -/
def collectLoop (limit : UInt32) :
    List (Single × List Single) → Nat → State → Progress → Option (State × Progress)
  | steps, cycleCount, s, p =>
    if s.totalbytes ≥ limit.toNat then
      if s.gcstate = .pause ∧ countPause cycleCount s > 1 then some (s, p)
      else
        match steps with
        | []         => none
        | x :: steps =>
          collectLoop limit steps (countPause cycleCount s) (luaCStep x s p).1 (luaCStep x s p).2
    else some (s, p)

/-- The collector makes room, unless it is blocked. -/
def makeRoom (limit : UInt32) (steps : List (Single × List Single)) (s : State) :
    Option (State × Progress) :=
  if s.blockGc then some (s, {}) else collectLoop limit steps 0 s {}

/-- `l_check_memlimit`. The first component says if the request is refused. -/
def lCheckMemlimit (needbytes : UInt32) (steps : List (Single × List Single)) (s : State) :
    Option (Bool × State × Progress) :=
  let limit := s.memlimit - needbytes
  (makeRoom limit steps s).map fun (s, p) => (decide (s.totalbytes ≥ limit.toNat), s, p)

/-- What the collector and `realloc` do in a request. -/
structure Behaviour where
  /-- What `luaC_fullgc` leaves allocated before the request. -/
  always : Nat := 0
  /-- The calls of `luaC_step` when the limit is checked. -/
  steps : List (Single × List Single) := []
  /-- The first `realloc` succeeds. -/
  reallocOk : Bool := true
  /-- What `luaC_fullgc` leaves allocated behind a `realloc` that failed. -/
  retry : Nat := 0
  /-- The second `realloc` succeeds. -/
  retryOk : Bool := false

inductive Outcome where
  | freed
  | granted
  /-- By the limit. -/
  | refused
  /-- `realloc` has no memory. -/
  | failed
  deriving DecidableEq, Repr

/-- `l_alloc`, from the test of the limit on. -/
def reallocate (b : Behaviour) (s : State) (p : Progress) : Outcome × State × Progress :=
  if b.reallocOk then (.granted, s, p)
  else if s.hasMode EGC_ON_ALLOC_FAILURE then
    (if b.retryOk then .granted else .failed, luaCFullgc b.retry s, p)
  else (.failed, s, p)

/-- `l_alloc`. -/
def lAlloc (osize nsize : UInt32) (b : Behaviour) (s : State) :
    Option (Outcome × State × Progress) :=
  if nsize = 0 then some (.freed, s, {})
  else
    let s := if s.hasMode EGC_ALWAYS then luaCFullgc b.always s else s
    if osize < nsize ∧ 0 < s.memlimit ∧ s.hasMode EGC_ON_MEM_LIMIT then
      (lCheckMemlimit (nsize - osize) b.steps s).map fun (refused, s, p) =>
        if refused then (.refused, s, p) else reallocate b s p
    else some (reallocate b s {})

/-- `luaM_realloc_`. Without a block it throws, and accounts for nothing. -/
def luaMRealloc (osize nsize : UInt32) (b : Behaviour) (s : State) :
    Option (Outcome × State × Progress) :=
  (lAlloc osize nsize b s).map fun (o, s, p) =>
    if o = .granted ∨ o = .freed then
      (o, { s with totalbytes := s.totalbytes + nsize.toNat - osize.toNat }, p)
    else (o, s, p)

/-! ### Runs -/

inductive Event where
  /-- `luaM_realloc_`. -/
  | request (osize nsize : UInt32) (b : Behaviour)
  /-- `legc_set_mode`. -/
  | setMode (mode : Nat) (limit : UInt32)
  /-- The collector between two requests, and `collectgarbage`. -/
  | collector (totalbytes : Nat) (gcstate : GcState) (blockGc : Bool)

def step (s : State) : Event → Option State
  | .request osize nsize b => (luaMRealloc osize nsize b s).map fun r => r.2.1
  | .setMode mode limit    => some { s with egcmode := mode, memlimit := limit }
  | .collector totalbytes gcstate blockGc => some { s with totalbytes, gcstate, blockGc }

/-- A request that grows a block, in the mode, respects the limit. -/
def Respects (s : State) : Event → Prop
  | .request osize nsize b => osize < nsize → s.hasMode EGC_ON_MEM_LIMIT → s.memlimit ≠ 0 →
      ∀ o s' p, luaMRealloc osize nsize b s = some (o, s', p) →
        (o = .granted → s'.totalbytes ≤ s'.memlimit.toNat) ∧
        -- it is refused behind a full cycle only
        (o = .refused → s.blockGc = true ∨ 0 < p.cycles)
  | _ => True

/-- What a request has to meet. -/
def Met (s : State) : Event → Prop
  | .request osize nsize b => osize < nsize → s.hasMode EGC_ON_MEM_LIMIT → s.memlimit ≠ 0 →
      nsize - osize ≤ s.memlimit ∧
        (b.reallocOk = false → b.retryOk = true → s.hasMode EGC_ON_ALLOC_FAILURE →
          s.blockGc = false → b.retry + (nsize - osize).toNat ≤ s.memlimit.toNat)
  | _ => True

end Alcor.Lua.Egc
