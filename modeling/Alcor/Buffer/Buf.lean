import Alcor.Lib.Memory
import Alcor.Lib.Run

/-!
# `Alcor.Buffer.Buf`: the buffers of `src/buf.c`

* `bufSet`, `bufFlush`, `bufWrite`: the operations on a descriptor.
* `readStep`: `buf_read` in steps, between which an interrupt may write.
* `Trace`: a run of writes and steps of reads; `Trace.Fifo` is what a
  queue is to do.
* `Managed`: a run in which the size is changed as well;
  `Managed.Usable` is what is to hold of it.
-/

set_option autoImplicit false

/-!
## The device buffers

The circular buffers of `src/buf.c`, which stand between an interrupt
handler that writes and a program that reads. A descriptor holds the
sizes as powers of two, two 16-bit positions in bytes, a 16-bit count
of elements, and the allocated block.

An access outside the block is `none`. `buf_read` copies the element
byte by byte, then decrements the count with interrupts disabled, then
moves the read position; `ReadPhase` and `readStep` are these steps,
between which an interrupt may write, and `bufRead` is a call that
nothing interrupts.
-/

namespace Alcor.Buffer

open Lib (Mem Buf)

/-- `BUF_SIZE_NONE`: buffering is disabled. -/
def BUF_SIZE_NONE : Nat := 0

/-- The sizes `buf_set` takes: one of the `BUF_SIZE_xxx` and one of the `BUF_DSIZE_xxx`
constants, both logarithms. -/
structure Size where
  /-- The number of elements. -/
  logsize : Nat
  /-- The number of bytes of an element. -/
  logdsize : Nat
  logsize_le : logsize ≤ 15
  logdsize_le : logdsize ≤ 2

/-- `buf_desc`. -/
structure BufDesc where
  /-- The number of bytes, as a logarithm. -/
  logsize : Nat := BUF_SIZE_NONE
  /-- The number of bytes of an element, as a logarithm. -/
  logdsize : Nat := 0
  /-- Where the next element goes. -/
  wptr : Nat := 0
  /-- Where the oldest element is. -/
  rptr : Nat := 0
  /-- The number of elements. -/
  count : Nat := 0
  /-- The allocated block; `NULL` has no bytes. -/
  buf : Buf := ⟨fun _ => 0, 0⟩

/-- `BUF_MOD_INCR`: the position behind the element at position `m`, as a `u16`. -/
def BufDesc.modIncr (p : BufDesc) (m : Nat) : Nat :=
  ((m + 1 <<< p.logdsize) &&& (1 <<< p.logsize - 1)) % 2 ^ 16

/-- `BUF_REALSIZE`: the number of elements. -/
def BufDesc.realsize (p : BufDesc) : Nat := 1 <<< (p.logsize - p.logdsize)

/-- `BUF_BYTESIZE`: the number of bytes. -/
def BufDesc.bytesize (p : BufDesc) : Nat := 1 <<< p.logsize

/-- `BUF_REALDSIZE`: the number of bytes of an element. -/
def BufDesc.realdsize (p : BufDesc) : Nat := 1 <<< p.logdsize

/-- The block after `realloc`: the bytes of the old block as far as both reach, then
whatever is in the memory. -/
def reallocated (old : Buf) (size : Nat) (m : Mem) : Buf :=
  ⟨fun i => if i < old.size then old.mem i else m i, size⟩

/-- `buf_set`. The allocation gets memory `m` or fails. The result says if it returned
`PLATFORM_OK`. -/
def bufSet (p : BufDesc) (sz : Size) (alloc : Option Mem) : Bool × BufDesc :=
  let p := { p with logdsize := sz.logdsize, logsize := sz.logsize + sz.logdsize }
  match alloc with
  | some m => (true, { p with buf := reallocated p.buf p.bytesize m })
  | none   =>
    -- `buf` is now `NULL`, and the old block is lost
    (decide (sz.logsize = BUF_SIZE_NONE),
      { p with logsize := BUF_SIZE_NONE, rptr := 0, wptr := 0, count := 0,
               buf := ⟨p.buf.mem, 0⟩ })

/-- `buf_flush`. -/
def bufFlush (p : BufDesc) : BufDesc := { p with rptr := 0, wptr := 0, count := 0 }

/-- `buf_write` of the element at `data`. The result says if it returned `PLATFORM_OK`. -/
def bufWrite (p : BufDesc) (data : Mem) : Option (Bool × BufDesc) :=
  if p.logsize = BUF_SIZE_NONE then some (false, p)
  else if p.count > p.realsize then some (false, p)
  else do
    let buf ← p.buf.put? p.wptr (data.read 0 p.realdsize)
    return (true, { p with
      buf := buf, wptr := p.modIncr p.wptr, count := (p.count + 1) % 2 ^ 16 })

/-- `buf_is_enabled`. -/
def bufIsEnabled (p : BufDesc) : Bool := decide (p.logsize ≠ BUF_SIZE_NONE)

/-- `buf_get_size`. -/
def bufGetSize (p : BufDesc) : Nat := if p.logsize = BUF_SIZE_NONE then 0 else p.realsize

/-- `buf_get_count`. -/
def bufGetCount (p : BufDesc) : Nat := p.count

/-- Where a `buf_read` stands. -/
inductive ReadPhase where
  /-- Not called. -/
  | idle
  /-- These bytes of the element are copied. -/
  | copying (got : List UInt8)
  /-- The element is copied and no longer counted, but the position still points at it. -/
  | counted (got : List UInt8)
  deriving DecidableEq

/-- What a step of `buf_read` comes to. -/
inductive ReadResult where
  /-- The call goes on. -/
  | running (phase : ReadPhase)
  /-- `PLATFORM_UNDERFLOW`. -/
  | underflow
  /-- `PLATFORM_OK` with the element. -/
  | ok (data : List UInt8)
  deriving DecidableEq

/-- One step of `buf_read`. -/
def readStep (p : BufDesc) : ReadPhase → Option (ReadResult × BufDesc)
  | .idle =>
    if p.logsize = BUF_SIZE_NONE ∨ p.count = 0 then some (.underflow, p)
    else some (.running (.copying []), p)
  | .copying got =>
    if got.length < p.realdsize then do
      let b ← p.buf.get? (p.rptr + got.length)
      return (.running (.copying (got ++ [b])), p)
    else
      -- with interrupts disabled, so this is one step
      some (.running (.counted got), { p with count := (p.count + 2 ^ 16 - 1) % 2 ^ 16 })
  | .counted got => some (.ok got, { p with rptr := p.modIncr p.rptr })

/-- The steps of a `buf_read` from a phase on, with nothing in between. -/
def readSteps (p : BufDesc) (phase : ReadPhase) : Nat → Option (Option (List UInt8) × BufDesc)
  | 0      => none
  | n + 1  => do
      let (res, p') ← readStep p phase
      match res with
      | .running phase' => readSteps p' phase' n
      | .underflow      => return (none, p')
      | .ok data        => return (some data, p')

/-- `buf_read`: the element, or none on `PLATFORM_UNDERFLOW`. One step for the test, one for
each byte, one for the count and one for the position. -/
def bufRead (p : BufDesc) : Option (Option (List UInt8) × BufDesc) :=
  readSteps p .idle (p.realdsize + 3)

/-- The number of elements that fit into the part of the block that 16-bit positions reach.
For blocks of up to 65536 bytes this is `BUF_REALSIZE`. -/
def BufDesc.reach (p : BufDesc) : Nat := 2 ^ (min p.logsize 16 - p.logdsize)

end Alcor.Buffer

/-!
## A reader that is interrupted

One program reads from a buffer with `buf_read`, one call after the
other, and an interrupt handler calls `buf_write` at any point, also
between two steps of a read. The trace keeps the elements of the
writes that were accepted and of the reads that returned.
-/

namespace Alcor.Buffer

open Lib (Mem)

/-- What became of a write. -/
structure Write where
  /-- The buffer was full. -/
  full : Bool
  /-- The write returned an error. -/
  refused : Bool
  deriving DecidableEq

/-- The buffer, the read under way and the trace. -/
structure Trace where
  /-- The buffer. -/
  desc : BufDesc
  /-- The read under way. -/
  phase : ReadPhase := .idle
  /-- The elements of the accepted writes. -/
  accepted : List (List UInt8) := []
  /-- The elements the reads returned. -/
  returned : List (List UInt8) := []
  /-- All writes. -/
  writes : List Write := []

/-- What happens next. -/
inductive Move where
  /-- The handler calls `buf_write`. -/
  | write (data : Mem)
  /-- The program goes on with `buf_read`, or calls it. -/
  | read

/-- The trace after a step of a read. -/
def Trace.afterRead (t : Trace) (p : BufDesc) : ReadResult → Trace
  | .running phase => { t with desc := p, phase := phase }
  | .underflow     => { t with desc := p, phase := .idle }
  | .ok data       => { t with desc := p, phase := .idle, returned := t.returned ++ [data] }

/-- One step; `none` is an access outside the block. -/
def Trace.step (t : Trace) : Move → Option Trace
  | .write data => do
      let (ok, p) ← bufWrite t.desc data
      return { t with
        desc := p
        accepted := if ok then t.accepted ++ [data.read 0 t.desc.realdsize] else t.accepted
        writes := t.writes ++ [⟨decide (t.desc.count = t.desc.realsize), !ok⟩] }
  | .read => do
      let (res, p) ← readStep t.desc t.phase
      return t.afterRead p res

/-- The element of a read that is no longer counted, but not yet returned. -/
def ReadPhase.inHand : ReadPhase → List (List UInt8)
  | .counted got => [got]
  | _            => []

/-- What the buffer is for: a queue. The elements returned are the first of those accepted, the
rest is stored and counted, and a write is refused exactly when the buffer is full. -/
structure Trace.Fifo (t : Trace) : Prop where
  queue : ∃ stored, t.accepted = t.returned ++ t.phase.inHand ++ stored ∧
    bufGetCount t.desc = stored.length
  le : bufGetCount t.desc ≤ t.desc.realsize
  refused_iff : ∀ w ∈ t.writes, w.refused = w.full

/-- The condition on a write: the buffer has room where 16-bit positions reach. -/
def Trace.HasRoom (t : Trace) : Move → Prop
  | .write _ => t.desc.count < t.desc.reach
  | .read    => True

instance (t : Trace) (m : Move) : Decidable (t.HasRoom m) := by
  cases m <;> dsimp only [Trace.HasRoom] <;> infer_instance

/-- A buffer that was just set up. -/
def Trace.start (sz : Size) (m : Mem) : Trace := { desc := (bufSet {} sz (some m)).2 }

/-! ### A buffer whose size is changed

Runs of `buf_set`, `buf_write`, `buf_read` and `buf_flush` on one
descriptor, which starts zeroed as a static variable. Beside the
descriptor stands the queue the calls should leave: a write that is
accepted appends, a read takes the first element, a flush and a
disabled buffer leave nothing, and a new size keeps what is stored.
-/

section Reconfigure
open Lib (Mem)

/-- A descriptor and what should be stored. -/
structure Managed where
  /-- The descriptor. -/
  desc : BufDesc := {}
  /-- The elements. -/
  stored : List (List UInt8) := []

/-- The calls. -/
inductive Call where
  /-- `buf_set`; the allocation gets this memory, or fails. -/
  | set (sz : Size) (alloc : Option Mem)
  | write (data : Mem)
  | read
  | flush

/-- One call; `none` is an access outside the block. -/
def Managed.step (s : Managed) : Call → Option Managed
  | .set sz alloc =>
    let p := (bufSet s.desc sz alloc).2
    some { desc := p, stored := if bufIsEnabled p then s.stored else [] }
  | .write data => do
      let (ok, p) ← bufWrite s.desc data
      return { desc := p
               stored := if ok then s.stored ++ [data.read 0 s.desc.realdsize] else s.stored }
  | .read => do
      let (res, p) ← bufRead s.desc
      return { desc := p, stored := if res.isSome then s.stored.tail else s.stored }
  | .flush => some { desc := bufFlush s.desc, stored := [] }

/-- Reading until the buffer is empty gives these elements. -/
def ReadsBack : BufDesc → List (List UInt8) → Prop
  | p, []      => ∃ p', bufRead p = some (none, p')
  | p, x :: xs => ∃ p', bufRead p = some (some x, p') ∧ ReadsBack p' xs

/-- The descriptor can be used: the block has the size of an enabled buffer and the positions
are inside, and the elements that are reported are those that can be read back. -/
structure Managed.Usable (s : Managed) : Prop where
  block : bufIsEnabled s.desc → s.desc.buf.size = s.desc.bytesize ∧
    s.desc.rptr < s.desc.bytesize ∧ s.desc.wptr < s.desc.bytesize
  count : bufGetCount s.desc = s.stored.length
  readsBack : ReadsBack s.desc s.stored

/-- The descriptor with new sizes. -/
def BufDesc.resized (p : BufDesc) (sz : Size) : BufDesc :=
  { p with logdsize := sz.logdsize, logsize := sz.logsize + sz.logdsize }

/-- The positions and the count, which `buf_set` leaves as they are, are right for new sizes:
there is nothing stored and the position is one of the new buffer; or the sizes are the same;
or the elements have the same size, do not wrap around, and end inside the new buffer. -/
def BufDesc.Fits (p : BufDesc) (sz : Size) : Prop :=
  if (p.resized sz).logsize = BUF_SIZE_NONE then p.count = 0
  else
    (p.count = 0 ∧ p.wptr = p.rptr ∧ p.rptr % (p.resized sz).realdsize = 0 ∧
      p.rptr < (p.resized sz).bytesize) ∨
    (p.logsize = (p.resized sz).logsize ∧ p.logdsize = sz.logdsize) ∨
    (p.logsize ≠ BUF_SIZE_NONE ∧ p.logdsize = sz.logdsize ∧
      p.rptr + p.count * p.realdsize = p.wptr ∧ p.wptr < (p.resized sz).bytesize)

instance (p : BufDesc) (sz : Size) : Decidable (p.Fits sz) := by
  unfold BufDesc.Fits
  infer_instance

/-- The condition on a call: a new size that is allocated fits, and a write to an enabled
buffer finds room. -/
def Managed.CallOk (s : Managed) : Call → Prop
  | .set sz alloc => alloc = none ∨ s.desc.Fits sz
  | .write _      => s.desc.logsize = BUF_SIZE_NONE ∨ s.desc.count < s.desc.reach
  | .read         => True
  | .flush        => True

instance (s : Managed) (c : Call) : Decidable (s.CallOk c) :=
  match c with
  | .set sz none     => .isTrue (.inl rfl)
  | .set sz (some _) => decidable_of_iff (s.desc.Fits sz) (by simp [Managed.CallOk])
  | .write _         => inferInstanceAs (Decidable (_ ∨ _))
  | .read            => .isTrue trivial
  | .flush           => .isTrue trivial

end Reconfigure

end Alcor.Buffer
