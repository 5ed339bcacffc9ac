import Alcor.Lib.Circular
import Alcor.Buffer.Buf

/-!
# `Alcor.Proofs.Buffer.Fifo`: a buffer is a queue

The elements of a buffer, and that interrupts keep their order. The
positions have 16 bits and the block may be larger, so a queue only ever
uses the part of the block that they reach (`BufDesc.reach`).

* `Holding p r stored`: from cell `r` on the block holds the elements
  `stored`. `Holding.write` and `Holding.pop` are the two ends of the
  queue.
* `readStep_spec`: each step of a read, which an interrupt may follow.
* `queued_step` is the step lemma, `fifo` the result about every run,
  and `not_fifo` a run in which a write finds the buffer full.
-/

set_option autoImplicit false

/-!
## A buffer as a queue

`Holding p r stored` says that the descriptor `p` stands for the queue
`stored`, whose first element is in cell `r`: the write position is
behind the last element, the count is right, and the cells hold the
elements. It does not speak of the read position, which `buf_read`
moves last.

`BufDesc.modIncr_eq` is the arithmetic of `BUF_MOD_INCR`: the mask and
the 16-bit position together give positions modulo the part of the
block that 16 bits reach. `Holding.write` and `Holding.pop` are what a
write and the decrement in a read do.
-/

namespace Alcor.Proofs.Buffer

open Lib (Mem Buf)
open Lib.Circular
open Alcor.Buffer

variable {x : List UInt8}

/-! ### Sizes -/

section Sizes
variable (p : BufDesc)

theorem BufDesc.realdsize_eq : p.realdsize = 2 ^ p.logdsize := Nat.one_shiftLeft _

theorem BufDesc.bytesize_eq : p.bytesize = 2 ^ p.logsize := Nat.one_shiftLeft _

theorem BufDesc.realsize_eq : p.realsize = 2 ^ (p.logsize - p.logdsize) := Nat.one_shiftLeft _

theorem BufDesc.realdsize_pos : 0 < p.realdsize := by
  rw [BufDesc.realdsize_eq]
  exact Nat.two_pow_pos _

theorem BufDesc.reach_pos : 0 < p.reach := Nat.two_pow_pos _

/-- 16-bit positions reach no more than there is. -/
theorem BufDesc.reach_le : p.reach ≤ p.realsize := by
  rw [BufDesc.realsize_eq]
  exact Nat.pow_le_pow_right (by decide) (by omega)

/-- The count fits into 16 bits. -/
theorem BufDesc.reach_le_count (h : p.logsize ≤ p.logdsize + 15) : p.reach ≤ 2 ^ 15 :=
  Nat.pow_le_pow_right (by decide) (by omega)

variable {p} (hd : p.logdsize ≤ 2) (hle : p.logdsize ≤ p.logsize)
include hd hle

theorem BufDesc.reach_mul : p.reach * p.realdsize = 2 ^ min p.logsize 16 := by
  rw [BufDesc.realdsize_eq, BufDesc.reach, ← Nat.pow_add]
  congr 1
  omega

theorem BufDesc.reach_mul_le : p.reach * p.realdsize ≤ p.bytesize := by
  rw [BufDesc.reach_mul hd hle, BufDesc.bytesize_eq]
  exact Nat.pow_le_pow_right (by decide) (by omega)

/-- `BUF_MOD_INCR` goes one element further, modulo the reach. -/
theorem BufDesc.modIncr_eq (m : Nat) :
    p.modIncr m = (m + p.realdsize) % (p.reach * p.realdsize) := by
  rw [BufDesc.modIncr, Nat.one_shiftLeft, Nat.one_shiftLeft, Nat.and_two_pow_sub_one_eq_mod,
    BufDesc.reach_mul hd hle, BufDesc.realdsize_eq]
  obtain h | h := Nat.le_total p.logsize 16
  · rw [Nat.min_eq_left h, Nat.mod_eq_of_lt]
    exact Nat.lt_of_lt_of_le (Nat.mod_lt _ (Nat.two_pow_pos _))
      (Nat.pow_le_pow_right (by decide) h)
  · rw [Nat.min_eq_right h, Nat.mod_mod_of_dvd _ (Nat.pow_dvd_pow 2 h)]

/-- `BUF_MOD_INCR` on the position of a cell. -/
theorem BufDesc.modIncr_cell (k : Nat) :
    p.modIncr (k % p.reach * p.realdsize) = (k + 1) % p.reach * p.realdsize := by
  rw [BufDesc.modIncr_eq hd hle, next_index]

end Sizes

/-! ### The queue in a buffer -/

/-- The elements of the block. -/
def cells (p : BufDesc) : Nat → List UInt8 := cell p.buf.mem p.realdsize

/-- The buffer holds the queue `stored`, whose first element is in cell `r`. -/
structure Holding (p : BufDesc) (r : Nat) (stored : List (List UInt8)) : Prop where
  enabled : p.logsize ≠ BUF_SIZE_NONE
  logdsize_le : p.logdsize ≤ 2
  logdsize_le_logsize : p.logdsize ≤ p.logsize
  logsize_le : p.logsize ≤ p.logdsize + 15
  size : p.buf.size = p.bytesize
  wptr : p.wptr = (r + stored.length) % p.reach * p.realdsize
  count : p.count = stored.length
  le : stored.length ≤ p.reach
  contents : contents (cells p) p.reach r stored.length = stored

section Holding
variable {p : BufDesc} {r : Nat} {stored : List (List UInt8)}

/-- A cell lies inside the block. -/
theorem Holding.cell_le (h : Holding p r stored) (k : Nat) :
    k % p.reach * p.realdsize + p.realdsize ≤ p.buf.size := by
  rw [h.size, ← Nat.succ_mul]
  exact Nat.le_trans (Nat.mul_le_mul_right _ (Nat.mod_lt k (BufDesc.reach_pos p)))
    (BufDesc.reach_mul_le h.logdsize_le h.logdsize_le_logsize)

/-- The first element stands in its cell. -/
theorem Holding.head (h : Holding p r (x :: stored)) : cells p (r % p.reach) = x := by
  have hc := h.contents
  rw [List.length_cons, contents_succ, List.cons.injEq] at hc
  exact hc.1

theorem Holding.length_head (h : Holding p r (x :: stored)) : x.length = p.realdsize := by
  rw [← h.head, cells, cell, Mem.length_read]

/-- The descriptor after an accepted write. -/
def written (p : BufDesc) (data : Mem) : BufDesc :=
  { p with
    buf := { p.buf with mem := p.buf.mem.store p.wptr (data.read 0 p.realdsize) }
    wptr := p.modIncr p.wptr
    count := (p.count + 1) % 2 ^ 16 }

/-- A write into a buffer with room is accepted and appends its element. -/
theorem Holding.write (h : Holding p r stored) (hroom : stored.length < p.reach) (data : Mem) :
    bufWrite p data = some (true, written p data) ∧
      Holding (written p data) r (stored ++ [data.read 0 p.realdsize]) := by
  have hcount := BufDesc.reach_le_count p h.logsize_le
  have hput : p.buf.put? p.wptr (data.read 0 p.realdsize) =
      some { p.buf with mem := p.buf.mem.store p.wptr (data.read 0 p.realdsize) } := by
    refine Lib.Buf.put?_of_le ?_
    rw [Mem.length_read, h.wptr]
    exact h.cell_le _
  constructor
  · have hfull : ¬ p.count > p.realsize := by
      have := BufDesc.reach_le p
      rw [h.count]
      omega
    simp only [bufWrite, if_neg h.enabled, if_neg hfull, hput, Option.bind_eq_bind,
      Option.bind_some, written]
    rfl
  · exact {
      enabled := h.enabled
      logdsize_le := h.logdsize_le
      logdsize_le_logsize := h.logdsize_le_logsize
      logsize_le := h.logsize_le
      size := h.size
      wptr := by
        show p.modIncr p.wptr = _
        rw [h.wptr, BufDesc.modIncr_cell h.logdsize_le h.logdsize_le_logsize,
          List.length_append, List.length_singleton]
        rfl
      count := by
        show (p.count + 1) % 2 ^ 16 = _
        rw [h.count, List.length_append, List.length_singleton]
        exact Nat.mod_eq_of_lt (Nat.lt_of_le_of_lt hroom (by omega))
      le := by
        rw [List.length_append, List.length_singleton]
        exact hroom
      contents := by
        rw [List.length_append, List.length_singleton]
        refine (contents_push hroom ?_ fun i hi => ?_).trans
          (congrArg (· ++ [data.read 0 p.realdsize]) h.contents)
        · show cell (p.buf.mem.store p.wptr _) p.realdsize _ = _
          rw [h.wptr]
          exact cell_store_self _ (Mem.length_read ..)
        · show cell (p.buf.mem.store p.wptr _) p.realdsize _ = _
          rw [h.wptr]
          exact cell_store_other _ (Mem.length_read ..) hi }

/-- The decrement takes the first element from the queue. -/
theorem Holding.pop (h : Holding p r (x :: stored)) {c : Nat} (hc : c = stored.length) :
    Holding { p with count := c } (r + 1) stored where
  enabled := h.enabled
  logdsize_le := h.logdsize_le
  logdsize_le_logsize := h.logdsize_le_logsize
  logsize_le := h.logsize_le
  size := h.size
  wptr := by
    have hw := h.wptr
    rw [List.length_cons, ← Nat.add_assoc, Nat.add_right_comm] at hw
    exact hw
  count := hc
  le := Nat.le_of_succ_le h.le
  contents := by
    have hc := h.contents
    rw [List.length_cons, contents_succ, List.cons.injEq] at hc
    exact hc.2

/-- The decrement of a 16-bit count that is not 0. -/
theorem Holding.count_pred (h : Holding p r (x :: stored)) :
    (p.count + 2 ^ 16 - 1) % 2 ^ 16 = stored.length := by
  have hle := h.le
  have hreach := BufDesc.reach_le_count p h.logsize_le
  rw [h.count, List.length_cons] at *
  omega

/-- The read position may move. -/
theorem Holding.moveRptr (h : Holding p r stored) (m : Nat) :
    Holding { p with rptr := m } r stored := by
  obtain ⟨h1, h2, h3, h4, h5, h6, h7, h8, h9⟩ := h
  exact ⟨h1, h2, h3, h4, h5, h6, h7, h8, h9⟩

end Holding

end Alcor.Proofs.Buffer

/-!
## An interrupted reader and a queue

`InPhase` says how far a read has got: the read position is at the
first element, and what is copied is the beginning of it, or the
position is still at the element before the first. A write keeps this,
since it appends to the queue and leaves the first element alone.
`readStep_spec` is one step of a read. The element moves from the
queue into the hand of the reader with the decrement, and from there
to what the reads returned.
-/

namespace Alcor.Proofs.Buffer

open Lib (Mem Buf)
open Lib.Circular
open Alcor.Buffer

variable {p : BufDesc} {r : Nat} {t : Trace}

/-- Where a read stands, in a buffer that holds `stored` from cell `r` on. -/
def InPhase (p : BufDesc) (r : Nat) (stored : List (List UInt8)) : ReadPhase → Prop
  | .idle        => p.rptr = r % p.reach * p.realdsize
  | .copying got => p.rptr = r % p.reach * p.realdsize ∧
      ∃ x rest, stored = x :: rest ∧ got = x.take got.length ∧ got.length ≤ p.realdsize
  | .counted _   => ∃ r₀, r = r₀ + 1 ∧ p.rptr = r₀ % p.reach * p.realdsize

/-- A write does not disturb a read. -/
theorem InPhase.write {stored : List (List UInt8)} {phase : ReadPhase}
    (h : InPhase p r stored phase) (data : Mem) :
    InPhase (written p data) r (stored ++ [data.read 0 p.realdsize]) phase := by
  cases phase with
  | idle => exact h
  | counted got => exact h
  | copying got =>
    obtain ⟨hrptr, x, rest, rfl, hgot, hle⟩ := h
    exact ⟨hrptr, x, rest ++ [data.read 0 p.realdsize], rfl, hgot, hle⟩

/-- The next byte of the first element. -/
theorem Holding.byte {x : List UInt8} {rest : List (List UInt8)} (h : Holding p r (x :: rest))
    {k : Nat} (hk : k < p.realdsize) :
    ∃ b, p.buf.get? (r % p.reach * p.realdsize + k) = some b ∧ x.take k ++ [b] = x.take (k + 1) := by
  have hcell := h.cell_le r
  refine ⟨p.buf.mem (r % p.reach * p.realdsize + k), Lib.Buf.get?_of_lt (by omega), ?_⟩
  have hread : x[k]? = some (p.buf.mem (r % p.reach * p.realdsize + k)) := by
    rw [← h.head, cells, cell, Mem.getElem?_read, if_pos hk]
  rw [List.take_add_one, hread]
  rfl

/-- What a step of a read does to the queue. -/
inductive Progress (p : BufDesc) (r : Nat) (stored : List (List UInt8)) (phase : ReadPhase) :
    ReadResult → BufDesc → Prop
  /-- The call goes on; at most the element changes hands. -/
  | running {p' r' stored' phase'} (hold : Holding p' r' stored')
      (inPhase : InPhase p' r' stored' phase')
      (moved : phase.inHand ++ stored = phase'.inHand ++ stored') :
      Progress p r stored phase (.running phase') p'
  /-- The buffer was empty when the call began. -/
  | underflow (idle : phase = .idle) (empty : stored = []) :
      Progress p r stored phase .underflow p
  /-- The call returns the element in hand. -/
  | ok {p' data} (hold : Holding p' r stored) (inPhase : InPhase p' r stored .idle)
      (hand : phase.inHand = [data]) : Progress p r stored phase (.ok data) p'

/-- A step of a read stays inside the block, and the queue is as it should be. -/
theorem readStep_spec {stored : List (List UInt8)} {phase : ReadPhase} (h : Holding p r stored)
    (hph : InPhase p r stored phase) :
    ∃ res p', readStep p phase = some (res, p') ∧ p'.logsize = p.logsize ∧
      p'.logdsize = p.logdsize ∧ Progress p r stored phase res p' := by
  cases phase with
  | idle =>
    cases stored with
    | nil => exact ⟨_, _, if_pos (.inr h.count), rfl, rfl, .underflow rfl rfl⟩
    | cons x rest =>
      have hcount : p.count ≠ 0 := by rw [h.count]; simp
      exact ⟨_, _, if_neg (not_or.mpr ⟨h.enabled, hcount⟩), rfl, rfl,
        .running h ⟨hph, x, rest, rfl, rfl, Nat.zero_le _⟩ rfl⟩
  | copying got =>
    obtain ⟨hrptr, x, rest, rfl, hgot, hle⟩ := hph
    by_cases hlt : got.length < p.realdsize
    · -- one more byte
      obtain ⟨b, hb, htake⟩ := h.byte hlt
      refine ⟨.running (.copying (got ++ [b])), p, ?_, rfl, rfl, .running h
        ⟨hrptr, x, rest, rfl, ?_, ?_⟩ rfl⟩
      · simp only [readStep, if_pos hlt, hrptr, hb]
        rfl
      · rw [List.length_append, List.length_singleton, ← htake, ← hgot]
      · rw [List.length_append]
        exact hlt
    · -- the whole element is copied
      have hx : got = x := by
        rw [hgot, List.take_of_length_le (by rw [h.length_head]; omega)]
      subst hx
      have hstep : readStep p (.copying got) = some (.running (.counted got),
          { p with count := (p.count + 2 ^ 16 - 1) % 2 ^ 16 }) := by
        rw [readStep, if_neg hlt]
      rw [h.count_pred] at hstep
      exact ⟨_, _, hstep, rfl, rfl, .running (h.pop rfl) ⟨r, rfl, hrptr⟩ rfl⟩
  | counted got =>
    obtain ⟨r₀, rfl, hrptr⟩ := hph
    refine ⟨_, _, rfl, rfl, rfl, .ok (h.moveRptr _) ?_ rfl⟩
    show p.modIncr p.rptr = _
    rw [hrptr]
    exact BufDesc.modIncr_cell h.logdsize_le h.logdsize_le_logsize r₀

/-! ### Runs -/

/-- The invariant of an interrupted reader. -/
def Queued (t : Trace) : Prop :=
  ∃ r stored, Holding t.desc r stored ∧ InPhase t.desc r stored t.phase ∧
    t.accepted = t.returned ++ t.phase.inHand ++ stored ∧ ∀ w ∈ t.writes, w.refused = w.full

theorem Queued.isFifo (h : Queued t) : t.Fifo := by
  obtain ⟨r, stored, hold, -, haccepted, hwrites⟩ := h
  refine ⟨⟨stored, haccepted, hold.count⟩, ?_, hwrites⟩
  rw [bufGetCount, hold.count]
  exact Nat.le_trans hold.le (BufDesc.reach_le _)

/-- A buffer that was just set up is an empty queue. -/
theorem holding_start {sz : Size} (hsz : sz.logsize ≠ BUF_SIZE_NONE) (m : Mem) :
    Holding (bufSet {} sz (some m)).2 0 [] where
  enabled := fun h => hsz (Nat.eq_zero_of_add_eq_zero_right h)
  logdsize_le := sz.logdsize_le
  logdsize_le_logsize := Nat.le_add_left _ _
  logsize_le := by
    have := sz.logsize_le
    show sz.logsize + sz.logdsize ≤ sz.logdsize + 15
    omega
  size := rfl
  wptr := by simp [bufSet]
  count := rfl
  le := Nat.zero_le _
  contents := rfl

/-- A write of the handler. -/
theorem step_write {data : Mem} {ok : Bool} (h : bufWrite t.desc data = some (ok, p)) :
    t.step (.write data) = some { t with
      desc := p
      accepted := if ok then t.accepted ++ [data.read 0 t.desc.realdsize] else t.accepted
      writes := t.writes ++ [⟨decide (t.desc.count = t.desc.realsize), !ok⟩] } := by
  simp [Trace.step, h]

/-- A step of the reader. -/
theorem step_read {res : ReadResult} (h : readStep t.desc t.phase = some (res, p)) :
    t.step .read = some (t.afterRead p res) := by
  simp [Trace.step, h]

/-- Every step from a queue with room for its writes stays inside the block. -/
theorem queued_step (t : Trace) (m : Move) (h : Queued t) (hroom : t.HasRoom m) :
    ∃ t', t.step m = some t' ∧ Queued t' := by
  obtain ⟨r, stored, hold, hph, haccepted, hwrites⟩ := h
  cases m with
  | write data =>
    have hlt : stored.length < t.desc.reach := hold.count ▸ hroom
    obtain ⟨hwrite, hold'⟩ := hold.write hlt data
    have hnotfull : t.desc.count ≠ t.desc.realsize := by
      have := BufDesc.reach_le t.desc
      rw [hold.count]
      omega
    refine ⟨_, step_write hwrite, r, _, hold', hph.write data, ?_, ?_⟩
    · simp [haccepted]
    · intro w hw
      obtain hw | hw := List.mem_append.mp hw
      · exact hwrites w hw
      · obtain rfl := List.mem_singleton.mp hw
        simp [hnotfull]
  | read =>
    obtain ⟨res, p', hstep, -, -, hprogress⟩ := readStep_spec hold hph
    cases hprogress with
    | running hold' hph' hmoved =>
      refine ⟨_, step_read hstep, _, _, hold', hph', ?_, hwrites⟩
      simp [Trace.afterRead, haccepted, hmoved]
    | underflow hidle hempty =>
      refine ⟨_, step_read hstep, r, stored, hold,
        (by rw [hidle] at hph; exact hph), ?_, hwrites⟩
      simp [Trace.afterRead, haccepted, hidle]
    | ok hold' hph' hhand =>
      refine ⟨_, step_read hstep, r, stored, hold', hph', ?_, hwrites⟩
      rw [Trace.afterRead, haccepted, hhand]
      simp [ReadPhase.inHand]

/-- A buffer of any size that was just set up, with any sequence of writes and steps of reads:
if no write comes when the part of the block that 16-bit positions reach is full, no access is
outside the block, and the buffer is a queue. -/
theorem fifo {sz : Size} (hsz : sz.logsize ≠ BUF_SIZE_NONE) (m : Mem) {ms : List Move}
    (hok : Lib.Run.AllSteps Trace.step Trace.HasRoom (.start sz m) ms) :
    ∃ t, Lib.Run.run Trace.step (.start sz m) ms = some t ∧ t.Fifo := by
  have hstart : Queued (.start sz m) :=
    ⟨0, [], holding_start hsz m, by simp [InPhase, Trace.start, bufSet], rfl, by simp [Trace.start]⟩
  obtain ⟨t, hrun, hqueued⟩ := Lib.Run.progress_run queued_step ms _ hstart hok
  exact ⟨t, hrun, hqueued.isFifo⟩

/-- Two elements of one byte. -/
def twoBytes : Size := ⟨1, 0, by decide, by decide⟩

/-- An object with one byte. -/
def byte (c : UInt8) : Mem := fun _ => c

/-- A read that a write interrupts between the decrement and the move of the position. -/
theorem fifo_interrupted : ∃ t, Lib.Run.run Trace.step (.start twoBytes (byte 0))
    [.write (byte 1), .write (byte 2), .read, .read, .read, .write (byte 3), .read] = some t ∧
      t.Fifo :=
  fifo (by decide) (byte 0) (by decide)

/-- Three writes into a buffer for two elements: the third, which finds the buffer full, is
accepted and overwrites the first. -/
theorem not_fifo : ∃ t, Lib.Run.run Trace.step (.start twoBytes (byte 0))
    [.write (byte 1), .write (byte 2), .write (byte 3), .read, .read, .read, .read] = some t ∧
      t.accepted = [[1], [2], [3]] ∧ t.returned = [[3]] ∧ ¬ t.Fifo := by
  obtain ⟨t, ht, heq⟩ := Option.map_eq_some_iff.mp
    (show (Lib.Run.run Trace.step (.start twoBytes (byte 0))
      [.write (byte 1), .write (byte 2), .write (byte 3), .read, .read, .read, .read]).map
        (fun t => (t.accepted, t.returned, t.writes)) =
      some ([[1], [2], [3]], [[3]], [⟨false, false⟩, ⟨false, false⟩, ⟨true, false⟩]) by decide)
  simp only [Prod.mk.injEq] at heq
  obtain ⟨haccepted, hreturned, hwrites⟩ := heq
  refine ⟨t, ht, haccepted, hreturned, fun hfifo => ?_⟩
  have := hfifo.refused_iff ⟨true, false⟩ (by rw [hwrites]; simp)
  exact absurd this (by decide)

end Alcor.Proofs.Buffer
