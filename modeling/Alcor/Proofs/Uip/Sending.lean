import Alcor.Uip.Events

/-!
# `Alcor.Proofs.Uip.Sending`: what the peer gets

`Underway` is the invariant of a call of `elua_net_send`: the pointer of
the socket is at the first byte that is not acknowledged, and every
segment on the line holds the bytes of the buffer at its place. An
acknowledgement keeps it as long as the application takes off as much as
was transmitted, which it computes from the segment size of the moment.

* `Underway.acked`: the step lemma for an acknowledgement.
* `Underway.step`: every event whose acknowledgement matches keeps the
  invariant.
* `Stalled.not_delivers`: a buffer that is too long is never sent.
* `send_delivers`: the result for whole calls.
* `window_opens`: an acknowledgement that does not match.
-/

set_option autoImplicit false

namespace Alcor.Proofs.Uip

open Lib (Mem)
open Lib.Run (run AllSteps invariant_run)
open Alcor.Uip

variable {s s' : Sending} {mss : Nat} {u : UipCall}

theorem netSize_of_lt {n : Int} (h : -2 ^ 15 ≤ n) (h' : n < 2 ^ 15) : netSize n = n := by
  unfold netSize
  omega

/-- The invariant of a call that sends. -/
structure Underway (s : Sending) : Prop where
  size_lt : s.size < 2 ^ 15
  ptr : s.sock.ptr = .mem (s.buf + s.una)
  len : s.sock.len = s.size - s.una
  una_le : s.una ≤ s.size
  state : (s.sock.state = .SEND ∧ s.una < s.size) ∨
    (s.sock.state = .IDLE ∧ (s.lost = false → s.una = s.size ∧ s.inflight = none))
  accepted_le : s.accepted.length ≤ s.size
  accepted : s.mem.Holds s.buf s.accepted
  una_accepted : s.una ≤ s.accepted.length
  sent : ∀ seg ∈ s.sent, seg.1 + seg.2.length ≤ s.size ∧ s.mem.Holds (s.buf + seg.1) seg.2
  inflight : ∀ seg, s.inflight = some seg → s.una + seg.length ≤ s.size

/-- What is transmitted from the first byte that is not acknowledged. -/
def segment (s : Sending) (mss : Nat) : List UInt8 :=
  s.mem.read (s.buf + s.una) (min (s.size - s.una) mss)

/-- The state after the segment has been put on the line. -/
def afterSend (s : Sending) (mss : Nat) : Sending :=
  { s with inflight := some (segment s mss), sent := s.sent ++ [(s.una, segment s mss)] }

theorem length_segment (s : Sending) (mss : Nat) :
    (segment s mss).length = min (s.size - s.una) mss := Mem.length_read _ _ _

theorem segment_ne_nil (hmss : 0 < mss) (huna : s.una < s.size) : segment s mss ≠ [] := by
  rw [← List.length_pos_iff, length_segment]
  omega

theorem holds_segment (s : Sending) (mss : Nat) :
    s.mem.Holds (s.buf + s.una) (segment s mss) := by
  rw [Mem.Holds, length_segment]
  rfl

/-! ### The calls of the application -/

/-- A socket that is idle stays as it is. -/
theorem call_idle (h : s.sock.state = .IDLE) (u : UipCall) : s.call u = some s := by
  simp only [Sending.call, appcall, if_pos h, Option.map_some]
  rfl

/-- The end of the connection. -/
theorem call_closed (h : s.sock.state = .SEND) :
    s.call { closed := true } =
      some { s with sock := { s.sock with res := ELUA_NET_ERR_CLOSED, state := .IDLE } } := by
  simp [Sending.call, appcall, h, Sending.transmit]

/-- A segment goes on the line when the application sends what it should. -/
theorem transmit_segment (hmss : 0 < mss) (huna : s.una < s.size) :
    s.transmit mss (uipSend (segment s mss)) = afterSend s mss := by
  have htake : (segment s mss).take mss = segment s mss := by
    rw [List.take_of_length_le]
    rw [length_segment]
    omega
  simp only [uipSend, if_neg (segment_ne_nil hmss huna), Sending.transmit, htake]
  rfl

/-- What the application takes for a length and for the size of a segment. -/
theorem min_toNat (huna : s.una ≤ s.size) (mss : Nat) :
    (min ((s.size : Int) - s.una) mss).toNat = min (s.size - s.una) mss := by
  omega

/-- A poll or a retransmission request transmits from the first byte not acknowledged. -/
theorem Underway.call_transmits (h : Underway s) (hstate : s.sock.state = .SEND)
    (huna : s.una < s.size) (hacked : u.acked = false)
    (hflags : (u.aborted || u.timedout || u.closed) = false)
    (hsend : (u.rexmit || u.poll) = true) (hmss : 0 < u.mss) :
    s.call u = some (afterSend s u.mss) := by
  have hlen : (0 : Int) < s.size - s.una := by omega
  have happ : appcall (fun b => b.toNat) 0 false u s.sock { mem := s.mem } =
      some (s.sock, { mem := s.mem }, uipSend (segment s u.mss)) := by
    simp only [appcall, hstate, reduceCtorEq, if_false, hflags, Bool.false_eq_true, hacked,
      Bool.false_or, hsend, and_self, if_true, appcallSend, h.ptr, h.len, if_pos hlen,
      min_toNat (Nat.le_of_lt huna)]
    rfl
  rw [Sending.call, happ, Option.map_some]
  exact congrArg some (transmit_segment hmss huna)

/-- The socket after the application has taken off what was acknowledged. -/
theorem Underway.appcall_acked (h : Underway s) (hstate : s.sock.state = .SEND) {n : Nat}
    (hn : s.una + n ≤ s.size) (hmatch : min s.sock.len mss = n) :
    appcall (fun b => b.toNat) 0 false { acked := true, mss } s.sock { mem := s.mem } =
      some ({ s.sock with
          len := (s.size : Int) - ↑(s.una + n)
          ptr := .mem (s.buf + (s.una + n))
          state := if s.una + n = s.size then .IDLE else .SEND }, { mem := s.mem },
        if s.una + n < s.size then
          uipSend (s.mem.read (s.buf + (s.una + n)) (min (s.size - (s.una + n)) mss))
        else []) := by
  have hsize := h.size_lt
  have hlen : netSize (s.sock.len - n) = (s.size : Int) - ↑(s.una + n) := by
    rw [h.len, netSize_of_lt (by omega) (by omega)]
    omega
  have hzero : ((s.size : Int) - ↑(s.una + n) = 0) ↔ s.una + n = s.size := by omega
  have hpos : (0 < (s.size : Int) - ↑(s.una + n)) ↔ s.una + n < s.size := by omega
  have htake : (min ((s.size : Int) - ↑(s.una + n)) mss).toNat =
      min (s.size - (s.una + n)) mss := by omega
  have haddr : s.buf + s.una + n = s.buf + (s.una + n) := Nat.add_assoc _ _ _
  simp only [appcall, hstate, reduceCtorEq, if_false, Bool.or_false, Bool.false_eq_true,
    and_self, if_true, appcallSend, h.ptr, hmatch, hlen, hzero, hpos, htake,
    Int.toNat_natCast, haddr]

/-! ### The invariant -/

theorem Underway.afterSent (h : Underway s) (hstate : s.sock.state = .SEND)
    (huna : s.una < s.size) (mss : Nat) : Underway (afterSend s mss) := by
  have hle : s.una + (segment s mss).length ≤ s.size := by
    rw [length_segment]
    omega
  refine ⟨h.size_lt, h.ptr, h.len, h.una_le, .inl ⟨hstate, huna⟩, h.accepted_le, h.accepted,
    h.una_accepted, ?_, ?_⟩
  · intro seg hmem
    obtain hmem | hmem := List.mem_append.mp hmem
    · exact h.sent seg hmem
    · rw [List.mem_singleton.mp hmem]
      exact ⟨hle, holds_segment s mss⟩
  · intro seg hseg
    exact Option.some.inj hseg ▸ hle

/-- A poll or a retransmission request keeps the invariant. -/
theorem Underway.transmits (h : Underway s) (hacked : u.acked = false)
    (hflags : (u.aborted || u.timedout || u.closed) = false)
    (hsend : (u.rexmit || u.poll) = true) (hmss : 0 < u.mss) (hcall : s.call u = some s') :
    Underway s' := by
  obtain ⟨hstate, huna⟩ | ⟨hstate, -⟩ := h.state
  · rw [h.call_transmits hstate huna hacked hflags hsend hmss] at hcall
    obtain rfl := Option.some.inj hcall
    exact h.afterSent hstate huna u.mss
  · rw [call_idle hstate] at hcall
    exact Option.some.inj hcall ▸ h

/-- The state after an acknowledgement of `n` bytes, before more is transmitted. -/
def afterAck (s : Sending) (n : Nat) : Sending :=
  { s with
    una := s.una + n
    inflight := none
    sock := { s.sock with
      len := (s.size : Int) - ↑(s.una + n)
      ptr := .mem (s.buf + (s.una + n))
      state := if s.una + n = s.size then .IDLE else .SEND } }

theorem Underway.afterAcked (h : Underway s) {n : Nat} (hle : s.una + n ≤ s.size)
    (hacc : s.una + n ≤ s.accepted.length) : Underway (afterAck s n) := by
  refine ⟨h.size_lt, rfl, rfl, hle, ?_, h.accepted_le, h.accepted, hacc, h.sent,
    fun _ hnone => by cases hnone⟩
  by_cases hend : s.una + n = s.size
  · exact .inr ⟨if_pos hend, fun _ => ⟨hend, rfl⟩⟩
  · exact .inl ⟨if_neg hend, Nat.lt_of_le_of_ne hle hend⟩

/-- An acknowledgement that takes off what was transmitted keeps the invariant. -/
theorem Underway.acked (h : Underway s) (hmatch : s.AckMatches (.acked mss))
    (hstep : s.step (.acked mss) = some s') : Underway s' := by
  cases hseg : s.inflight with
  | none => simp [Sending.step, hseg] at hstep
  | some seg =>
    simp only [Sending.step, hseg] at hstep
    split at hstep
    · cases hstep
    · next hcond =>
      obtain ⟨hmss, hlost, hacc⟩ : mss ≠ 0 ∧ s.lost = false ∧
          ¬ s.accepted.length < s.una + seg.length := by simpa [not_or] using hcond
      have hle := h.inflight seg hseg
      obtain ⟨hstate, -⟩ | ⟨-, hend⟩ := h.state
      · rw [Sending.call, h.appcall_acked hstate hle (hmatch seg hseg), Option.map_some] at hstep
        obtain rfl := Option.some.inj hstep
        have hmoved := h.afterAcked hle (Nat.le_of_not_lt hacc)
        by_cases hmore : s.una + seg.length < s.size
        · -- the next segment goes out at once
          rw [if_pos hmore]
          have htransmit := transmit_segment (s := afterAck s seg.length)
            (Nat.pos_of_ne_zero hmss) hmore
          have hsent := hmoved.afterSent (if_neg (Nat.ne_of_lt hmore)) hmore mss
          rw [← htransmit] at hsent
          exact hsent
        · rw [if_neg hmore]
          exact hmoved
      · -- nothing is underway when the call has come back
        rw [(hend hlost).2] at hseg
        cases hseg

/-- A segment that arrives keeps the invariant. -/
theorem Underway.accept (h : Underway s) {seg : Nat × List UInt8} (hmem : seg ∈ s.sent) :
    Underway (s.accept seg) := by
  obtain ⟨hle, hseg⟩ := h.sent seg hmem
  unfold Sending.accept
  split
  · next hfrom =>
    by_cases hnew : s.accepted.length - seg.1 ≤ seg.2.length
    · -- the rest of the segment continues what was accepted
      have hrest := hseg.drop hnew
      have haddr : s.buf + seg.1 + (s.accepted.length - seg.1) = s.buf + s.accepted.length := by
        omega
      rw [haddr] at hrest
      refine ⟨h.size_lt, h.ptr, h.len, h.una_le, h.state, ?_, ?_, ?_, h.sent, h.inflight⟩
      · simp only [List.length_append, List.length_drop]
        omega
      · exact (Mem.holds_append _ _ _ _).mpr ⟨h.accepted, hrest⟩
      · exact Nat.le_trans h.una_accepted (by simp)
    · -- all of it was accepted before
      have hnil : seg.2.drop (s.accepted.length - seg.1) = [] :=
        List.drop_eq_nil_of_le (by omega)
      rw [hnil, List.append_nil]
      exact h
  · exact h

/-- Every event whose acknowledgement matches keeps the invariant. -/
theorem Underway.step (h : Underway s) {e : SendEvent} (hok : s.AckMatches e)
    (hstep : s.step e = some s') : Underway s' := by
  cases e with
  | poll mss =>
    simp only [Sending.step] at hstep
    split at hstep
    · cases hstep
    · next hmss =>
      exact h.transmits rfl rfl rfl (Nat.pos_of_ne_zero (not_or.mp hmss).1) hstep
  | rexmit mss =>
    simp only [Sending.step] at hstep
    split at hstep
    · cases hstep
    · next hmss =>
      exact h.transmits rfl rfl rfl (Nat.pos_of_ne_zero (not_or.mp hmss).1) hstep
  | acked mss => exact h.acked hok hstep
  | arrive k =>
    obtain ⟨seg, hk, rfl⟩ := Option.map_eq_some_iff.mp hstep
    exact h.accept (List.mem_of_getElem? hk)
  | closed =>
    simp only [Sending.step] at hstep
    split at hstep
    · cases hstep
    · -- nothing is promised of a connection that is lost
      have hlost : Underway { s with lost := true } := by
        refine ⟨h.size_lt, h.ptr, h.len, h.una_le, ?_, h.accepted_le, h.accepted,
          h.una_accepted, h.sent, h.inflight⟩
        exact h.state.imp_right fun hidle => ⟨hidle.1, fun hopen => by cases hopen⟩
      obtain ⟨hstate, -⟩ | ⟨hstate, -⟩ := h.state
      · rw [call_closed (s := { s with lost := true }) hstate] at hstep
        obtain rfl := Option.some.inj hstep
        exact ⟨h.size_lt, h.ptr, h.len, h.una_le, .inr ⟨rfl, fun hopen => by cases hopen⟩,
          h.accepted_le, h.accepted, h.una_accepted, h.sent, h.inflight⟩
      · rw [call_idle (s := { s with lost := true }) hstate] at hstep
        exact Option.some.inj hstep ▸ hlost

/-- The invariant says that the call delivers. -/
theorem Underway.delivers (h : Underway s) : s.Delivers := by
  refine ⟨h.accepted_le, h.accepted.symm, ?_, ?_⟩
  · intro hret hopen
    obtain ⟨hstate, -⟩ | ⟨-, hend⟩ := h.state
    · rw [Sending.Returned, hstate] at hret
      cases hret
    · have huna := (hend hopen).1
      have hall : s.accepted.length = s.size :=
        Nat.le_antisymm h.accepted_le (huna ▸ h.una_accepted)
      have hsize := h.size_lt
      refine ⟨hall ▸ h.accepted.symm, ?_⟩
      rw [netSendResult, h.len, huna, netSize_of_lt (n := s.size) (by omega) (by omega),
        netSize_of_lt (by omega) (by omega)]
      omega
  · intro hwait hopen mss hmss
    obtain ⟨hstate, huna⟩ | ⟨hstate, -⟩ := h.state
    · refine ⟨afterSend s mss, segment s mss, ?_, rfl, segment_ne_nil hmss huna, ?_, ?_⟩
      · rw [Sending.step, if_neg (not_or.mpr ⟨Nat.pos_iff_ne_zero.mp hmss, by simp [hopen]⟩)]
        exact h.call_transmits hstate huna rfl rfl rfl hmss
      · rw [length_segment]
        omega
      · exact (holds_segment s mss).symm
    · exact absurd hstate hwait

theorem underway_start (mem : Mem) (buf : Nat) {size : Nat} (hpos : 0 < size)
    (hsize : size < 2 ^ 15) : Underway (Sending.start mem buf size) := by
  refine ⟨hsize, rfl, ?_, Nat.zero_le _, .inl ⟨rfl, hpos⟩, Nat.zero_le _, rfl, Nat.le_refl _,
    fun _ hmem => absurd hmem List.not_mem_nil, fun _ hnone => by cases hnone⟩
  show netSize size = size - ((0 : Nat) : Int)
  rw [netSize_of_lt (by omega) (by omega)]
  omega

/-! ### Buffers that are too long -/

/-- A call with a buffer whose length is negative as an `elua_net_size`: nothing is ever sent. -/
structure Stalled (s : Sending) : Prop where
  ptr : ∃ a, s.sock.ptr = .mem a
  len : s.sock.len < 0
  state : s.sock.state = .SEND ∨ (s.sock.state = .IDLE ∧ s.lost = true)
  inflight : s.inflight = none
  sent : s.sent = []

/-- The application sends nothing from such a buffer. -/
theorem Stalled.call (h : Stalled s) (hacked : u.acked = false)
    (hflags : (u.aborted || u.timedout || u.closed) = false)
    (hsend : (u.rexmit || u.poll) = true) : s.call u = some s := by
  obtain hstate | ⟨hstate, -⟩ := h.state
  · obtain ⟨a, hptr⟩ := h.ptr
    have hlen : ¬ 0 < s.sock.len := Int.not_lt.mpr (Int.le_of_lt h.len)
    simp only [Sending.call, appcall, hstate, reduceCtorEq, if_false, hflags, Bool.false_eq_true,
      hacked, Bool.false_or, hsend, and_self, if_true, appcallSend, hptr, hlen, Option.map_some]
    rfl
  · exact call_idle hstate u

/-- No event gets such a call any further. -/
theorem Stalled.step (h : Stalled s) (e : SendEvent) (hstep : s.step e = some s') : Stalled s' := by
  cases e with
  | poll mss =>
    simp only [Sending.step, h.call (u := { poll := true, mss }) rfl rfl rfl] at hstep
    split at hstep
    · cases hstep
    · exact Option.some.inj hstep ▸ h
  | rexmit mss => simp [Sending.step, h.inflight] at hstep
  | acked mss => simp [Sending.step, h.inflight] at hstep
  | arrive k => simp [Sending.step, h.sent] at hstep
  | closed =>
    simp only [Sending.step] at hstep
    split at hstep
    · cases hstep
    · obtain hstate | ⟨hstate, -⟩ := h.state
      · rw [call_closed (s := { s with lost := true }) hstate] at hstep
        obtain rfl := Option.some.inj hstep
        exact ⟨h.ptr, h.len, .inr ⟨rfl, rfl⟩, h.inflight, h.sent⟩
      · rw [call_idle (s := { s with lost := true }) hstate] at hstep
        obtain rfl := Option.some.inj hstep
        exact ⟨h.ptr, h.len, .inr ⟨hstate, rfl⟩, h.inflight, h.sent⟩

theorem stalled_start (mem : Mem) (buf : Nat) {size : Nat} (hlong : 2 ^ 15 ≤ size)
    (hsize : size < 2 ^ 16) : Stalled (Sending.start mem buf size) := by
  refine ⟨⟨buf, rfl⟩, ?_, .inl rfl, rfl, rfl⟩
  show netSize size < 0
  unfold netSize
  omega

/-- Such a call waits for ever, and no poll transmits anything. -/
theorem Stalled.not_delivers (h : Stalled s) (hopen : s.lost = false) : ¬ s.Delivers := by
  intro hdelivers
  obtain hstate | ⟨-, hlost⟩ := h.state
  · have hwait : ¬ s.Returned := fun hret => by
      rw [Sending.Returned, hstate] at hret
      cases hret
    obtain ⟨s', seg, hstep, hsent, -⟩ := hdelivers.waiting hwait hopen 1 (by decide)
    rw [Sending.step, if_neg (by simp [hopen]), h.call rfl rfl rfl] at hstep
    obtain rfl := Option.some.inj hstep
    exact absurd (congrArg List.length hsent) (by simp)
  · rw [hopen] at hlost
    cases hlost

/-! ### Whole calls -/

/-- In every run in which the acknowledgements come with segment sizes that match what was
transmitted, a buffer of fewer than 2^15 bytes is delivered, and a longer one is not as long as
the connection is open. -/
theorem send_delivers (mem : Mem) (buf size : Nat) (hpos : 0 < size) (hsize : size < 2 ^ 16)
    (es : List SendEvent) (s : Sending)
    (hok : AllSteps Sending.step Sending.AckMatches (Sending.start mem buf size) es)
    (hrun : run Sending.step (Sending.start mem buf size) es = some s) :
    (size < 2 ^ 15 → s.Delivers) ∧ (2 ^ 15 ≤ size → s.lost = false → ¬ s.Delivers) := by
  constructor
  · intro hshort
    exact (invariant_run (fun _ _ _ h hmatch hstep => Underway.step h hmatch hstep) es _ _
      (underway_start mem buf hpos hshort) hok hrun).delivers
  · intro hlong hopen
    exact (invariant_run (P := Sending.AckMatches)
      (fun _ e _ h _ hstep => Stalled.step h e hstep) es _ _
      (stalled_start mem buf hlong hsize) hok hrun).not_delivers hopen

/-- The memory with the two bytes 7 and 9. -/
def twoBytes : Mem := fun a => if a = 0 then 7 else 9

/-- A call of `elua_net_send` for them, over a window of one byte: transmitted, arrived,
acknowledged, and the other byte the same way. -/
def plainSend : List SendEvent := [.poll 1, .arrive 0, .acked 1, .arrive 1, .acked 1]

/-- The state after it. -/
def plainSent : Sending :=
  { mem := twoBytes, buf := 0, size := 2, una := 2, sent := [(0, [7]), (1, [9])],
    accepted := [7, 9]
    sock := { state := .IDLE, res := 0, ptr := .mem 2, len := 0, readto := -1 } }

theorem plainSend_run : run Sending.step (Sending.start twoBytes 0 2) plainSend = some plainSent :=
  rfl

theorem plainSend_ok :
    AllSteps Sending.step Sending.AckMatches (Sending.start twoBytes 0 2) plainSend := by
  decide

/-- The hypotheses of `send_delivers` hold of a call that sends two
bytes. -/
theorem send_delivers_two : (2 < 2 ^ 15 → plainSent.Delivers) ∧
    (2 ^ 15 ≤ 2 → plainSent.lost = false → ¬ plainSent.Delivers) :=
  send_delivers twoBytes 0 2 (by decide) (by decide) plainSend plainSent plainSend_ok
    plainSend_run

/-- The window opens between the transmission and its acknowledgement: the call comes back with
the result 2, and the peer has one byte. -/
theorem window_opens :
    ∃ s, run Sending.step (Sending.start twoBytes 0 2) [.poll 1, .arrive 0, .acked 2] = some s ∧
      s.Returned ∧ s.lost = false ∧ netSendResult 2 s.sock = 2 ∧ s.accepted = [7] ∧
      ¬ s.Delivers := by
  refine ⟨_, rfl, rfl, rfl, by decide, rfl, fun h => ?_⟩
  exact absurd (h.returned rfl rfl).1 (by decide)

end Alcor.Proofs.Uip
