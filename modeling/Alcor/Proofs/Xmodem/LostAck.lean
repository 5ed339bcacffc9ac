import Alcor.Proofs.Xmodem.Reception
import Alcor.Xmodem.Receive

/-!
# `Alcor.Proofs.Xmodem.LostAck`: transfers with and without the loss of an ACK

When nothing is lost, a transfer takes one pass of the receiver's loop
for each record and one for the end, and the receiver has the whole
file. When an ACK is lost, the sender repeats the record with the number
that the receiver has already left behind. `Awaits` is the state this
comes to, and no pass leaves it but to give up: the repetition is
answered by a NAK however often it arrives.

* `before_pass`: the pass that accepts a record leads to the next one,
  or to the loss.
* `awaits_pass`: no pass after the loss gets any further.
* `lost_ack`: the receiver never reports that it has the file.
* `transfer_completes`: without a loss, the transfer completes.
-/

set_option autoImplicit false

namespace Alcor.Proofs.Xmodem

open Lib (Mem Buf)
open Alcor.Xmodem

variable {r : Receiver Sending} {i : Nat} {payload : List UInt8} {e : Exit}
  {P : Receiver Sending → Prop}

/-! ### Records -/

/-- The bytes of a record behind the start of header. -/
theorem record_isPacket (i : Nat) (h : payload.length = PACKET_SIZE) :
    ∃ buf, Sender.record i payload = XM_SOH :: buf ∧ buf.length = PACKET_SIZE + 4 ∧
      (buf.drop 2).take PACKET_SIZE = payload ∧ buf.getD 0 0 = UInt8.ofNat (i + 1) ∧
      recordOk (UInt8.ofNat (i + 1)) buf = true := by
  refine ⟨_, rfl, by simp [h], by simp [← h], rfl, ?_⟩
  have hlow : (crc payload).toNat < 2 ^ 16 := by
    rw [crc_toNat]
    exact low_lt _
  have hhi : ((crc payload >>> 8).toUInt8).toUInt32 = (crc payload >>> 8) &&& 0xFF := by
    rw [← UInt32.toNat_inj, UInt8.toNat_toUInt32, UInt32.toNat_toUInt8, UInt32.toNat_and]
    exact (Nat.and_two_pow_sub_one_eq_mod _ 8).symm
  have hlo : ((crc payload).toUInt8).toUInt32 = crc payload &&& 0xFF := by
    rw [← UInt32.toNat_inj, UInt8.toNat_toUInt32, UInt32.toNat_toUInt8, UInt32.toNat_and]
    exact (Nat.and_two_pow_sub_one_eq_mod _ 8).symm
  rw [recordOk]
  simp [← h, hhi, hlo]

section Port
variable (snd : Sender) (lost : Option Nat)

/-- Bytes under way are read. -/
theorem readPacket_queue {n : Nat} (s : Sending) {buf : List UInt8} (rest : List UInt8)
    (hidle : s.idle = 0) (hqueue : s.queue = buf ++ rest) (hlen : buf.length = n) :
    readPacket (snd.port lost) n s = (some buf, { s with queue := rest }) := by
  induction n generalizing s buf with
  | zero =>
    obtain rfl := List.length_eq_zero_iff.mp hlen
    rw [readPacket, ← show s.queue = rest from hqueue]
  | succ n ih =>
    cases buf with
    | nil => cases hlen
    | cons b buf =>
      have hin : (snd.port lost).inFunc XMODEM_TIMEOUT s =
          (some b, { s with queue := buf ++ rest, idle := 0 }) := by
        simp only [Sender.port, Sender.inFunc, hqueue, List.cons_append]
      have hlen : buf.length = n := Nat.succ.inj hlen
      have hrest := ih { s with queue := buf ++ rest, idle := 0 } rfl rfl hlen
      rw [readPacket, hin]
      simp only [hrest, hidle]

/-- A flush when nothing is under way sees one timeout, which the sender does not mind. -/
theorem flush_idle {calls : Nat} (s : Sending) (hcalls : 0 < calls) (hidle : s.idle = 0)
    (hqueue : s.queue = []) (hstarted : s.started = true) :
    xmodemFlush (snd.port lost) calls .only s = some { s with idle := XMODEM_PACKET_DELAY } := by
  obtain ⟨n, rfl⟩ := Nat.exists_eq_succ_of_ne_zero (Nat.ne_of_gt hcalls)
  have hpatient : ¬ snd.patience ≤ XMODEM_PACKET_DELAY := Nat.not_le_of_lt snd.patient
  have hin : (snd.port lost).inFunc XMODEM_PACKET_DELAY s =
      (none, { s with idle := XMODEM_PACKET_DELAY }) := by
    simp only [Sender.port, Sender.inFunc, hqueue, hstarted, Bool.true_eq_false, if_false,
      hidle, Nat.zero_add, if_neg hpatient]
  have hstep : flushStep (snd.port lost) s = .inl { s with idle := XMODEM_PACKET_DELAY } := by
    rw [flushStep, hin]
  rw [xmodemFlush, Lib.Loop.run_succ_of_inl hstep]
  rfl

variable {snd}

theorem current_of_get (h : snd.payloads[i]? = some payload) :
    snd.current i = Sender.record i payload := by
  rw [Sender.current, h]

theorem full_of_get (h : snd.payloads[i]? = some payload) :
    payload.length = PACKET_SIZE := snd.full payload (List.mem_of_getElem? h)

end Port

/-! ### Up to the loss -/

/-- `i` records are received and acknowledged, and the next one is under way. -/
structure Before (snd : Sender) (i : Nat) (r : Receiver Sending) : Prop where
  packnum : r.packnum = UInt8.ofNat (i + 1)
  retries : r.retries ≠ 0
  acked : r.line.acked = i
  acks : r.line.acks = i
  queue : (r.starting = true ∧ r.line.started = false ∧ i = 0) ∨
    (r.starting = false ∧ r.line.started = true ∧ r.line.queue = snd.current i)

section Pass
variable {snd : Sender} (lost : Option Nat) (realloc : Nat → Option Mem) (calls : Nat)

/-- The receiver with the sender. -/
abbrev meet (snd : Sender) (lost : Option Nat) (realloc : Nat → Option Mem) (calls : Nat) :
    Setup Sending := ⟨snd.port lost, realloc, calls⟩

/-- What is under way once the receiver waits for a byte. -/
theorem Before.asked (h : Before snd i r) :
    ∃ s, (if r.starting then (snd.port lost).outFunc XM_START r.line else r.line) = s ∧
      s.queue = snd.current i ∧ s.started = true ∧ s.acked = i ∧ s.acks = i := by
  rcases h.queue with ⟨hstarting, hstarted, hzero⟩ | ⟨hstarting, hstarted, hqueue⟩
  · -- the first request starts the sender
    have hout : (snd.port lost).outFunc XM_START r.line =
        { r.line with queue := snd.current 0, started := true, idle := 0 } := by
      have hack : XM_START ≠ XM_ACK := by decide
      have hnak : XM_START ≠ XM_NAK := by decide
      simp only [Sender.port, Sender.outFunc, if_neg hack, if_neg hnak, hstarted, and_self,
        if_true]
    rw [if_pos hstarting, hout]
    exact ⟨_, rfl, by rw [hzero], rfl, h.acked, h.acks⟩
  · rw [if_neg (by rw [hstarting]; decide)]
    exact ⟨_, rfl, hqueue, hstarted, h.acked, h.acks⟩

/-- A pass accepts the record that is under way. -/
theorem Before.pass_eq {calls : Nat} (h : Before snd i r) (hcalls : 0 < calls)
    (hpayload : snd.payloads[i]? = some payload) :
    ∃ s buf, (meet snd lost realloc calls).pass r = (meet snd lost realloc calls).accept
        { r with
          starting := false, line := s, retries := XMODEM_RETRY_LIMIT,
          packnum := r.packnum + 1 } buf ∧
      (buf.drop 2).take PACKET_SIZE = payload ∧ s.started = true ∧ s.acked = i ∧
        s.acks = i ∧ s.queue = [] := by
  obtain ⟨s, hs, hqueue, hstarted, hacked, hacks⟩ := h.asked lost
  obtain ⟨buf, hrecord, hlen, hbuf, -, hok⟩ := record_isPacket i (full_of_get hpayload)
  rw [current_of_get hpayload, hrecord] at hqueue
  have hin : (snd.port lost).inFunc XMODEM_TIMEOUT s =
      (some XM_SOH, { s with queue := buf, idle := 0 }) := by
    simp only [Sender.port, Sender.inFunc, hqueue]
  have hread := readPacket_queue snd lost { s with queue := buf, idle := 0 } [] rfl
    (List.append_nil buf).symm hlen
  have hget : xmodemGetRecord (snd.port lost) r.packnum { s with queue := buf, idle := 0 } =
      (some buf, { s with queue := [], idle := 0 }) := by
    rw [xmodemGetRecord, hread]
    simp only [h.packnum, hok, if_true]
  have hflush := flush_idle snd lost { s with queue := [], idle := 0 } hcalls rfl rfl hstarted
  refine ⟨{ s with queue := [], idle := XMODEM_PACKET_DELAY }, buf, ?_, hbuf, hstarted, hacked,
    hacks, rfl⟩
  have heot : XM_SOH ≠ XM_EOT := by decide
  have hcan : XM_SOH ≠ XM_CAN := by decide
  rw [Setup.pass, if_neg h.retries]
  simp only [hs, hin, if_neg heot, if_neg hcan, if_true]
  rw [Setup.packet]
  simp only [hget, hflush]

/-- The ACK of a record that is not the lost one asks for the next record. -/
theorem outFunc_ack {lost : Option Nat} {s : Sending} (h : lost ≠ some s.acks) :
    (snd.port lost).outFunc XM_ACK s =
      { s with
        queue := snd.current (s.acked + 1), acked := s.acked + 1, repeated := 0, idle := 0,
        acks := s.acks + 1 } := by
  simp only [Sender.port, Sender.outFunc, if_true, if_neg h, Sender.advance]

/-- The lost ACK changes nothing for the sender. -/
theorem outFunc_lost {lost : Option Nat} {s : Sending} (h : lost = some s.acks) :
    (snd.port lost).outFunc XM_ACK s = { s with acks := s.acks + 1 } := by
  simp only [Sender.port, Sender.outFunc, if_true, if_pos h]

/-! ### After the loss -/

/-- Record `i` is received, but the sender does not know. -/
structure Awaits (snd : Sender) (i : Nat) (r : Receiver Sending) : Prop where
  starting : r.starting = false
  packnum : r.packnum = UInt8.ofNat (i + 1) + 1
  started : r.line.started = true
  acked : r.line.acked = i
  acks : r.line.acks = i + 1
  queue : r.line.queue = [] ∨ r.line.queue = snd.current i

/-- How a call ends that does not get the file. -/
def Fails (e : Exit) : Prop := ∀ n : Int, 0 ≤ n → e ≠ .returned n

theorem leave_fails {E : Setup Sending} {r' : Receiver Sending} {how : Flush} {n : Int}
    (hn : n < 0) (h : E.leave r how n = (e, r')) : Fails e := by
  rw [Setup.leave] at h
  intro m hm heq
  split at h
  · rw [Prod.mk.injEq, heq] at h
    cases h.1
  · rw [Prod.mk.injEq, heq, Exit.returned.injEq] at h
    omega

/-- What a pass leaves: a receiver that is in `P`, or a call that failed. -/
def Leads (P : Receiver Sending → Prop) (step : (Exit × Receiver Sending) ⊕ Receiver Sending) :
    Prop :=
  (∀ r, step = .inr r → P r) ∧ ∀ e r, step = .inl (e, r) → Fails e

theorem leads_inr (h : P r) : Leads P (.inr r) := by
  refine ⟨fun r' hr => ?_, by simp⟩
  rw [Sum.inr.injEq] at hr
  exact hr ▸ h

theorem leads_inl (h : Fails e) : Leads P (.inl (e, r)) := by
  refine ⟨by simp, fun e' r' hr => ?_⟩
  rw [Sum.inl.injEq, Prod.mk.injEq] at hr
  exact hr.1 ▸ h

theorem leads_leave {E : Setup Sending} {how : Flush} {n : Int} (hn : n < 0) :
    Leads P (.inl (E.leave r how n)) := by
  refine ⟨by simp, fun e r' h => ?_⟩
  rw [Sum.inl.injEq] at h
  exact leave_fails hn h

/-- The sender repeats a record or gives up, and remembers the rest. -/
theorem again_cases (snd : Sender) (s : Sending) :
    (snd.again s).started = s.started ∧ (snd.again s).acked = s.acked ∧
      (snd.again s).acks = s.acks ∧
      ((snd.again s).queue = [] ∨ (snd.again s).queue = snd.current s.acked) := by
  rw [Sender.again]
  split
  · exact ⟨rfl, rfl, rfl, .inr rfl⟩
  · exact ⟨rfl, rfl, rfl, .inl rfl⟩

/-- A repetition is not acknowledged: no pass gets any further. -/
theorem awaits_pass (h : Awaits snd i r) (hpayload : snd.payloads[i]? = some payload) :
    Leads (Awaits snd i) ((meet snd lost realloc calls).pass r) := by
  rw [Setup.pass]
  by_cases hretries : r.retries = 0
  · rw [if_pos hretries]
    exact leads_leave (by decide)
  rw [if_neg hretries]
  have hout : (if r.starting then (snd.port lost).outFunc XM_START r.line else r.line) =
      r.line := by
    rw [if_neg (by rw [h.starting]; decide)]
  simp only [hout]
  rcases h.queue with hqueue | hqueue
  · -- nothing is under way: the receiver waits, and the sender may repeat the record
    have hin : ∃ s, (snd.port lost).inFunc XMODEM_TIMEOUT r.line = (none, s) ∧
        s.started = true ∧ s.acked = i ∧ s.acks = i + 1 ∧
        (s.queue = [] ∨ s.queue = snd.current i) := by
      simp only [Sender.port, Sender.inFunc, hqueue, h.started, Bool.true_eq_false, if_false]
      split
      · obtain ⟨h1, h2, h3, h4⟩ := again_cases snd r.line
        exact ⟨_, rfl, h1.trans h.started, h2.trans h.acked, h3.trans h.acks, h.acked ▸ h4⟩
      · exact ⟨_, rfl, rfl, h.acked, h.acks, .inl rfl⟩
    obtain ⟨s, hin, hstarted, hacked, hacks, hqueue'⟩ := hin
    simp only [hin]
    exact leads_inr ⟨h.starting, h.packnum, hstarted, hacked, hacks, hqueue'⟩
  · -- the repetition has the number before the expected one
    obtain ⟨buf, hrecord, hlen, -, hnumber, -⟩ := record_isPacket i (full_of_get hpayload)
    rw [current_of_get hpayload, hrecord] at hqueue
    have hin : (snd.port lost).inFunc XMODEM_TIMEOUT r.line =
        (some XM_SOH, { r.line with queue := buf, idle := 0 }) := by
      simp only [Sender.port, Sender.inFunc, hqueue]
    have hread := readPacket_queue snd lost { r.line with queue := buf, idle := 0 } [] rfl
      (List.append_nil buf).symm hlen
    have hbad : recordOk r.packnum buf = false := by
      have hne : UInt8.ofNat (i + 1) ≠ UInt8.ofNat (i + 1) + 1 := by
        intro heq
        have hnat := congrArg UInt8.toNat heq
        rw [UInt8.toNat_add] at hnat
        simp only [UInt8.toNat_ofNat', UInt8.toNat_ofNat, Nat.reducePow] at hnat
        omega
      rw [recordOk, hnumber, h.packnum, beq_eq_false_iff_ne.mpr hne]
      rfl
    have hget : xmodemGetRecord (snd.port lost) r.packnum { r.line with queue := buf, idle := 0 } =
        (none, snd.again { r.line with queue := [], idle := 0 }) := by
      have hack : XM_NAK ≠ XM_ACK := by decide
      rw [xmodemGetRecord, hread]
      simp only [hbad, Bool.false_eq_true, if_false, Sender.port, Sender.outFunc, if_neg hack,
        if_true]
    have heot : XM_SOH ≠ XM_EOT := by decide
    have hcan : XM_SOH ≠ XM_CAN := by decide
    simp only [hin, if_neg heot, if_neg hcan, if_true]
    rw [Setup.packet]
    simp only [hget]
    obtain ⟨h1, h2, h3, h4⟩ := again_cases snd { r.line with queue := [], idle := 0 }
    exact leads_inr ⟨rfl, h.packnum, h1.trans h.started, h2.trans h.acked, h3.trans h.acks,
      h.acked ▸ h4⟩

/-- The pass that accepts record `i` leads to the next record, or to the loss. -/
theorem before_pass {calls : Nat} (h : Before snd i r) (hcalls : 0 < calls)
    (hpayload : snd.payloads[i]? = some payload) :
    Leads (fun r' => (lost = some i → Awaits snd i r') ∧ (lost ≠ some i → Before snd (i + 1) r'))
      ((meet snd lost realloc calls).pass r) := by
  obtain ⟨s, buf, hpass, -, hstarted, hacked, hacks, hqueue⟩ :=
    h.pass_eq lost realloc hcalls hpayload
  rw [hpass, Setup.accept]
  cases hgrow : (meet snd lost realloc calls).grow
      { r with
        starting := false, line := s, retries := XMODEM_RETRY_LIMIT,
        packnum := r.packnum + 1 } with
  | none => exact leads_leave (by decide)
  | some t =>
    obtain ⟨hline, hpacknum, -, hstarting, hretries⟩ := grow_line hgrow
    simp only [Setup.consume]
    cases t.dest.put? t.size.toNat ((buf.drop 2).take PACKET_SIZE) with
    | none => exact leads_inl (fun n _ => by simp)
    | some dest =>
      simp only [hline]
      refine leads_inr ⟨fun hlost => ?_, fun hlost => ?_⟩
      · rw [← hacks] at hlost
        refine ⟨hstarting, ?_, ?_, ?_, ?_, ?_⟩
        · rw [hpacknum, h.packnum]
        all_goals simp only [outFunc_lost hlost]
        · exact hstarted
        · exact hacked
        · rw [hacks]
        · exact .inl hqueue
      · rw [← hacks] at hlost
        refine ⟨?_, ?_, ?_, ?_, .inr ⟨hstarting, ?_, ?_⟩⟩
        · rw [hpacknum, h.packnum, ← UInt8.toNat_inj, UInt8.toNat_add]
          simp only [UInt8.toNat_ofNat', UInt8.toNat_ofNat, Nat.reducePow]
          omega
        · rw [hretries]
          simp only
          decide
        all_goals simp only [outFunc_ack hlost]
        · rw [hacked]
        · rw [hacks]
        · exact hstarted
        · rw [hacked]

end Pass

/-! ### Transfers -/

/-- The receiver gets the whole file. -/
def Completes (snd : Sender) (lost : Option Nat) (realloc : Nat → Option Mem) (calls : Nat)
    (dest : Mem) : Prop :=
  ∃ passes r, xmodemReceive ⟨snd.port lost, realloc, calls + 1⟩ passes dest {} =
      some (.returned ((PACKET_SIZE * snd.payloads.length : Nat) : Int), r) ∧
    r.dest.mem.Holds 0 snd.payloads.flatten

theorem before_start (snd : Sender) (dest : Mem) :
    Before snd 0 { line := {}, dest := ⟨dest, XMODEM_INITIAL_BUFFER_SIZE.toNat⟩ } :=
  ⟨rfl, by simp only; decide, rfl, rfl, .inl ⟨rfl, rfl, rfl⟩⟩

/-- When the ACK of a record is lost, the call does not return a length. -/
theorem fails_of_lost (snd : Sender) (k : Fin snd.payloads.length) (realloc : Nat → Option Mem)
    (calls passes : Nat) (dest : Mem)
    (h : xmodemReceive ⟨snd.port (some k), realloc, calls + 1⟩ passes dest {} = some (e, r)) :
    Fails e := by
  have hpayload : ∀ i ≤ k.val, ∃ payload, snd.payloads[i]? = some payload :=
    fun i hi => ⟨_, List.getElem?_eq_getElem (Nat.lt_of_le_of_lt hi k.isLt)⟩
  -- before the loss, or after it
  have hpass : ∀ s, ((∃ i ≤ k.val, Before snd i s) ∨ Awaits snd k s) →
      Leads (fun s => (∃ i ≤ k.val, Before snd i s) ∨ Awaits snd k s)
        ((meet snd (some k) realloc (calls + 1)).pass s) := by
    intro s hs
    rcases hs with ⟨i, hi, hbefore⟩ | hawaits
    · obtain ⟨payload, hget⟩ := hpayload i hi
      have hstep := before_pass (some k.val) realloc hbefore
        (Nat.succ_pos calls) hget
      refine ⟨fun s' hs' => ?_, hstep.2⟩
      obtain ⟨hlost, hnot⟩ := hstep.1 s' hs'
      by_cases hik : some k.val = some i
      · exact .inr (Option.some.inj hik ▸ hlost hik)
      · have hne : i ≠ k.val := fun heq => hik (by rw [heq])
        exact .inl ⟨i + 1, by omega, hnot hik⟩
    · obtain ⟨payload, hget⟩ := hpayload k (Nat.le_refl _)
      have hstep := awaits_pass (some k.val) realloc (calls + 1) hawaits hget
      exact ⟨fun s' hs' => .inr (hstep.1 s' hs'), hstep.2⟩
  exact Lib.Loop.run_inv (Q := fun result => Fails result.1)
    (fun s s' hs hb => (hpass s hs).1 s' hb) (fun s result hs hb => (hpass s hs).2 _ _ hb)
    (.inl ⟨0, Nat.zero_le _, before_start snd dest⟩) h

/-- **A lost ACK**: whichever record it is whose ACK is lost, the
transfer does not complete, with any number of passes and any memory.
The first part of the argument is the passes before the loss, by
induction on the records, and the second one those behind it. -/
theorem lost_ack (snd : Sender) (k : Fin snd.payloads.length) (realloc : Nat → Option Mem)
    (calls : Nat) (dest : Mem) : ¬ Completes snd (some k) realloc calls dest := by
  rintro ⟨passes, r, hrun, -⟩
  exact fails_of_lost snd k realloc calls passes dest hrun _ (Int.natCast_nonneg _) rfl

/-- A file of one record of zeros, from a sender that waits three of the receiver's timeouts and
repeats a record ten times. -/
def oneRecord : Sender where
  payloads := [List.replicate PACKET_SIZE 0]
  full := by simp
  patience := 3 * XMODEM_TIMEOUT
  patient := by decide
  repeats := 10

/-- A transfer of one record whose ACK is lost does not complete, so
not all do. -/
theorem lost_ack_only_record :
    ¬ ∀ (snd : Sender) (k : Fin snd.payloads.length) (realloc : Nat → Option Mem) (calls : Nat)
      (dest : Mem), (∀ i, (realloc i).isSome = true) → Completes snd (some k) realloc calls dest := by
  intro h
  obtain ⟨passes, r, hrun, -⟩ := h oneRecord ⟨0, by decide⟩ (fun _ => some fun _ => 0) 0
    (fun _ => 0) (fun _ => rfl)
  exact fails_of_lost oneRecord ⟨0, by decide⟩ _ 0 passes _ hrun _ (Int.natCast_nonneg _) rfl

/-! ### Transfers without a loss -/

section Complete
variable {snd : Sender} (realloc : Nat → Option Mem) (calls : Nat)

theorem grow_isSome (E : Setup Sending) (h : ∀ i, (E.realloc i).isSome = true)
    (r : Receiver Sending) : ∃ r', E.grow r = some r' := by
  obtain ⟨m, hm⟩ := Option.isSome_iff_exists.mp (h r.reallocs)
  rw [Setup.grow, hm]
  split
  · exact ⟨_, rfl⟩
  · exact ⟨_, rfl⟩

theorem length_flatten_take (snd : Sender) (hi : i ≤ snd.payloads.length) :
    (snd.payloads.take i).flatten.length = PACKET_SIZE * i := by
  have hall : ∀ l : List (List UInt8), (∀ x ∈ l, x.length = PACKET_SIZE) →
      l.flatten.length = PACKET_SIZE * l.length := by
    intro l hl
    induction l with
    | nil => rfl
    | cons x l ih =>
      rw [List.flatten_cons, List.length_append, hl x (List.mem_cons_self ..),
        ih fun y hy => hl y (List.mem_cons_of_mem x hy), List.length_cons, Nat.mul_succ,
        Nat.add_comm]
  rw [hall _ fun x hx => snd.full x (List.mem_of_mem_take hx), List.length_take,
    Nat.min_eq_left hi]

/-- A pass stores the record that is under way. -/
theorem record_pass (hrealloc : ∀ i, (realloc i).isSome = true)
    (hsmall : PACKET_SIZE * snd.payloads.length < 2 ^ 31) (hi : i < snd.payloads.length)
    (hbefore : Before snd i r) (hstored : Stored (snd.payloads.take i) r) :
    ∃ r', (meet snd none realloc (calls + 1)).pass r = .inr r' ∧ Before snd (i + 1) r' ∧
      Stored (snd.payloads.take (i + 1)) r' := by
  have hget : snd.payloads[i]? = some snd.payloads[i] := List.getElem?_eq_getElem hi
  have hnext := before_pass none realloc hbefore (Nat.succ_pos calls) hget
  obtain ⟨s, buf, hpass, hbuf, -⟩ :=
    hbefore.pass_eq none realloc (Nat.succ_pos calls) hget
  generalize ht : ({ r with
      starting := false, line := s, retries := XMODEM_RETRY_LIMIT,
      packnum := r.packnum + 1 } : Receiver Sending) = t at hpass
  have hstored' : Stored (snd.payloads.take i) t := by
    subst ht
    exact ⟨hstored.size, hstored.limit, hstored.size_le, hstored.limit_le, hstored.dest⟩
  have htake : (snd.payloads.take i).length = i := by
    rw [List.length_take]
    omega
  have hflat : (snd.payloads.take i).flatten.length =
      PACKET_SIZE * (snd.payloads.take i).length := by
    rw [length_flatten_take snd (Nat.le_of_lt hi), htake]
  -- the file fits into the range of a `long`
  have hroom : t.size.toNat + PACKET_SIZE < 2 ^ 31 := by
    rw [hstored'.size, htake, ← Nat.mul_succ]
    exact Nat.lt_of_le_of_lt (Nat.mul_le_mul_left _ hi) hsmall
  obtain ⟨t', hgrow⟩ := grow_isSome (meet snd none realloc (calls + 1)) hrealloc t
  obtain ⟨-, -, hsize, -, -⟩ := grow_line hgrow
  obtain ⟨hlimit, hfits, hle, hdest⟩ := grow_stored hstored' hflat hroom hgrow
  rw [← hsize] at hfits hle hroom
  obtain ⟨r', hconsume, -, -, -, -, hfinal⟩ := consume_stored
    (E := meet snd none realloc (calls + 1)) hbuf (full_of_get hget) (hsize ▸ hstored'.size) hflat
    hlimit hfits hle hroom hdest
  have hr' : (meet snd none realloc (calls + 1)).pass r = .inr r' := by
    rw [hpass, Setup.accept, hgrow]
    exact hconsume
  refine ⟨r', hr', (hnext.1 r' hr').2 (by simp), ?_⟩
  rwa [List.take_concat_get' _ _ hi] at hfinal

/-- The pass that hears the end of the transmission returns. -/
theorem end_pass (hbefore : Before snd snd.payloads.length r) (hstored : Stored snd.payloads r)
    (hsmall : PACKET_SIZE * snd.payloads.length < 2 ^ 31) :
    ∃ r', (meet snd none realloc (calls + 1)).pass r =
        .inl (.returned ((PACKET_SIZE * snd.payloads.length : Nat) : Int), r') ∧
      r'.dest = r.dest := by
  obtain ⟨s, hs, hqueue, hstarted, hacked, hacks⟩ := hbefore.asked none
  have hend : snd.current snd.payloads.length = [XM_EOT] := by
    rw [Sender.current, List.getElem?_eq_none (Nat.le_refl _)]
    exact if_pos rfl
  have hnothing : snd.current (snd.payloads.length + 1) = [] := by
    rw [Sender.current, List.getElem?_eq_none (Nat.le_succ _)]
    exact if_neg (by omega)
  rw [hend] at hqueue
  have hin : (snd.port none).inFunc XMODEM_TIMEOUT s =
      (some XM_EOT, { s with queue := [], idle := 0 }) := by
    simp only [Sender.port, Sender.inFunc, hqueue]
  have hack : (snd.port none).outFunc XM_ACK { s with queue := [], idle := 0 } =
      { s with
        queue := [], acked := snd.payloads.length + 1, repeated := 0, idle := 0,
        acks := s.acks + 1 } := by
    rw [outFunc_ack (by simp)]
    simp only [hacked, hnothing]
  have hflush := flush_idle snd none
    { s with
      queue := [], acked := snd.payloads.length + 1, repeated := 0, idle := 0,
      acks := s.acks + 1 } (Nat.succ_pos calls) rfl rfl hstarted
  have hvalue : r.size.toInt32.toInt = ((PACKET_SIZE * snd.payloads.length : Nat) : Int) := by
    rw [← hstored.size]
    have hlt : r.size.toNat < 2 ^ 31 := hstored.size ▸ hsmall
    exact BitVec.toInt_eq_toNat_of_lt (show 2 * r.size.toNat < 2 ^ 32 by omega)
  rw [Setup.pass, if_neg hbefore.retries]
  simp only [hs, hin, if_true, Setup.leave, hack, hflush, hvalue]
  exact ⟨_, rfl, rfl⟩

end Complete

/-- Without a loss, the transfer completes when there is memory for the file. -/
theorem transfer_completes (snd : Sender) (realloc : Nat → Option Mem)
    (hrealloc : ∀ i, (realloc i).isSome = true) (calls : Nat) (dest : Mem)
    (hsmall : PACKET_SIZE * snd.payloads.length < 2 ^ 31) :
    Completes snd none realloc calls dest := by
  -- one pass for each record that is left, and one for the end
  have hrun : ∀ n i (r : Receiver Sending), i + n = snd.payloads.length → Before snd i r →
      Stored (snd.payloads.take i) r →
      ∃ r', Lib.Loop.run (meet snd none realloc (calls + 1)).pass (n + 1) r =
          some (.returned ((PACKET_SIZE * snd.payloads.length : Nat) : Int), r') ∧
        r'.dest.mem.Holds 0 snd.payloads.flatten := by
    intro n
    induction n with
    | zero =>
      intro i r hi hbefore hstored
      obtain rfl : i = snd.payloads.length := hi
      rw [List.take_length] at hstored
      obtain ⟨r', hpass, hdest⟩ := end_pass realloc calls hbefore hstored
        hsmall
      exact ⟨r', Lib.Loop.run_succ_of_inl hpass 0, hdest ▸ hstored.dest⟩
    | succ n ih =>
      intro i r hi hbefore hstored
      obtain ⟨r', hpass, hbefore', hstored'⟩ := record_pass realloc calls hrealloc hsmall
        (by omega) hbefore hstored
      rw [Lib.Loop.run_succ_of_inr hpass]
      exact ih (i + 1) r' (by omega) hbefore' hstored'
  obtain ⟨r, hr, hdest⟩ := hrun snd.payloads.length 0 _ (Nat.zero_add _)
    (before_start snd dest) ⟨rfl, rfl, Nat.zero_le _, Nat.le_add_left _ _, rfl⟩
  exact ⟨_, r, hr, hdest⟩

end Alcor.Proofs.Xmodem
