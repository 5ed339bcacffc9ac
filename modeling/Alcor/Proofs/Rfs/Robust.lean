import Mathlib.Data.List.Induction
import Alcor.Proofs.Eluarpc.RoundTrip
import Alcor.Rfs.Client

/-!
# `Alcor.Proofs.Rfs.Robust`: what the client needs of the bytes that arrive

`reception` is what the bytes on the line come to: an error, a write
outside the packet buffer, or a packet.

* `readResponse_spec` says that this is what the client makes of them.
* `exchange_cases`: the packet then has to be as long as the format wants
  it, because the reader checks the bytes but not how many there are
  (`ReadsInside`).
* `copyData_iff`: the data of a read has to be inside the packet and
  inside the buffer of the caller (`CopiesInside`).
* `client_iff` puts these together: a call of the client stays inside
  its objects if and only if the request fits into the packet buffer and
  what arrives is harmless.
-/

set_option autoImplicit false

namespace Alcor.Proofs.Rfs

open Lib (Mem Buf leVal)
open Alcor.Eluarpc Alcor.Rfs
open Alcor.Proofs.Eluarpc

variable {bytes : List UInt8} {m : Mem}

/-! ### What arrives -/

/-- What the bytes on the line come to when a response is received. -/
inductive Reception (σ : Type) where
  /-- Too few bytes, or no length in front. -/
  | broken
  /-- More bytes than the packet buffer has. -/
  | overflow
  /-- A packet, and the line behind it. -/
  | packet (bytes : List UInt8) (s : σ)

def Reception.isOverflow {σ : Type} : Reception σ → Bool
  | .overflow => true
  | _         => false

/-- The first bytes are those of a length. -/
def SizeOk (start : List UInt8) : Prop :=
  start.length = ELUARPC_START_OFFSET ∧ start.take 2 = [TYPE_PKT_SIZE, TYPE_INT_16]

instance (start : List UInt8) : Decidable (SizeOk start) := inferInstanceAs (Decidable (_ ∧ _))

/-- What arrives in a packet buffer of `room` bytes. -/
def reception {σ : Type} (link : Link σ) (room : Nat) (s : σ) : Reception σ :=
  let start := link.recv ELUARPC_START_OFFSET s
  if SizeOk start.1 then
    let size := restSize (UInt16.ofNat (leVal (start.1.drop 2)))
    let rest := link.recv size start.2
    if room < ELUARPC_START_OFFSET + rest.1.length then .overflow
    else if rest.1.length = size then .packet (start.1 ++ rest.1) rest.2
    else .broken
  else .broken

/-- A packet that arrives fits into the packet buffer. -/
theorem length_reception_le {σ : Type} {link : Link σ} {room : Nat} {s s' : σ}
    (h : reception link room s = .packet bytes s') : bytes.length ≤ room := by
  rw [reception] at h
  simp only at h
  split at h
  · next hok =>
      split at h
      · cases h
      · next hroom =>
          split at h
          · rw [Reception.packet.injEq] at h
            rw [← h.1, List.length_append, hok.1]
            omega
          · cases h
  · cases h

/-- The bytes of a packet as an object of their own. -/
def packetBuf (bytes : List UInt8) : Buf := ⟨fun a => bytes.getD a 0, bytes.length⟩

theorem packetBuf_holds (bytes : List UInt8) : (packetBuf bytes).mem.Holds 0 bytes := by
  rw [Mem.holds_iff_getElem]
  intro k hk
  simp [packetBuf, List.getD_eq_getElem?_getD, List.getElem?_eq_getElem hk]

/-- A buffer that holds a packet is as good as the packet. -/
theorem agree_packetBuf (h : m.Holds 0 bytes) :
    Mem.Agree m (packetBuf bytes).mem 0 bytes.length := by
  have hpacket := packetBuf_holds bytes
  rw [Mem.holds_iff_getElem] at h hpacket
  intro x _ hx
  have hm := h x hx
  have hp := hpacket x hx
  rw [Nat.zero_add] at hm hp
  rw [hm, hp]

/-- The reader stays in the packet. -/
def ReadsInside (format : List Specifier) (bytes : List UInt8) : Prop :=
  ITEMS_OFFSET ≤ bytes.length ∧ Inside (packetBuf bytes).mem bytes.length format ITEMS_OFFSET

/-- The bytes that the reader checks are right. -/
def WellFormed (format : List Specifier) (bytes : List UInt8) : Prop :=
  markOk (packetBuf bytes).mem ELUARPC_START_OFFSET TYPE_START PACKET_SIG = true ∧
    itemsOk (packetBuf bytes).mem format ITEMS_OFFSET = true

section Link
variable {σ : Type} {link : Link σ}

/-- The length in front of a packet. -/
theorem getPacketSize_start {start : List UInt8} (h : m.Holds 0 start)
    (hlen : start.length = ELUARPC_START_OFFSET) :
    eluarpcGetPacketSize ⟨m, start.length⟩ =
      some (!decide (start.take 2 = [TYPE_PKT_SIZE, TYPE_INT_16]),
        UInt16.ofNat (leVal (start.drop 2))) := by
  match start, hlen with
  | [a, b, c, d], _ =>
    simp only [Mem.holds_cons, Nat.zero_add, Nat.reduceAdd, Mem.holds_nil, and_true] at h
    obtain ⟨ha, hb, hc, hd⟩ := h
    rw [getPacketSize_eq]
    have hread : m.read 2 2 = [c, d] := by
      rw [Mem.read_succ, Mem.read_succ, Mem.read_zero, hc, hd]
    simp only [ELUARPC_START_OFFSET, List.length_cons, List.length_nil, Nat.reduceAdd,
      Nat.le_refl, if_true, ha, hb, hread, List.take_succ_cons, List.take_zero,
      List.drop_succ_cons, List.drop_zero, List.cons.injEq, and_true, Option.some.injEq,
      Prod.mk.injEq]
    by_cases h1 : a = TYPE_PKT_SIZE <;> by_cases h2 : b = TYPE_INT_16 <;> simp [h1, h2]

/-- The client gets what the line comes to. -/
theorem readResponse_spec (link : Link σ) (c : Client σ)
    (hroom : ELUARPC_START_OFFSET ≤ c.buf.size) :
    match reception link c.buf.size c.line with
    | .broken       => ∃ c', readResponsePacket link c = some (false, c')
    | .overflow     => readResponsePacket link c = none
    | .packet bs s  => ∃ c', readResponsePacket link c = some (true, c') ∧ c'.line = s ∧
        c'.received = bs.length ∧ c'.buf.mem.Holds 0 bs ∧ c'.buf.size = c.buf.size := by
  have hle := link.recv_le ELUARPC_START_OFFSET c.line
  rw [reception, readResponsePacket]
  generalize link.recv ELUARPC_START_OFFSET c.line = start at hle ⊢
  have hput : c.buf.put? 0 start.1 = some { c.buf with mem := c.buf.mem.store 0 start.1 } :=
    Buf.put?_of_le (by omega)
  simp only [hput, Option.bind_some]
  by_cases hlen : start.1.length = ELUARPC_START_OFFSET
  · -- a length may be there
    have hholds : (c.buf.mem.store 0 start.1).Holds 0 start.1 := Mem.holds_store_self _ _ _
    have hfour : ¬ start.1.length ≠ ELUARPC_START_OFFSET := fun h => h hlen
    simp only [if_neg hfour, getPacketSize_start hholds hlen, Option.bind_some]
    by_cases hstart : start.1.take 2 = [TYPE_PKT_SIZE, TYPE_INT_16]
    · rw [if_pos (show SizeOk start.1 from ⟨hlen, hstart⟩)]
      simp only [hstart, decide_true, Bool.not_true, Bool.false_eq_true, if_false, readRest]
      generalize link.recv (restSize (UInt16.ofNat (leVal (start.1.drop 2)))) start.2 = rest
      by_cases hfit : c.buf.size < ELUARPC_START_OFFSET + rest.1.length
      · have hnone : Buf.put? ⟨c.buf.mem.store 0 start.1, c.buf.size⟩ ELUARPC_START_OFFSET
            rest.1 = none := Buf.put?_eq_none.mpr hfit
        simp only [if_pos hfit, hnone, Option.map_none]
      · have hsome : Buf.put? ⟨c.buf.mem.store 0 start.1, c.buf.size⟩ ELUARPC_START_OFFSET
            rest.1 = some ⟨(c.buf.mem.store 0 start.1).store ELUARPC_START_OFFSET rest.1,
              c.buf.size⟩ := Buf.put?_of_le (Nat.le_of_not_lt hfit)
        simp only [if_neg hfit, hsome, Option.map_some]
        by_cases hwhole : rest.1.length = restSize (UInt16.ofNat (leVal (start.1.drop 2)))
        · simp only [if_pos hwhole, decide_eq_true hwhole]
          refine ⟨_, rfl, rfl, ?_, ?_, rfl⟩
          · rw [List.length_append, hlen]
          · have hoffset : ELUARPC_START_OFFSET = 0 + start.1.length := by
              rw [hlen, Nat.zero_add]
            have hjoin := Mem.store_append c.buf.mem 0 start.1 rest.1
            rw [← hoffset] at hjoin
            simp only [hjoin]
            exact Mem.holds_store_self _ _ _
        · simp only [if_neg hwhole, decide_eq_false hwhole]
          exact ⟨_, rfl⟩
    · rw [if_neg (show ¬ SizeOk start.1 from fun h => hstart h.2)]
      simp only [hstart, decide_false, Bool.not_false, if_true]
      exact ⟨_, rfl⟩
  · rw [if_neg (show ¬ SizeOk start.1 from fun h => hlen h.1)]
    simp only [if_pos (show start.1.length ≠ ELUARPC_START_OFFSET from hlen)]
    exact ⟨_, rfl⟩

/-! ### What is sent -/

/-- The request is still there after the receive buffer was emptied. -/
def Clean (stale : List UInt8) : Prop := ∀ b ∈ stale.getLast?, b = TYPE_PKT_SIZE

instance (stale : List UInt8) : Decidable (Clean stale) :=
  inferInstanceAs (Decidable (∀ b ∈ stale.getLast?, b = TYPE_PKT_SIZE))

theorem store_store_singleton (m : Mem) (a b : UInt8) :
    (m.store 0 [a]).store 0 [b] = m.store 0 [b] := by
  funext x
  cases x with
  | zero => rfl
  | succ x =>
    have hge : ∀ y : UInt8, 0 + [y].length ≤ x + 1 := fun y => Nat.le_add_left 1 x
    rw [Mem.store_of_ge _ _ _ (hge b), Mem.store_of_ge _ _ _ (hge a),
      Mem.store_of_ge _ _ _ (hge b)]

/-- Only the last byte that was thrown away is left. -/
theorem emptyReceiveBuffer_eq (c : Client σ) (hroom : 0 < c.buf.size) :
    emptyReceiveBuffer link c = some { c with
      buf := { c.buf with
        mem := (link.pending c.line).1.getLast?.elim c.buf.mem fun b => c.buf.mem.store 0 [b] },
      line := (link.pending c.line).2 } := by
  have hput : ∀ (m : Mem) (b : UInt8), Buf.put? ⟨m, c.buf.size⟩ 0 [b] =
      some ⟨m.store 0 [b], c.buf.size⟩ := fun m b => Buf.put?_of_le hroom
  have hfold : ∀ (stale : List UInt8) (m : Mem),
      stale.foldl (fun (buf : Option Buf) b => buf.bind fun buf => buf.put? 0 [b])
          (some (Buf.mk m c.buf.size)) =
        some (Buf.mk (stale.getLast?.elim m fun b => m.store 0 [b]) c.buf.size) := by
    intro stale
    induction stale using List.reverseRecOn with
    | nil => exact fun m => rfl
    | append_singleton stale b ih =>
      intro m
      rw [List.foldl_append, ih, List.foldl_cons, List.foldl_nil, Option.bind_some, hput,
        List.getLast?_concat]
      cases stale.getLast? with
      | none => rfl
      | some a =>
        exact congrArg (fun m => some (Buf.mk m c.buf.size)) (store_store_singleton m a b)
  rw [emptyReceiveBuffer]
  have hempty := hfold (link.pending c.line).1 c.buf.mem
  simp only [hempty, Option.map_some]

/-- A byte that was thrown away takes the place of the first byte of the request, and nothing is
sent. -/
theorem sendRequest_dirty (link : Link σ) (c : Client σ) (hroom : 4 ≤ c.buf.size)
    (hdirty : ¬ Clean (link.pending c.line).1) :
    ∃ c', sendRequest link c = some (false, c') ∧ c'.line = (link.pending c.line).2 := by
  rw [sendRequest, emptyReceiveBuffer_eq c (by omega), Option.bind_some, getPacketSize_eq]
  simp only [Clean, not_forall] at hdirty
  obtain ⟨b, hb, hne⟩ := hdirty
  rw [Option.mem_def] at hb
  have hbyte : c.buf.mem.store 0 [b] 0 = b := rfl
  simp only [ELUARPC_START_OFFSET, if_pos hroom, hb, Option.elim_some, Option.bind_some, hbyte,
    beq_eq_false_iff_ne.mpr hne, Bool.false_and, Bool.not_false, if_true]
  exact ⟨_, rfl, rfl⟩

/-- Else the request is sent. -/
theorem sendRequest_clean (link : Link σ) (c : Client σ) (n : Nat)
    (hsize : c.buf.mem.Holds 0 (sizeBytes n)) (hn : n ≤ c.buf.size)
    (hroom : 4 ≤ c.buf.size) (hlt : n < 65536) (hclean : Clean (link.pending c.line).1) :
    sendRequest link c =
      (let sent := link.send (c.buf.mem.read 0 n) (link.pending c.line).2
       some (decide (sent.1 = UInt32.ofNat n), { c with line := sent.2 })) := by
  have hkeep : ((link.pending c.line).1.getLast?.elim c.buf.mem fun b => c.buf.mem.store 0 [b]) =
      c.buf.mem := by
    cases hlast : (link.pending c.line).1.getLast? with
    | none => rfl
    | some b =>
      have hb := hclean b (by rw [Option.mem_def, hlast])
      rw [sizeBytes, Mem.holds_cons] at hsize
      refine Mem.store_eq_self ?_
      rw [Mem.holds_cons, hb]
      exact ⟨hsize.1, rfl⟩
  have hhalf : UInt16.ofNat (leVal (c.buf.mem.read 2 2)) = UInt16.ofNat n := by
    rw [sizeBytes, halfBytes, Mem.holds_cons, Mem.holds_cons] at hsize
    exact half_of_holds hsize.2.2
  have htag : (c.buf.mem 0 == TYPE_PKT_SIZE && c.buf.mem 1 == TYPE_INT_16) = true := by
    rw [sizeBytes, halfBytes, Mem.holds_cons, Mem.holds_cons] at hsize
    rw [hsize.1, hsize.2.1]
    rfl
  have hnat : (UInt16.ofNat n).toNat = n := UInt16.toNat_ofNat_of_lt' hlt
  have hword : (UInt16.ofNat n).toUInt32 = UInt32.ofNat n := by
    rw [← UInt32.toNat_inj, UInt16.toNat_toUInt32, hnat,
      UInt32.toNat_ofNat_of_lt' (Nat.lt_trans hlt (by decide))]
  rw [sendRequest, emptyReceiveBuffer_eq c (by omega), Option.bind_some, hkeep, getPacketSize_eq]
  simp only [ELUARPC_START_OFFSET, if_pos hroom, Option.bind_some, htag, Bool.not_true,
    Bool.false_eq_true, if_false, hhalf, hnat, if_neg (Nat.not_lt.mpr hn), hword]

/-- A request that is not sent gets no response. -/
theorem send_dirty (link : Link σ) (c : Client σ) (hroom : 4 ≤ c.buf.size)
    (hdirty : ¬ Clean (link.pending c.line).1) :
    ∃ c', rfschSendRequestReadResponse link c = some (false, c') := by
  obtain ⟨c', hsent, -⟩ := sendRequest_dirty link c hroom hdirty
  rw [rfschSendRequestReadResponse_eq, hsent]
  exact ⟨c', rfl⟩

/-- The response is received when all of the request was sent. -/
theorem send_clean (link : Link σ) (c : Client σ) (n : Nat)
    (hsize : c.buf.mem.Holds 0 (sizeBytes n)) (hn : n ≤ c.buf.size)
    (hroom : 4 ≤ c.buf.size) (hlt : n < 65536) (hclean : Clean (link.pending c.line).1) :
    rfschSendRequestReadResponse link c =
      (let sent := link.send (c.buf.mem.read 0 n) (link.pending c.line).2
       if sent.1 ≠ UInt32.ofNat n then some (false, { c with line := sent.2 })
       else readResponsePacket link { c with line := sent.2 }) := by
  rw [rfschSendRequestReadResponse_eq, sendRequest_clean link c n hsize hn hroom hlt hclean]
  by_cases hall : (link.send (c.buf.mem.read 0 n) (link.pending c.line).2).1 = UInt32.ofNat n <;>
    simp [hall]

/-! ### One exchange -/

/-- What has to hold of the bytes that arrive: they fit into the packet buffer, the reader stays in
the packet, and what is done with the values of a well-formed packet stays inside too. -/
def Harmless {σ : Type} (link : Link σ) (room : Nat) (format : List Specifier)
    (copies : List UInt8 → Prop) (s : σ) : Prop :=
  match reception link room s with
  | .broken      => True
  | .overflow    => False
  | .packet bs _ => ReadsInside format bs ∧ (WellFormed format bs → copies bs)

/-- The request goes out: it is intact, and all of it is sent. Then the line is as given. -/
def Sent {σ : Type} (link : Link σ) (packet : List UInt8) (s s' : σ) : Prop :=
  Clean (link.pending s).1 ∧
    link.send packet (link.pending s).2 = (UInt32.ofNat packet.length, s')

instance (format : List Specifier) (bytes : List UInt8) : Decidable (ReadsInside format bytes) :=
  inferInstanceAs (Decidable (_ ∧ _))

instance (format : List Specifier) (bytes : List UInt8) : Decidable (WellFormed format bytes) :=
  inferInstanceAs (Decidable (_ ∧ _))

/-- What is decoded of a packet that stands in a buffer. -/
theorem genRead_packet (format : List Specifier) (h : m.Holds 0 bytes)
    (hlt : bytes.length < 2 ^ 32) :
    eluarpcGenRead ⟨m, bytes.length⟩ format =
      if ReadsInside format bytes then
        some (!decide (WellFormed format bytes),
          itemsValue (packetBuf bytes).mem format ITEMS_OFFSET)
      else none := by
  have hcongr : genReadTo ⟨m, bytes.length⟩ format = genReadTo (packetBuf bytes) format :=
    genReadTo_congr (Eq.refl bytes.length : (Buf.mk m bytes.length).size = (packetBuf bytes).size)
      (agree_packetBuf h) format
  have hread : genReadTo (packetBuf bytes) format = if ReadsInside format bytes then
        some (itemsValue (packetBuf bytes).mem format ITEMS_OFFSET,
          ⟨itemsEnd (packetBuf bytes).mem format ITEMS_OFFSET,
            !(markOk (packetBuf bytes).mem ELUARPC_START_OFFSET TYPE_START PACKET_SIG
              && itemsOk (packetBuf bytes).mem format ITEMS_OFFSET)⟩)
      else none := genReadTo_eq (packetBuf bytes) hlt format
  have hwell : decide (WellFormed format bytes) =
      (markOk (packetBuf bytes).mem ELUARPC_START_OFFSET TYPE_START PACKET_SIG
        && itemsOk (packetBuf bytes).mem format ITEMS_OFFSET) := by
    rw [Bool.eq_iff_iff, decide_eq_true_iff, Bool.and_eq_true]
    rfl
  rw [eluarpcGenRead, hcongr, hread, hwell]
  split <;> rfl

section Exchange
variable {c : Client σ} {request : List Item} {format : List Specifier}

/-- The client with the request in the packet buffer. -/
def written (c : Client σ) (request : List Item) : Client σ :=
  { c with buf := ⟨packetMem c.buf.mem request, c.buf.size⟩ }

/-- The bytes of the request. -/
def requestBytes (m : Mem) (request : List Item) : List UInt8 :=
  (packetMem m request).read 0 (packetSize request)

theorem four_le_packetSize (request : List Item) : 4 ≤ packetSize request := by
  rw [packetSize, ITEMS_OFFSET, ELUARPC_START_OFFSET, ELUARPC_START_SIZE]
  omega

section Request
variable (hsrc : ∀ it ∈ request, it.Sourced) (hfits : packetSize request ≤ c.buf.size)
  (hlt : c.buf.size < 65536)
include hsrc hfits hlt

theorem exchange_eq : exchange link c request format =
    (rfschSendRequestReadResponse link (written c request)).bind fun r =>
        if r.1 then
          (eluarpcGenRead ⟨r.2.buf.mem, r.2.received⟩ format).map fun vs =>
            (if vs.1 then none else some vs.2, r.2)
        else some (none, r.2) := by
  rw [exchange, genWrite_eq c.buf (Nat.lt_trans hlt (by decide)) hsrc hfits, Option.bind_some]
  rfl

/-- A request that does not go out is an error. -/
theorem exchange_unsent (hunsent : ∀ s, ¬ Sent link (requestBytes c.buf.mem request) c.line s) :
    ∃ c', exchange link c request format = some (none, c') := by
  have hfour := four_le_packetSize request
  rw [exchange_eq hsrc hfits hlt]
  by_cases hclean : Clean (link.pending c.line).1
  · rw [send_clean link (written c request) (packetSize request) (packetMem_holds _ _).1 hfits
      (Nat.le_trans hfour hfits) (Nat.lt_of_le_of_lt hfits hlt) hclean]
    have hne : (link.send ((written c request).buf.mem.read 0 (packetSize request))
        (link.pending (written c request).line).2).1 ≠ UInt32.ofNat (packetSize request) := by
      intro heq
      refine hunsent (link.send (requestBytes c.buf.mem request) (link.pending c.line).2).2
        ⟨hclean, ?_⟩
      rw [requestBytes, Mem.length_read, ← heq]
      rfl
    simp only [if_pos hne, Option.bind_some, Bool.false_eq_true, if_false]
    exact ⟨_, rfl⟩
  · obtain ⟨c', hc'⟩ := send_dirty link (written c request)
      (Nat.le_trans hfour hfits) hclean
    rw [hc']
    exact ⟨c', rfl⟩

variable {s : σ} (hsent : Sent link (requestBytes c.buf.mem request) c.line s)
include hsent

theorem exchange_sent : exchange link c request format =
    (readResponsePacket link { written c request with line := s }).bind fun r =>
        if r.1 then
          (eluarpcGenRead ⟨r.2.buf.mem, r.2.received⟩ format).map fun vs =>
            (if vs.1 then none else some vs.2, r.2)
        else some (none, r.2) := by
  have hfour := four_le_packetSize request
  obtain ⟨hclean, hsend⟩ := hsent
  rw [requestBytes, Mem.length_read] at hsend
  have hsend' : link.send ((written c request).buf.mem.read 0 (packetSize request))
      (link.pending (written c request).line).2 = (UInt32.ofNat (packetSize request), s) := hsend
  rw [exchange_eq hsrc hfits hlt, send_clean link (written c request) (packetSize request)
    (packetMem_holds _ _).1 hfits (Nat.le_trans hfour hfits) (Nat.lt_of_le_of_lt hfits hlt) hclean]
  simp only [hsend', ne_eq, not_true_eq_false, if_false]

theorem exchange_broken (hline : reception link c.buf.size s = .broken) :
    ∃ c', exchange link c request format = some (none, c') := by
  have hspec := readResponse_spec link
    { written c request with line := s }
    (Nat.le_trans (four_le_packetSize request) hfits)
  rw [show reception link ({ written c request with line := s } : Client σ).buf.size s = _ from
    hline] at hspec
  obtain ⟨c', hc'⟩ := hspec
  rw [exchange_sent hsrc hfits hlt hsent, hc']
  exact ⟨c', rfl⟩

theorem exchange_overflow (hline : reception link c.buf.size s = .overflow) :
    exchange link c request format = none := by
  have hspec := readResponse_spec link
    { written c request with line := s }
    (Nat.le_trans (four_le_packetSize request) hfits)
  rw [show reception link ({ written c request with line := s } : Client σ).buf.size s = _ from
    hline] at hspec
  rw [exchange_sent hsrc hfits hlt hsent, hspec]
  rfl

/-- A packet that arrives is decoded where it stands. -/
theorem exchange_packet {s' : σ} (hline : reception link c.buf.size s = .packet bytes s')
    (format : List Specifier) :
    ∃ c', c'.line = s' ∧ c'.received = bytes.length ∧ c'.buf.mem.Holds 0 bytes ∧
      c'.buf.size = c.buf.size ∧ exchange link c request format =
        if ReadsInside format bytes then
          some (if WellFormed format bytes then
              some (itemsValue (packetBuf bytes).mem format ITEMS_OFFSET) else none, c')
        else none := by
  have hspec := readResponse_spec link
    { written c request with line := s }
    (Nat.le_trans (four_le_packetSize request) hfits)
  rw [show reception link ({ written c request with line := s } : Client σ).buf.size s = _ from
    hline] at hspec
  obtain ⟨c', hc', hs', hreceived, hholds, hsize⟩ := hspec
  have hlen := length_reception_le hline
  refine ⟨c', hs', hreceived, hholds, hsize, ?_⟩
  rw [exchange_sent hsrc hfits hlt hsent, hc', Option.bind_some, hreceived,
    genRead_packet format hholds (by omega)]
  by_cases hinside : ReadsInside format bytes
  · by_cases hwell : WellFormed format bytes <;> simp [hinside, hwell]
  · simp [hinside]

end Request

theorem sent_unique {packet : List UInt8} {s s1 s2 : σ} (h1 : Sent link packet s s1)
    (h2 : Sent link packet s s2) : s1 = s2 := by
  have heq := h1.2.symm.trans h2.2
  rw [Prod.mk.injEq] at heq
  exact heq.2

/-- How an exchange ends whose request fits: with an error and nothing to harm, outside an object,
or with the values of a packet. -/
theorem exchange_cases (link : Link σ) (format : List Specifier) (hsrc : ∀ it ∈ request, it.Sourced)
    (hfits : packetSize request ≤ c.buf.size) (hlt : c.buf.size < 65536) :
    ((∃ c', exchange link c request format = some (none, c')) ∧
      ∀ copies s, Sent link (requestBytes c.buf.mem request) c.line s →
        Harmless link c.buf.size format copies s) ∨
    (exchange link c request format = none ∧
      ∃ s, Sent link (requestBytes c.buf.mem request) c.line s ∧
        ∀ copies, ¬ Harmless link c.buf.size format copies s) ∨
    ∃ s bytes s' c', Sent link (requestBytes c.buf.mem request) c.line s ∧
      reception link c.buf.size s = .packet bytes s' ∧ ReadsInside format bytes ∧
      WellFormed format bytes ∧ c'.received = bytes.length ∧ c'.buf.mem.Holds 0 bytes ∧
      eluarpcGenRead ⟨c'.buf.mem, c'.received⟩ format =
        some (false, itemsValue (packetBuf bytes).mem format ITEMS_OFFSET) ∧
      exchange link c request format =
        some (some (itemsValue (packetBuf bytes).mem format ITEMS_OFFSET), c') := by
  by_cases hsent : ∃ s, Sent link (requestBytes c.buf.mem request) c.line s
  · obtain ⟨s, hsent⟩ := hsent
    cases hline : reception link c.buf.size s with
    | broken =>
      refine .inl ⟨exchange_broken hsrc hfits hlt hsent hline, fun copies s' hs' => ?_⟩
      rw [sent_unique hs' hsent, Harmless, hline]
      trivial
    | overflow =>
      refine .inr (.inl ⟨exchange_overflow hsrc hfits hlt hsent hline, s, hsent, ?_⟩)
      intro copies hharmless
      rwa [Harmless, hline] at hharmless
    | packet bytes s' =>
      obtain ⟨c', -, hreceived, hholds, -, heq⟩ :=
        exchange_packet hsrc hfits hlt hsent hline format
      by_cases hinside : ReadsInside format bytes
      · rw [if_pos hinside] at heq
        by_cases hwell : WellFormed format bytes
        · rw [if_pos hwell] at heq
          have hlen : bytes.length < 2 ^ 32 :=
            Nat.lt_of_le_of_lt (length_reception_le hline) (Nat.lt_trans hlt (by decide))
          have hread := genRead_packet format hholds hlen
          rw [if_pos hinside, decide_eq_true hwell, Bool.not_true, ← hreceived] at hread
          exact .inr (.inr ⟨s, bytes, s', c', hsent, hline, hinside, hwell, hreceived, hholds,
            hread, heq⟩)
        · rw [if_neg hwell] at heq
          refine .inl ⟨⟨c', heq⟩, fun copies s'' hs'' => ?_⟩
          rw [sent_unique hs'' hsent, Harmless, hline]
          exact ⟨hinside, fun h => absurd h hwell⟩
      · rw [if_neg hinside] at heq
        refine .inr (.inl ⟨heq, s, hsent, fun copies hharmless => ?_⟩)
        rw [Harmless, hline] at hharmless
        exact hinside hharmless.1
  · refine .inl ⟨exchange_unsent hsrc hfits hlt fun s hs => hsent ⟨s, hs⟩, ?_⟩
    exact fun copies s hs => absurd ⟨s, hs⟩ hsent

end Exchange

/-! ### Calls -/

/-- The data of a read is inside the packet, and the buffer of the caller has room for it. -/
def CopiesInside : Call → List UInt8 → Prop
  | .read _ _ count, bytes =>
    let len := Specifier.dataLength (packetBuf bytes).mem (ITEMS_OFFSET + 1) .p
    ELUARPC_READ_BUF_OFFSET + len ≤ bytes.length ∧ len ≤ count.toNat
  | _, _                   => True

/-- The call stays inside its objects, and gives an error or what is decoded of the response. -/
def Robust (link : Link σ) (c : Client σ) (call : Call) : Prop :=
  ∃ v c', call.run link c = some (v, c') ∧
    (v = call.error ∨ ∃ vs, eluarpcGenRead ⟨c'.buf.mem, c'.received⟩ call.format =
      some (false, vs) ∧ v = call.value vs)

/-- The request fits, and what arrives is harmless when it was sent. -/
def Safe (link : Link σ) (c : Client σ) (call : Call) : Prop :=
  packetSize call.request ≤ c.buf.size ∧
    ∀ s, Sent link (requestBytes c.buf.mem call.request) c.line s →
      Harmless link c.buf.size call.format (CopiesInside call) s

theorem stringItem_sourced (name : Lib.CStr) : (stringItem name).Sourced := by
  intro bs hbs
  rw [Option.mem_some] at hbs
  rw [← hbs, List.length_append, List.length_singleton, UInt32.toNat_ofNat']
  exact Nat.mod_le _ _

/-- The items of every request have their data. -/
theorem request_sourced (call : Call) : ∀ it ∈ call.request, it.Sourced ∧ HasSource it := by
  have hstring : ∀ name : Lib.CStr, (stringItem name).Sourced ∧ HasSource (stringItem name) :=
    fun name => ⟨stringItem_sourced name, rfl⟩
  have hdata : ∀ buf : List UInt8, (Item.p (some buf) (UInt32.ofNat buf.length)).Sourced := by
    intro buf bs hbs
    rw [Option.mem_some] at hbs
    rw [← hbs, UInt32.toNat_ofNat']
    exact Nat.mod_le _ _
  cases call with
  | «open» pathname flags mode =>
    simp only [Call.request, openRequest, List.mem_cons, List.not_mem_nil, or_false]
    rintro it (rfl | rfl | rfl | rfl)
    · exact ⟨trivial, trivial⟩
    · exact hstring pathname
    · exact ⟨trivial, trivial⟩
    · exact ⟨trivial, trivial⟩
  | write fd buf =>
    simp only [Call.request, writeRequest, List.mem_cons, List.not_mem_nil, or_false]
    rintro it (rfl | rfl | rfl)
    · exact ⟨trivial, trivial⟩
    · exact ⟨trivial, trivial⟩
    · exact ⟨hdata buf, rfl⟩
  | opendir name =>
    simp only [Call.request, opendirRequest, List.mem_cons, List.not_mem_nil, or_false]
    rintro it (rfl | rfl)
    · exact ⟨trivial, trivial⟩
    · exact hstring name
  | lseek fd offset whence =>
    simp only [Call.request, lseekRequest, List.mem_cons, List.not_mem_nil, or_false]
    rintro it (rfl | rfl | rfl | rfl) <;> exact ⟨trivial, trivial⟩
  | read fd buf count =>
    simp only [Call.request, readRequest, List.mem_cons, List.not_mem_nil, or_false]
    rintro it (rfl | rfl | rfl) <;> exact ⟨trivial, trivial⟩
  | close fd =>
    simp only [Call.request, Alcor.Rfs.closeRequest, List.mem_cons, List.not_mem_nil, or_false]
    rintro it (rfl | rfl) <;> exact ⟨trivial, trivial⟩
  | readdir d =>
    simp only [Call.request, readdirRequest, List.mem_cons, List.not_mem_nil, or_false]
    rintro it (rfl | rfl) <;> exact ⟨trivial, trivial⟩
  | closedir d =>
    simp only [Call.request, closedirRequest, List.mem_cons, List.not_mem_nil, or_false]
    rintro it (rfl | rfl) <;> exact ⟨trivial, trivial⟩

variable {c : Client σ}

/-- A request that does not fit is written outside the packet buffer. -/
theorem exchange_eq_none {request : List Item} {format : List Specifier}
    (hsrc : ∀ it ∈ request, HasSource it) (hfits : ¬ packetSize request ≤ c.buf.size) :
    exchange link c request format = none := by
  cases hwrite : eluarpcGenWrite c.buf request with
  | none => rw [exchange, hwrite, Option.bind_none]
  | some buf => exact absurd (packetSize_le_of_genWrite hsrc hwrite) hfits

/-- The calls that copy nothing. -/
theorem rfsc_iff (call : Call) (hlt : c.buf.size < 65536)
    (hrun : call.run link c = rfsc link c call.request call.format call.value call.error)
    (hcopies : ∀ bytes, CopiesInside call bytes) : Robust link c call ↔ Safe link c call := by
  have hsrc := request_sourced call
  by_cases hfits : packetSize call.request ≤ c.buf.size
  · rcases exchange_cases link call.format (fun it hit => (hsrc it hit).1)
      hfits hlt with ⟨⟨c', heq⟩, hharmless⟩ | ⟨heq, s, hsent, hharm⟩ |
      ⟨s, bytes, s', c', hsent, hline, hinside, hwell, -, -, hread, heq⟩
    · refine ⟨fun _ => ⟨hfits, hharmless _⟩, fun _ => ⟨call.error, c', ?_, .inl rfl⟩⟩
      rw [hrun, rfsc, heq]
      rfl
    · refine ⟨fun ⟨v, c', hsome, _⟩ => ?_, fun h => absurd (h.2 s hsent) (hharm _)⟩
      rw [hrun, rfsc, heq] at hsome
      cases hsome
    · refine ⟨fun _ => ⟨hfits, fun s'' hs'' => ?_⟩, fun _ => ⟨_, c', ?_, .inr ⟨_, hread, rfl⟩⟩⟩
      · rw [sent_unique hs'' hsent, Harmless, hline]
        exact ⟨hinside, fun _ => hcopies bytes⟩
      · rw [hrun, rfsc, heq]
        rfl
  · refine ⟨fun ⟨v, c', hsome, _⟩ => ?_, fun h => absurd h.1 hfits⟩
    rw [hrun, rfsc, exchange_eq_none (fun it hit => (hsrc it hit).2) hfits] at hsome
    cases hsome

/-- Where the data of a read response is, and how long. -/
theorem readResponse_value (bytes : List UInt8) :
    itemsValue (packetBuf bytes).mem readResponseFormat ITEMS_OFFSET =
      ((), ((if Specifier.dataLength (packetBuf bytes).mem (ITEMS_OFFSET + 1) .p = 0 then none
          else some ELUARPC_READ_BUF_OFFSET),
        UInt32.ofNat (Specifier.dataLength (packetBuf bytes).mem (ITEMS_OFFSET + 1) .p)), ()) :=
  rfl

theorem copyData_value {buf : Mem} {count : UInt32} {c' : Client σ}
    {vs : Outs readResponseFormat} {r : Value × Mem × Client σ}
    (h : copyData buf count c' (some vs) = some r) :
    r.1 = .int vs.2.1.2.toInt32 ∧ r.2.2 = c' := by
  rw [copyData] at h
  split at h
  · rw [Option.map_eq_some_iff] at h
    obtain ⟨dest, -, rfl⟩ := h
    exact ⟨rfl, rfl⟩
  · cases h

/-- The data is copied when it is inside the packet and there is room for it. -/
theorem copyData_iff {c' : Client σ} (hreceived : c'.received = bytes.length)
    (hlong : ELUARPC_READ_BUF_OFFSET ≤ bytes.length) (buf : Mem) (count : UInt32) (fd : Int32) :
    (∃ r, copyData buf count c'
      (some (itemsValue (packetBuf bytes).mem readResponseFormat ITEMS_OFFSET)) = some r) ↔
      CopiesInside (.read fd buf count) bytes := by
  rw [readResponse_value, CopiesInside, copyData]
  generalize hlen : Specifier.dataLength (packetBuf bytes).mem (ITEMS_OFFSET + 1) .p = len
  have hlt : len < 2 ^ 32 := by
    rw [← hlen]
    exact leVal_read_lt _ _ _
  have hnat : (UInt32.ofNat len).toNat = len := UInt32.toNat_ofNat_of_lt' hlt
  simp only [hnat, hreceived]
  by_cases hzero : len = 0
  · -- nothing to copy
    subst hzero
    have hput : Buf.put? ⟨buf, count.toNat⟩ 0 [] = some ⟨buf.store 0 [], count.toNat⟩ :=
      Buf.put?_of_le (Nat.zero_le _)
    simp only [if_true, Option.getD_none, Nat.add_zero, Nat.zero_le, Mem.read_zero, hput,
      Option.map_some, hlong, true_and, iff_true]
    exact ⟨_, rfl⟩
  · simp only [if_neg hzero, Option.getD_some]
    by_cases hroom : ELUARPC_READ_BUF_OFFSET + len ≤ bytes.length
    · simp only [hroom, if_true, true_and, Buf.put?, Nat.zero_add, Mem.length_read]
      by_cases hcount : len ≤ count.toNat
      · simp only [hcount, if_true, iff_true]
        exact ⟨_, rfl⟩
      · simp [hcount]
    · simp [hroom]

/-- The call that copies the data. -/
theorem read_iff (hlt : c.buf.size < 65536) (fd : Int32) (buf : Mem) (count : UInt32) :
    Robust link c (.read fd buf count) ↔ Safe link c (.read fd buf count) := by
  have hsrc := request_sourced (.read fd buf count)
  have hrun : (Call.read fd buf count).run link c =
      ((exchange link c (Call.read fd buf count).request readResponseFormat).bind fun r =>
        copyData buf count r.2 r.1).map fun r => (r.1, r.2.2) := rfl
  by_cases hfits : packetSize (Call.read fd buf count).request ≤ c.buf.size
  · rcases exchange_cases link readResponseFormat
      (fun it hit => (hsrc it hit).1) hfits hlt with ⟨⟨c', heq⟩, hharmless⟩ |
      ⟨heq, s, hsent, hharm⟩ |
      ⟨s, bytes, s', c', hsent, hline, hinside, hwell, hreceived, hholds, hread, heq⟩
    · refine ⟨fun _ => ⟨hfits, hharmless _⟩, fun _ => ⟨.int (-1), c', ?_, .inl rfl⟩⟩
      rw [hrun, heq]
      rfl
    · refine ⟨fun ⟨v, c', hsome, _⟩ => ?_, fun h => absurd (h.2 s hsent) (hharm _)⟩
      rw [hrun, heq] at hsome
      cases hsome
    · -- the header of the data is in the packet
      have hlong : ELUARPC_READ_BUF_OFFSET ≤ bytes.length := hinside.2.2.1
      have hiff := copyData_iff hreceived hlong buf count fd
      rw [Safe]
      constructor
      · rintro ⟨v, d, hsome, -⟩
        refine ⟨hfits, fun s'' hs'' => ?_⟩
        rw [hrun, heq, Option.bind_some, Option.map_eq_some_iff] at hsome
        obtain ⟨r, hr, -⟩ := hsome
        rw [sent_unique hs'' hsent, Harmless, hline]
        exact ⟨hinside, fun _ => hiff.mp ⟨r, hr⟩⟩
      · rintro ⟨-, hsafe⟩
        have hs := hsafe s hsent
        rw [Harmless, hline] at hs
        obtain ⟨r, hr⟩ := hiff.mpr (hs.2 hwell)
        have hvalue := copyData_value hr
        refine ⟨r.1, r.2.2, ?_, .inr ⟨_, ?_, hvalue.1⟩⟩
        · rw [hrun, heq, Option.bind_some, hr]
          rfl
        · rw [hvalue.2]
          exact hread
  · refine ⟨fun ⟨v, c', hsome, _⟩ => ?_, fun h => absurd h.1 hfits⟩
    rw [hrun, exchange_eq_none (fun it hit => (hsrc it hit).2) hfits] at hsome
    cases hsome

/-- A call of the client stays inside its objects if and only if its
request fits into the packet buffer and what arrives is harmless,
whatever bytes that is. All calls but one are a request and a
response, so there is one lemma for them. -/
theorem client_iff (k : Fin 16) (link : Link σ) (m : Mem) (s : σ) (call : Call) :
    Robust link ⟨⟨m, 2 ^ k.val⟩, s, 0⟩ call ↔ Safe link ⟨⟨m, 2 ^ k.val⟩, s, 0⟩ call := by
  have hlt : 2 ^ k.val < 65536 := Nat.pow_lt_pow_right (by decide) k.isLt
  cases call with
  | «open» pathname flags mode => exact rfsc_iff _ hlt rfl fun _ => trivial
  | write fd buf => exact rfsc_iff _ hlt rfl fun _ => trivial
  | read fd buf count => exact read_iff hlt fd buf count
  | lseek fd offset whence => exact rfsc_iff _ hlt rfl fun _ => trivial
  | close fd => exact rfsc_iff _ hlt rfl fun _ => trivial
  | opendir name => exact rfsc_iff _ hlt rfl fun _ => trivial
  | readdir d => exact rfsc_iff _ hlt rfl fun _ => trivial
  | closedir d => exact rfsc_iff _ hlt rfl fun _ => trivial

end Link

/-- Nothing is in the receive buffer when the request is sent. -/
theorem sent_arrivals (packet : List UInt8) (es : List (Option UInt8)) :
    Sent (arrivals true id) packet (none :: es) es :=
  ⟨fun b hb => absurd hb (by simp [arrivals, stale]), rfl⟩

theorem not_safe_of_overflow {es : List (Option UInt8)}
    (h : (reception (arrivals true id) (2 ^ 9) es).isOverflow = true) :
    ¬ Safe (arrivals true id) ⟨⟨fun _ => 0, 2 ^ 9⟩, none :: es, 0⟩ (.close 1) := by
  intro hsafe
  have hharmless := hsafe.2 es (sent_arrivals _ es)
  rw [Harmless] at hharmless
  cases hline : reception (arrivals true id) (2 ^ 9) es with
  | broken =>
    rw [hline] at h
    cases h
  | overflow =>
    rw [show reception (arrivals true id) _ es = _ from hline] at hharmless
    exact hharmless
  | packet bs s =>
    rw [hline] at h
    cases h

/-- A length of 600, and as many bytes. -/
def longResponse : List (Option UInt8) :=
  ([TYPE_PKT_SIZE, TYPE_INT_16, 0x58, 0x02] ++ List.replicate 596 0).map some

set_option maxRecDepth 20000 in
theorem longResponse_overflow :
    (reception (arrivals true id) (2 ^ 9) longResponse).isOverflow = true := by
  decide +kernel

/-- Not every line is harmless. -/
theorem not_robust : ¬ ∀ (k : Fin 16) (empties : Bool) (sent : UInt32 → UInt32)
    (es : List (Option UInt8)) (m : Mem) (call : Call), packetSize call.request ≤ 2 ^ k.val →
    Robust (arrivals empties sent) ⟨⟨m, 2 ^ k.val⟩, es, 0⟩ call := by
  intro h
  have hrobust := h 9 true id (none :: longResponse) (fun _ => 0) (.close 1) (by decide)
  exact not_safe_of_overflow longResponse_overflow
    ((rfsc_iff (.close 1) (show 2 ^ 9 < 65536 by decide) rfl fun _ => trivial).mp hrobust)

end Alcor.Proofs.Rfs
