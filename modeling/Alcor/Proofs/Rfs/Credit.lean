import Alcor.Proofs.Rfs.Refinement
import Alcor.Rfs.Remote

/-!
# `Alcor.Proofs.Rfs.Credit`: whose response a call gets

A request has no number, so a response that comes late is taken for
that to the next request. The client throws away what has arrived
before it sends a request. If nothing of an earlier response is under
way then, what it decodes is the response to its own request
(`own_response`).
-/

set_option autoImplicit false

namespace Alcor.Proofs.Rfs

open Lib (Mem Buf CStr leVal)
open Alcor.Eluarpc Alcor.Rfs
open Alcor.Proofs.Eluarpc

/-- The values are those of the response that the server makes to this request. -/
def Produced {σ : Type} (os : Os σ) (srv : Server σ) (request : List UInt8)
    (format : List Specifier) (vs : Outs format) : Prop :=
  ∃ reply srv', serve os srv request = some (reply, srv') ∧ ReadsInside format reply ∧
    WellFormed format reply ∧ vs = itemsValue (packetBuf reply).mem format ITEMS_OFFSET

section Line
variable {σ : Type} {os : Os σ} {sched : Schedule}

/-- What is sent has its length in front. -/
theorem serve_length {srv srv' : Server σ} {request reply : List UInt8}
    (h : serve os srv request = some (reply, srv')) (hfour : ELUARPC_START_OFFSET ≤ reply.length) :
    reply.length = (UInt16.ofNat (leVal ((reply.drop 2).take 2))).toNat := by
  rw [serve] at h
  split at h
  · obtain ⟨done, -, h⟩ := Option.bind_eq_some_iff.mp h
    simp only [rfsBuffer, getPacketSize_eq,
      if_pos (show ELUARPC_START_OFFSET ≤ RFS_BUFFER_BYTES by decide), Option.bind_some] at h
    split at h
    · cases h
      exact absurd hfour (by decide)
    · split at h
      · rw [Option.some.injEq, Prod.mk.injEq] at h
        obtain ⟨rfl, -⟩ := h
        rw [Mem.length_read] at hfour ⊢
        have hhalf : (((done.2.mem.read 0 (UInt16.ofNat (leVal (done.2.mem.read 2 2))).toNat).drop
            2).take 2) = done.2.mem.read 2 2 := by
          generalize (UInt16.ofNat (leVal (done.2.mem.read 2 2))).toNat = n at hfour
          rw [ELUARPC_START_OFFSET] at hfour
          have hsplit := Mem.read_add done.2.mem 0 2 (n - 2)
          rw [Nat.add_sub_cancel' (by omega), Nat.zero_add] at hsplit
          rw [hsplit, List.drop_left' (Mem.length_read _ _ _), Mem.take_read _ _ (by omega)]
        rw [hhalf]
      · cases h
  · cases h

/-- A packet that arrives when only this is under way is all of it. -/
theorem reception_whole {room : Nat} {w w' : Delayed σ} (reply : List UInt8) {bytes : List UInt8}
    (h : reception (delayedLink os sched) room w = .packet bytes w') (harrived : w.arrived = [])
    (hway : w.underWay = reply) (hlength : ELUARPC_START_OFFSET ≤ reply.length →
      reply.length = (UInt16.ofNat (leVal ((reply.drop 2).take 2))).toNat) : bytes = reply := by
  rw [reception] at h
  simp only [delayedLink, Delayed.arrive, harrived, hway, List.nil_append] at h
  generalize sched.arrives w.step = k at h
  generalize sched.arrives (w.step + 1) = l at h
  split at h
  · rename_i hok
    split at h
    · cases h
    · split at h
      · rename_i hrest
        rw [Reception.packet.injEq] at h
        have hfour := hok.1
        rw [ELUARPC_START_OFFSET] at *
        rw [List.length_take, List.length_take] at hfour
        have hstart : (reply.take k).take 4 = reply.take 4 := by
          rw [List.take_take, Nat.min_eq_left (by omega)]
        have hsize : reply.length =
            (UInt16.ofNat (leVal ((reply.drop 2).take 2))).toNat := hlength (by omega)
        have hhalf : ((reply.take 4).drop 2) = (reply.drop 2).take 2 := List.drop_take
        -- what is behind the length is the front of the rest of the response
        have hfront : ((reply.take k).drop 4 ++ (reply.drop k).take l) = (reply.drop 4).take
            (k + l - 4) := by
          rw [← List.drop_take, List.take_add, List.drop_append_of_le_length
            (by rw [List.length_take]; omega)]
        rw [hstart, hhalf, hfront] at hrest h
        have hbehind : restSize (UInt16.ofNat (leVal ((reply.drop 2).take 2))) =
            (reply.drop 4).length := by
          rw [restSize, ← hsize, List.length_drop, ELUARPC_START_OFFSET]
          have hlt := (UInt16.ofNat (leVal ((reply.drop 2).take 2))).toNat_lt
          omega
        rw [hbehind] at hrest h
        have hwhole : ((reply.drop 4).take (k + l - 4)).take (reply.drop 4).length =
            reply.drop 4 :=
          ((List.take_prefix _ _).trans (List.take_prefix _ _)).eq_of_length hrest
        rw [← h.1, hwhole, List.take_append_drop]
      · cases h
  · cases h

/-- A packet that arrives is what the server has sent, if nothing else is under way. -/
theorem reply_of_reception {room : Nat} {w s' : Delayed σ} {request bytes : List UInt8}
    {format : List Specifier} (hquiet : ((delayedLink os sched).pending w).2.underWay = [])
    (hline : reception (delayedLink os sched) room
      (Delayed.answer os sched ((delayedLink os sched).pending w).2 request) = .packet bytes s')
    (hinside : ReadsInside format bytes) :
    ∃ srv reply srv', w.server = some srv ∧ serve os srv request = some (reply, srv') ∧
      reply = bytes := by
  have hbytes : bytes ≠ [] := by
    rintro rfl
    exact absurd hinside.1 (by decide)
  obtain ⟨q, hq⟩ : ∃ q, q = ((delayedLink os sched).pending w).2 := ⟨_, rfl⟩
  have harrived : q.arrived = [] := by rw [hq]; rfl
  have hserver : q.server = w.server := by rw [hq]; rfl
  rw [← hq] at hline hquiet
  rw [Delayed.answer] at hline
  split at hline
  · -- nothing is sent
    exact absurd (reception_whole [] hline harrived hquiet fun h => absurd h (by decide)) hbytes
  · rename_i reply srv' hserve
    obtain ⟨srv, hsrv, hserve⟩ := Option.bind_eq_some_iff.mp hserve
    refine ⟨srv, reply, srv', hserver.symm.trans hsrv, hserve, ?_⟩
    cases hlost : sched.lost q.step with
    | true =>
      simp only [hlost, hquiet, if_true, List.append_nil] at hline
      exact absurd (reception_whole [] hline harrived rfl fun h => absurd h (by decide)) hbytes
    | false =>
      simp only [hlost, hquiet, Bool.false_eq_true, if_false, List.nil_append] at hline
      exact (reception_whole reply hline harrived rfl (serve_length hserve)).symm

/-- What a call decodes is the response to its own request, if nothing
else is under way when this is sent and the server answers once. The
client itself has no way to tell two responses apart. -/
theorem own_response (c c' : Client (Delayed σ)) (call : Call) (vs : Outs call.format)
    (hlt : c.buf.size < 65536)
    (hquiet : ((delayedLink os sched).pending c.line).2.underWay = [])
    (h : exchange (delayedLink os sched) c call.request call.format = some (some vs, c')) :
    ∃ srv, c.line.server = some srv ∧
      Produced os srv (requestBytes c.buf.mem call.request) call.format vs := by
  have hsrc : ∀ it ∈ call.request, it.Sourced := fun it hit => (request_sourced call it hit).1
  have hfits : packetSize call.request ≤ c.buf.size := by
    by_contra hlarge
    rw [exchange_eq_none (fun it hit => (request_sourced call it hit).2) hlarge] at h
    cases h
  by_cases hsent : ∃ s, Sent (delayedLink os sched) (requestBytes c.buf.mem call.request) c.line s
  · obtain ⟨s, hsent⟩ := hsent
    have hs : s = Delayed.answer os sched ((delayedLink os sched).pending c.line).2
        (requestBytes c.buf.mem call.request) := (Prod.mk.inj hsent.2).2.symm
    cases hline : reception (delayedLink os sched) c.buf.size s with
    | broken =>
      obtain ⟨c₁, hnone⟩ : ∃ c₁, exchange (delayedLink os sched) c call.request call.format =
          some (none, c₁) := exchange_broken hsrc hfits hlt hsent hline
      rw [hnone] at h
      cases h
    | overflow =>
      rw [exchange_overflow hsrc hfits hlt hsent hline] at h
      cases h
    | packet bytes s' =>
      obtain ⟨c₁, -, -, -, -, heq⟩ := exchange_packet hsrc hfits hlt hsent hline call.format
      rw [h] at heq
      split at heq
      · rename_i hinside
        split at heq
        · rename_i hwell
          have hvs : vs = itemsValue (packetBuf bytes).mem call.format ITEMS_OFFSET := by
            injection heq with heq
            injection heq with heq
            injection heq
          obtain ⟨srv, reply, srv', hsrv, hserve, hreply⟩ :=
            reply_of_reception hquiet (hs ▸ hline) hinside
          exact ⟨srv, hsrv, bytes, srv', hreply ▸ hserve, hinside, hwell, hvs⟩
        · cases heq
      · cases heq
  · rw [not_exists] at hsent
    obtain ⟨c₁, hnone⟩ : ∃ c₁, exchange (delayedLink os sched) c call.request call.format =
        some (none, c₁) := exchange_unsent hsrc hfits hlt hsent
    rw [hnone] at h
    cases h

end Line

/-! ### A late response -/

/-- The client after some calls. -/
def after {σ : Type} (link : Link σ) (c : Client σ) : List Call → Option (Client σ)
  | []            => some c
  | call :: calls => (call.run link c).bind fun r => after link r.2 calls

/-- A system that returns the descriptors that it closes. -/
def echoOs : Os Unit := { plainOs with close := fun fd s => (fd, s) }

/-- Everything arrives at once. -/
def prompt : Schedule := ⟨fun _ => 100, fun _ => false⟩

/-- Nothing arrives before the second request is sent. -/
def late : Schedule := ⟨fun step => if step = 5 then 100 else 0, fun _ => false⟩

def freshClient : Client (Delayed Unit) :=
  { buf := ⟨fun _ => 0, 64⟩
    line := { server := some ⟨.ofByte 0x2F, fun _ => 0, 0, ()⟩ } }

/-- The client after it has closed 5, and got nothing. -/
def secondClient : Client (Delayed Unit) :=
  ((rfscClose (delayedLink echoOs late) freshClient 5).map fun r => r.2).getD freshClient

/-- A line whose responses come at once. -/
theorem own_response_prompt : ∃ vs c',
    exchange (delayedLink echoOs prompt) freshClient (Call.close 5).request (Call.close 5).format =
      some (some vs, c') ∧ ∃ srv, freshClient.line.server = some srv ∧
        Produced echoOs srv (requestBytes freshClient.buf.mem (Call.close 5).request)
          (Call.close 5).format vs := by
  have hsome : ((exchange (delayedLink echoOs prompt) freshClient (Call.close 5).request
      (Call.close 5).format).bind fun r => r.1.map fun vs => vs.2.1) = some 5 := by decide +kernel
  obtain ⟨⟨got, c'⟩, hgot, hvalue⟩ := Option.bind_eq_some_iff.mp hsome
  obtain ⟨vs, rfl, -⟩ := Option.map_eq_some_iff.mp hvalue
  exact ⟨vs, c', hgot, own_response freshClient c' (.close 5) vs
    (show 64 < 65536 by decide) rfl hgot⟩

/-- 5 and then 6 are closed. The response to the first request comes after the second one is sent,
which gets it. -/
theorem late_response_credited :
    ¬ ∀ (σ : Type) (os : Os σ) (sched : Schedule) (c₀ c : Client (Delayed σ)) (calls : List Call),
      after (delayedLink os sched) c₀ calls = some c → c.buf.size < 65536 →
      ∀ (call : Call) (vs : Outs call.format) (c' : Client (Delayed σ)),
        exchange (delayedLink os sched) c call.request call.format = some (some vs, c') →
        ∃ srv, c.line.server = some srv ∧
          Produced os srv (requestBytes c.buf.mem call.request) call.format vs := by
  intro h
  have hfirst : (rfscClose (delayedLink echoOs late) freshClient 5).isSome = true := by
    decide +kernel
  have hafter : after (delayedLink echoOs late) freshClient [.close 5] = some secondClient := by
    obtain ⟨r, hr⟩ := Option.isSome_iff_exists.mp hfirst
    have hrun : Call.run (delayedLink echoOs late) freshClient (.close 5) = some r := hr
    rw [after, hrun, Option.bind_some, after, secondClient, hr]
    rfl
  -- the client decodes 5, and the server has made 6
  have hsome : ((exchange (delayedLink echoOs late) secondClient (Call.close 6).request
      (Call.close 6).format).bind fun r => r.1.map fun vs => vs.2.1) = some 5 := by decide +kernel
  have hmade : (secondClient.line.server.bind fun srv =>
      (serve echoOs srv (requestBytes secondClient.buf.mem (Call.close 6).request)).map fun r =>
        (itemsValue (packetBuf r.1).mem (Call.close 6).format ITEMS_OFFSET).2.1) = some 6 := by
    decide +kernel
  have hroom : secondClient.buf.size = 64 := by decide +kernel
  obtain ⟨⟨got, c'⟩, hgot, hvalue⟩ := Option.bind_eq_some_iff.mp hsome
  obtain ⟨vs, rfl, hfive⟩ := Option.map_eq_some_iff.mp hvalue
  obtain ⟨srv, hsrv, reply, srv', hserve, -, -, hvs⟩ := h Unit echoOs late freshClient secondClient
    [.close 5] hafter (by rw [hroom]; decide) (.close 6) vs c' hgot
  rw [hsrv, Option.bind_some, hserve, Option.map_some, ← hvs, hfive] at hmade
  exact absurd hmade (by decide)

end Alcor.Proofs.Rfs
