import Alcor.Proofs.Rfs.Robust
import Alcor.Rfs.Remote

/-!
# `Alcor.Proofs.Rfs.RemoteCall`: one call over a reliable line

* `decode_packet`: a packet that was written is decoded where it arrives.
* `handler_eq`: so the handler of the server gets the arguments of the
  client.
* `remote_exchange`: and the client gets the items of the response.
* `remote_call`: what is left of a call is what its handler asks of the
  operating system.
-/

set_option autoImplicit false

namespace Alcor.Proofs.Rfs

open Lib (Mem Buf CStr leVal)
open Alcor.Eluarpc Alcor.Rfs
open Alcor.Proofs.Eluarpc

/-! ### Packets -/

section Packets
variable {m m' : Mem} {items : List Item} (hsrc : ∀ it ∈ items, it.Sourced)
include hsrc

theorem requestBytes_eq :
    requestBytes m items = sizeBytes (packetSize items) ++ packetBody m items := by
  obtain ⟨hfront, hbody⟩ := packetMem_holds m items
  have hlen := length_packetBody m hsrc
  have hsplit := Mem.read_add (packetMem m items) 0 ELUARPC_START_OFFSET (packetBody m items).length
  rw [hlen] at hsplit
  rw [requestBytes, hsplit, Nat.zero_add]
  exact congrArg₂ (· ++ ·) hfront hbody

/-- A packet that stands somewhere is decoded. -/
theorem decode_packet (hlt : packetSize items < 65536) (h : m'.Holds 0 (requestBytes m items)) :
    ∃ vs, eluarpcGenRead ⟨m', packetSize items⟩ (items.map Item.specifier) = some (false, vs) ∧
      AllDelivered m' (packetSize items) items vs := by
  rw [requestBytes_eq hsrc, packetBody, List.append_assoc, Mem.holds_append, Mem.holds_append] at h
  obtain ⟨-, hstart, hitems⟩ := h
  have htotal : packetSize items = ITEMS_OFFSET + itemsSize items + ELUARPC_END_SIZE := rfl
  obtain ⟨hinside, hok, -, hdelivered⟩ := itemsWire_read (n := packetSize items) (packetSize items)
    (by omega) hsrc ITEMS_OFFSET ITEMS_OFFSET hitems (by omega) (by omega)
  have hstartok : markOk m' ELUARPC_START_OFFSET TYPE_START PACKET_SIG = true :=
    markOk_of_holds hstart
  have hread := genReadTo_eq ⟨m', packetSize items⟩ (show packetSize items < 2 ^ 32 by omega)
    (items.map Item.specifier)
  rw [if_pos ⟨by simp only; omega, hinside⟩, hstartok, hok] at hread
  refine ⟨_, ?_, hdelivered⟩
  rw [eluarpcGenRead, hread]
  rfl

/-- The size in front of a packet. -/
theorem getPacketSize_packet {n : Nat} (hn : 4 ≤ n)
    (h : m'.Holds 0 (requestBytes m items)) :
    eluarpcGetPacketSize ⟨m', n⟩ = some (false, UInt16.ofNat (packetSize items)) := by
  rw [requestBytes_eq hsrc, Mem.holds_append, sizeBytes, halfBytes, Mem.holds_cons,
    Mem.holds_cons] at h
  obtain ⟨⟨hpkt, hint, hsize⟩, -⟩ := h
  have hread := getPacketSize_eq ⟨m', n⟩
  rw [if_pos (show ELUARPC_START_OFFSET ≤ n from hn), half_of_holds hsize] at hread
  rw [hread]
  have h0 : m' 0 = TYPE_PKT_SIZE := hpkt
  have h1 : m' 1 = TYPE_INT_16 := hint
  simp [h0, h1]

omit hsrc in
/-- The size of a packet, item by item. -/
theorem packetSize_eq (items : List Item) : packetSize items = 16 + (items.map Item.size).sum := by
  have hfront : ITEMS_OFFSET = 10 := rfl
  have hend : ELUARPC_END_SIZE = 6 := rfl
  rw [packetSize, itemsSize]
  omega

omit hsrc in
theorem length_requestBytes : (requestBytes m items).length = packetSize items := by
  rw [requestBytes, Mem.length_read]

/-- A packet on the line is received whole. -/
theorem reception_packet {σ : Type} (os : Os σ) {room : Nat} (srv : Option (Server σ))
    (hlt : packetSize items < 65536) (hroom : packetSize items ≤ room) :
    reception (remoteLink os) room ⟨srv, requestBytes m items⟩ =
      .packet (requestBytes m items) ⟨srv, []⟩ := by
  have hfour := four_le_packetSize items
  have hlen : (requestBytes m items).length = packetSize items := length_requestBytes
  have htake : (requestBytes m items).take ELUARPC_START_OFFSET = sizeBytes (packetSize items) := by
    rw [requestBytes_eq hsrc]
    exact List.take_left' rfl
  have hok : SizeOk (sizeBytes (packetSize items)) := ⟨rfl, rfl⟩
  have hhalf : UInt16.ofNat (leVal ((sizeBytes (packetSize items)).drop 2)) =
      UInt16.ofNat (packetSize items) := by
    have hlow : (UInt16.ofNat (packetSize items)).toNat = packetSize items :=
      UInt16.toNat_ofNat_of_lt' hlt
    rw [show (sizeBytes (packetSize items)).drop 2 =
      Lib.leBytes 2 (UInt16.ofNat (packetSize items)).toNat from rfl, Lib.leVal_leBytes, hlow,
      Nat.mod_eq_of_lt (show packetSize items < 256 ^ 2 from hlt)]
  have hrest : restSize (UInt16.ofNat (packetSize items)) = packetSize items - 4 := by
    rw [restSize, UInt16.toNat_ofNat_of_lt' hlt, ELUARPC_START_OFFSET]
    omega
  have hdrop : ((requestBytes m items).drop ELUARPC_START_OFFSET).length =
      packetSize items - 4 := by
    rw [List.length_drop, hlen]
    rfl
  rw [reception]
  simp only [remoteLink, htake, if_pos hok, hhalf, hrest]
  rw [List.take_of_length_le (Nat.le_of_eq hdrop), List.drop_eq_nil_of_le (Nat.le_of_eq hdrop),
    hdrop, if_neg (by rw [ELUARPC_START_OFFSET]; omega), if_pos rfl, ← htake, List.take_append_drop]

end Packets

/-! ### The server -/

section Server
variable {σ : Type} (os : Os σ) {m : Mem} {request response : List Item} {srv done : Server σ}

theorem receive_holds (srv : Server σ) (bytes : List UInt8) :
    (srv.receive bytes).mem.Holds 0 bytes := Mem.holds_store_self srv.mem 0 bytes

/-- The request is as long as the packet. -/
theorem receive_request (srv : Server σ) :
    (srv.receive (requestBytes m request)).request =
      ⟨(srv.receive (requestBytes m request)).mem, packetSize request⟩ :=
  congrArg (Buf.mk _) length_requestBytes

/-- The operation of a request. -/
theorem getRequestId_packet (hsrc : ∀ it ∈ request, it.Sourced) {id : UInt8}
    (hid : request.head? = some (.o id)) :
    eluarpcGetRequestId (srv.receive (requestBytes m request)).request = some (false, id) := by
  obtain ⟨rest, rfl⟩ : ∃ rest, request = .o id :: rest := by
    cases request with
    | nil => cases hid
    | cons it rest =>
      rw [List.head?_cons, Option.some.injEq] at hid
      exact ⟨rest, by rw [hid]⟩
  have hholds := receive_holds srv (requestBytes m (.o id :: rest))
  rw [receive_request]
  generalize (srv.receive (requestBytes m (.o id :: rest))).mem = m' at hholds ⊢
  rw [requestBytes_eq hsrc, packetBody, List.append_assoc, Mem.holds_append, Mem.holds_append,
    itemsWire, List.append_assoc, Mem.holds_append] at hholds
  obtain ⟨-, hstart, hitem, -⟩ := hholds
  have hstartok : markOk m' ELUARPC_START_OFFSET TYPE_START PACKET_SIG = true :=
    markOk_of_holds hstart
  rw [Item.wire, Mem.holds_cons, Mem.holds_cons] at hitem
  obtain ⟨htag, hop, -⟩ := hitem
  have htag : m' ITEMS_OFFSET = TYPE_OP_ID := htag
  have hop : m' (ITEMS_OFFSET + 1) = id := hop
  have hroom : ITEMS_OFFSET + 2 ≤ packetSize (.o id :: rest) := by
    have hsum : itemsSize (.o id :: rest) = 2 + itemsSize rest := rfl
    rw [packetSize, hsum]
    omega
  rw [getRequestId_eq, if_pos hroom]
  simp only [hstartok, htag, hop, beq_self_eq_true, Bool.and_self, Bool.not_true]

/-- The handler of the request of a call. -/
def Call.handler (call : Call) : Server σ → Option (Bool × Server σ) :=
  match call with
  | .open _ _ _  => serverOpen os
  | .write _ _   => serverWrite os
  | .read _ _ _  => serverRead os
  | .lseek _ _ _ => serverLseek os
  | .close _     => serverClose os
  | .opendir _   => serverOpendir os
  | .readdir _   => serverReaddir os
  | .closedir _  => serverClosedir os

/-- The server executes the request of a call with its handler. -/
theorem execute_call (call : Call) :
    serverExecuteRequest os (srv.receive (requestBytes m call.request)) =
      Call.handler os call (srv.receive (requestBytes m call.request)) := by
  have hsrc : ∀ it ∈ call.request, it.Sourced := fun it hit => (request_sourced call it hit).1
  cases call <;> rw [serverExecuteRequest, getRequestId_packet hsrc rfl, Option.bind_some] <;>
    simp [Call.handler, RFS_OP_OPEN, RFS_OP_WRITE, RFS_OP_READ, RFS_OP_CLOSE, RFS_OP_LSEEK,
      RFS_OP_OPENDIR, RFS_OP_READDIR, RFS_OP_CLOSEDIR]

/-- The handler gets what the client has put into the request, and its response is written. -/
theorem handler_eq (hsrc : ∀ it ∈ request, it.Sourced) (hlt : packetSize request < 65536)
    (hresponse : ∀ it ∈ response, it.Sourced) (hfits : packetSize response ≤ RFS_BUFFER_BYTES)
    {body : Outs (request.map Item.specifier) → Option (List Item × Server σ)}
    (hbody : ∀ vs, AllDelivered (srv.receive (requestBytes m request)).mem (packetSize request)
      request vs → body vs = some (response, done)) :
    handler (request.map Item.specifier) (srv.receive (requestBytes m request)) body =
      some (true, { done with mem := packetMem done.mem response }) := by
  obtain ⟨vs, hread, hdelivered⟩ := decode_packet hsrc hlt
    (receive_holds srv (requestBytes m request))
  have hwrite := genWrite_eq (rfsBuffer done.mem) (show RFS_BUFFER_BYTES < 2 ^ 32 by decide)
    hresponse hfits
  rw [handler, receive_request, hread, Option.bind_some]
  simp only [Bool.false_eq_true, if_false, hbody vs hdelivered, Option.bind_some, hwrite,
    Option.map_some]
  rfl

/-- The server executes the request of a call whose handler makes this response. -/
theorem execute_eq (call : Call)
    {body : Server σ → Outs (call.request.map Item.specifier) → Option (List Item × Server σ)}
    (hhandler : ∀ srv, Call.handler os call srv =
      handler (call.request.map Item.specifier) srv (body srv))
    (hlt : packetSize call.request < 65536) (hresponse : ∀ it ∈ response, it.Sourced)
    (hfits : packetSize response ≤ RFS_BUFFER_BYTES)
    (hdone : ∀ vs, AllDelivered (srv.receive (requestBytes m call.request)).mem
      (packetSize call.request) call.request vs →
      body (srv.receive (requestBytes m call.request)) vs = some (response, done)) :
    serverExecuteRequest os (srv.receive (requestBytes m call.request)) =
      some (true, { done with mem := packetMem done.mem response }) :=
  (execute_call os call).trans ((hhandler _).trans (handler_eq
    (fun it hit => (request_sourced call it hit).1) hlt hresponse hfits hdone))

/-- The server sends the response. -/
theorem serve_eq (hlong : packetSize request ≤ RFS_BUFFER_BYTES)
    (hresponse : ∀ it ∈ response, it.Sourced) (hfits : packetSize response ≤ RFS_BUFFER_BYTES)
    (hexec : serverExecuteRequest os (srv.receive (requestBytes m request)) =
      some (true, { done with mem := packetMem done.mem response })) :
    serve os srv (requestBytes m request) =
      some (requestBytes done.mem response,
        { done with mem := packetMem done.mem response }) := by
  have hlt : packetSize response < 65536 := Nat.lt_of_le_of_lt hfits (by decide)
  have hholds : (packetMem done.mem response).Holds 0 (requestBytes done.mem response) := by
    rw [Mem.Holds, requestBytes, Mem.length_read]
  have hsize := getPacketSize_packet hresponse (show 4 ≤ RFS_BUFFER_BYTES by decide) hholds
  have hnat : (UInt16.ofNat (packetSize response)).toNat = packetSize response :=
    UInt16.toNat_ofNat_of_lt' hlt
  rw [serve, length_requestBytes, if_pos hlong, hexec, Option.bind_some]
  simp only [rfsBuffer, hsize, Option.bind_some, Bool.false_eq_true, if_false, hnat, if_pos hfits]
  rfl

end Server

/-! ### The exchange -/

/-- A call gets the response to its request. -/
theorem remote_exchange {σ : Type} (os : Os σ) {c : Client (Remote σ)} {srv done : Server σ}
    {request response : List Item} (hline : c.line = ⟨some srv, []⟩)
    (hsrc : ∀ it ∈ request, it.Sourced) (hroom : packetSize request ≤ c.buf.size)
    (hlong : packetSize request ≤ RFS_BUFFER_BYTES) (hlt : c.buf.size < 65536)
    (hresponse : ∀ it ∈ response, it.Sourced) (hfits : packetSize response ≤ RFS_BUFFER_BYTES)
    (hback : packetSize response ≤ c.buf.size)
    (hexec : serverExecuteRequest os (srv.receive (requestBytes c.buf.mem request)) =
      some (true, { done with mem := packetMem done.mem response })) :
    ∃ c' vs, exchange (remoteLink os) c request (response.map Item.specifier) =
        some (some vs, c') ∧
      c'.line = ⟨some { done with mem := packetMem done.mem response }, []⟩ ∧
      c'.buf.size = c.buf.size ∧ c'.received = packetSize response ∧
      AllDelivered c'.buf.mem (packetSize response) response vs := by
  have hserve := serve_eq os hlong hresponse hfits hexec
  have hanswer : Sent (remoteLink os) (requestBytes c.buf.mem request) c.line
      ⟨some { done with mem := packetMem done.mem response }, requestBytes done.mem response⟩ := by
    rw [hline, Sent]
    refine ⟨fun b hb => absurd hb (by simp [remoteLink]), ?_⟩
    simp only [remoteLink, Remote.answer, Option.bind_some, hserve, List.nil_append]
  have hltr : packetSize response < 65536 := Nat.lt_of_le_of_lt hfits (by decide)
  have harrives : reception (remoteLink os) c.buf.size
      ⟨some { done with mem := packetMem done.mem response }, requestBytes done.mem response⟩ =
      .packet (requestBytes done.mem response)
        ⟨some { done with mem := packetMem done.mem response }, []⟩ :=
    reception_packet hresponse os _ hltr hback
  obtain ⟨c', hline', hreceived, hholds, hsize, heq⟩ :=
    exchange_packet hsrc hroom hlt hanswer harrives (response.map Item.specifier)
  rw [length_requestBytes] at hreceived
  obtain ⟨vs, hread, hdelivered⟩ := decode_packet hresponse hltr hholds
  -- what is decoded is what the exchange gives
  have hlen : (requestBytes done.mem response).length = packetSize response := length_requestBytes
  have hgen := genRead_packet (response.map Item.specifier) hholds (by omega)
  rw [hlen, hread] at hgen
  by_cases hinside : ReadsInside (response.map Item.specifier) (requestBytes done.mem response)
  · rw [if_pos hinside, Option.some.injEq, Prod.mk.injEq] at hgen
    obtain ⟨hwell, hvs⟩ := hgen
    have hwell : WellFormed (response.map Item.specifier) (requestBytes done.mem response) := by
      simpa using hwell.symm
    rw [if_pos hinside, if_pos hwell, ← hvs] at heq
    exact ⟨c', vs, heq, hline', hsize, hreceived, hdelivered⟩
  · rw [if_neg hinside] at hgen
    cases hgen

/-- The value of a call that gets a response. -/
theorem rfsc_of_exchange {σ : Type} {link : Link σ} {c c' : Client σ} {request : List Item}
    {format : List Specifier} {vs : Outs format}
    (h : exchange link c request format = some (some vs, c')) (value : Outs format → Value)
    (error : Value) : rfsc link c request format value error = some (value vs, c') := by
  rw [rfsc, h]
  rfl

/-- A client between two calls, with a server at rest. -/
def Ready {σ : Type} (c : Client (Remote σ)) (basedir : CStr) (s : σ) : Prop :=
  ∃ srv, c.line = ⟨some srv, []⟩ ∧ srv.basedir = basedir ∧ srv.os = s

/-- A call whose handler makes this response. -/
theorem remote_call {σ : Type} (os : Os σ) {c : Client (Remote σ)} {basedir : CStr} {s : σ}
    (call : Call) (response : List Item) (s' : σ)
    {body : Server σ → Outs (call.request.map Item.specifier) → Option (List Item × Server σ)}
    (hhandler : ∀ srv, Call.handler os call srv =
      handler (call.request.map Item.specifier) srv (body srv))
    (hready : Ready c basedir s) (hroom : packetSize call.request ≤ c.buf.size)
    (hlong : packetSize call.request ≤ RFS_BUFFER_BYTES) (hlt : c.buf.size < 65536)
    (hresponse : ∀ it ∈ response, it.Sourced) (hfits : packetSize response ≤ RFS_BUFFER_BYTES)
    (hback : packetSize response ≤ c.buf.size)
    (hbody : ∀ srv : Server σ, srv.basedir = basedir → srv.os = s →
      srv.received = packetSize call.request →
      ∃ mem, ∀ vs, AllDelivered srv.mem (packetSize call.request) call.request vs →
        body srv vs = some (response, ⟨basedir, mem, srv.received, s'⟩)) :
    ∃ c' vs, exchange (remoteLink os) c call.request (response.map Item.specifier) =
        some (some vs, c') ∧
      Ready c' basedir s' ∧ c'.buf.size = c.buf.size ∧ c'.received = packetSize response ∧
      AllDelivered c'.buf.mem (packetSize response) response vs := by
  have hsrc : ∀ it ∈ call.request, it.Sourced := fun it hit => (request_sourced call it hit).1
  obtain ⟨srv, hline, hbase, hos⟩ := hready
  obtain ⟨mem, hdone⟩ := hbody (srv.receive (requestBytes c.buf.mem call.request)) hbase hos
    length_requestBytes
  have hexec := execute_eq os call hhandler (by omega) hresponse hfits hdone
  obtain ⟨c', vs, heq, hline', hsize, hreceived, hdelivered⟩ :=
    remote_exchange os hline hsrc hroom hlong hlt hresponse hfits hback hexec
  exact ⟨c', vs, heq, ⟨_, hline', rfl, rfl⟩, hsize, hreceived, hdelivered⟩

end Alcor.Proofs.Rfs
