import Alcor.Lib.Stream
import Alcor.Sermux.Ends

/-!
# `Alcor.Proofs.Sermux.Transparent`: the multiplexer is transparent

What is sent to a service arrives there, and only there. A byte that is
an escape byte, a request or a service id goes out behind an escape
byte, so whoever reads the line knows what each byte is
(`needsEscape_xor`). Both receivers take one byte after the other, and
there is one lemma for each kind of byte.

* `feed_payload_board`, `feed_payload_host`: a payload byte is delivered
  to the service that is selected, at either end.
* `transparent`: every service gets its own bytes in order, in whatever
  interleaving, and nothing else is delivered.
* `routes_iff`: when the loop of the multiplexer stays inside its table,
  whatever comes from the transport.
* `not_always_routes`: a service id that there is no port for.
-/

set_option autoImplicit false

/-!
## The multiplexer is transparent

Each end answers three kinds of bytes of the other end's encoder: a
service id, the escape byte, and a byte that needs no escape. With
them, the bytes of one send are answered by one delivery
(`feed_boardSend`, `feed_hostSend`), whatever the encoder sent before:
all that the two ends have to agree on is that no escape is open and
that the service id the sender last sent is the one the receiver last
got. `transparent` puts the sends together by `Lib.Stream.feed_encode`.
-/

namespace Alcor.Proofs.Sermux

open Lib.Stream
open Alcor.Sermux

variable {c sid : UInt8}

/-! ### Special bytes -/

/-- A byte that needs no escape is neither the escape byte, nor a request, nor a service id. -/
theorem needsEscape_eq_false_iff (c : UInt8) :
    needsEscape c = false ↔ c ≠ SERMUX_ESCAPE_CHAR ∧ c ≠ SERMUX_FORCE_SID_CHAR ∧
      ¬ (SERMUX_SERVICE_ID_FIRST ≤ c ∧ c ≤ SERMUX_SERVICE_ID_LAST) := by
  rw [← Bool.not_eq_true, needsEscape, Bool.or_eq_true, Bool.or_eq_true, Bool.and_eq_true,
    beq_iff_eq, beq_iff_eq, decide_eq_true_eq, decide_eq_true_eq, not_or, not_or, and_assoc]

/-- What goes out behind an escape byte needs no escape itself. -/
theorem needsEscape_xor (h : needsEscape c = true) :
    needsEscape (c ^^^ SERMUX_ESCAPE_XOR_MASK) = false := by
  obtain ⟨⟨c⟩⟩ := c
  revert c
  decide +kernel

@[simp] theorem xor_xor_mask (c : UInt8) :
    c ^^^ SERMUX_ESCAPE_XOR_MASK ^^^ SERMUX_ESCAPE_XOR_MASK = c := by
  rw [UInt8.xor_assoc, UInt8.xor_self, UInt8.xor_zero]

theorem sid_iff (c : UInt8) :
    (SERMUX_SERVICE_ID_FIRST ≤ c ∧ c ≤ SERMUX_SERVICE_ID_LAST) ↔
      208 ≤ c.toNat ∧ c.toNat ≤ 215 := by
  rw [UInt8.le_iff_toNat_le, UInt8.le_iff_toNat_le]
  rfl

theorem isVuart_iff (n : Nat) (c : UInt8) :
    isVuart n c = true ↔ 208 ≤ c.toNat ∧ c.toNat < 208 + n := by
  rw [isVuart, Bool.and_eq_true, decide_eq_true_eq, decide_eq_true_eq, UInt8.le_iff_toNat_le]
  rfl

/-- The ids of the virtual UARTs are service ids, since there are at most eight. -/
theorem sid_of_isVuart {n : Nat} (hn : n ≤ SERMUX_SERVICE_MAX) (h : isVuart n c = true) :
    SERMUX_SERVICE_ID_FIRST ≤ c ∧ c ≤ SERMUX_SERVICE_ID_LAST := by
  have hn : n ≤ 8 := hn
  have := (isVuart_iff n c).mp h
  exact (sid_iff c).mpr (by omega)

/-- A byte that needs no escape is no virtual UART. -/
theorem not_isVuart {n : Nat} (hn : n ≤ SERMUX_SERVICE_MAX) (h : needsEscape c = false) :
    isVuart n c = false := by
  cases hc : isVuart n c with
  | false => rfl
  | true => exact absurd (sid_of_isVuart hn hc) ((needsEscape_eq_false_iff c).mp h).2.2

/-- The escape byte is no virtual UART. -/
theorem isVuart_escape {n : Nat} (hn : n ≤ SERMUX_SERVICE_MAX) :
    isVuart n SERMUX_ESCAPE_CHAR = false := by
  cases hv : isVuart n SERMUX_ESCAPE_CHAR with
  | false => rfl
  | true => exact absurd (sid_of_isVuart hn hv) (by decide)

/-- A request is no virtual UART. -/
theorem isVuart_force {n : Nat} (hn : n ≤ SERMUX_SERVICE_MAX) :
    isVuart n SERMUX_FORCE_SID_CHAR = false := by
  cases hv : isVuart n SERMUX_FORCE_SID_CHAR with
  | false => rfl
  | true => exact absurd (sid_of_isVuart hn hv) (by decide)

/-- A virtual UART's id is not the escape byte. -/
theorem ne_escape_of_isVuart {n : Nat} (hn : n ≤ SERMUX_SERVICE_MAX) (h : isVuart n c = true) :
    c ≠ SERMUX_ESCAPE_CHAR := by
  rintro rfl
  exact absurd h (by simp [isVuart_escape hn])

/-! ### Services -/

section Services
variable {cfg : Config} (k : Service cfg)
variable {l : Service cfg}

theorem Service.index_lt : k.index < 8 := Nat.lt_of_lt_of_le k.lt_vuart cfg.numVuart_le

theorem Service.toNat_id : k.id.toNat = 0xD0 + k.index := by
  have := Service.index_lt k
  have hval : SERMUX_SERVICE_ID_FIRST.toNat = 208 := rfl
  have hlt : SERMUX_SERVICE_ID_FIRST.toNat + k.index < UInt8.size := by
    rw [hval]
    exact Nat.lt_trans (Nat.add_lt_add_left this 208) (by decide)
  rw [Service.id, UInt8.toNat_ofNat_of_lt' hlt, hval]

theorem Service.isVuart_id : isVuart cfg.numVuart k.id = true := by
  have hlt := k.lt_vuart
  have hid := Service.toNat_id k
  exact (isVuart_iff _ _).mpr (by omega)

theorem Service.sid_id :
    SERMUX_SERVICE_ID_FIRST ≤ k.id ∧ k.id ≤ SERMUX_SERVICE_ID_LAST :=
  sid_of_isVuart cfg.numVuart_le (Service.isVuart_id k)

/-- The host sends the bytes of a service's endpoint under its id. -/
theorem Service.serviceId_endpoint : serviceId cfg k.endpoint = k.id := by
  have hk := k.lt_port
  cases hmode : cfg.rfsmux with
  | false => simp [Service.endpoint, serviceId, Service.id, Config.serviceOffset, hmode]
  | true =>
    by_cases h0 : k.index = 0
    · simp [Service.endpoint, serviceId, Service.id, hmode, h0]
    · simp only [Service.endpoint, serviceId, Service.id, Config.serviceOffset, hmode, h0]
      simp only [and_false, if_false, if_true]
      congr 1
      omega

/-- The host hands the bytes behind a service's id to its endpoint. -/
theorem Service.endpoint_id : endpoint cfg k.id = k.endpoint := by
  have hid := Service.toNat_id k
  have hfirst : k.id = SERMUX_SERVICE_ID_FIRST ↔ k.index = 0 := by
    have hval : SERMUX_SERVICE_ID_FIRST.toNat = 208 := rfl
    rw [← UInt8.toNat_inj, hid, hval]
    omega
  have hsub : k.id.toNat - SERMUX_SERVICE_ID_FIRST.toNat = k.index := by
    rw [hid]
    exact Nat.add_sub_cancel_left ..
  simp only [endpoint, Service.endpoint, hfirst, hsub]

/-- The endpoint is a port the multiplexer was given, or the RFS server in `rfsmux` mode. -/
theorem Service.port_lt {i : Nat} (h : k.endpoint = .port i) : i < cfg.vportNum := by
  have hk := k.lt_port
  cases hmode : cfg.rfsmux with
  | false =>
    simp [Service.endpoint, Config.serviceOffset, hmode] at h hk
    omega
  | true =>
    simp only [Service.endpoint, Config.serviceOffset, hmode] at h hk
    split at h
    · exact absurd h (by simp)
    · simp only [if_true, Endpoint.port.injEq, true_and] at *
      omega

theorem Service.eq_of_index {k : Service cfg} (h : k.index = l.index) : k = l := by
  cases k; cases l; simp_all

theorem Service.id_inj {k : Service cfg} : k.id = l.id ↔ k = l := by
  refine ⟨fun h => Service.eq_of_index ?_, congrArg _⟩
  have := congrArg UInt8.toNat h
  rw [Service.toNat_id, Service.toNat_id] at this
  omega

/-- Two services have two endpoints. -/
theorem Service.endpoint_inj {k : Service cfg} : k.endpoint = l.endpoint ↔ k = l := by
  refine ⟨fun h => Service.id_inj.mp ?_, congrArg _⟩
  rw [← Service.serviceId_endpoint, ← Service.serviceId_endpoint, h]

end Services

/-! ### The answers of the board -/

section Board
variable {n : Nat} (hn : n ≤ SERMUX_SERVICE_MAX) (b : Board)
include hn

/-- A service id selects the service. -/
theorem cmnRxHandler_sid {id : UInt8} (h : isVuart n id = true) :
    cmnRxHandler n b id = ({ b with serviceIdIn := some id }, []) := by
  simp only [cmnRxHandler, if_pos (ne_escape_of_isVuart hn h), h, if_true]

omit hn in
/-- The escape byte opens an escape. -/
theorem cmnRxHandler_escape :
    cmnRxHandler n b SERMUX_ESCAPE_CHAR = ({ b with gotEsc := true }, []) := by
  simp [cmnRxHandler]

/-- Any other byte is payload, or half of one behind an escape. -/
theorem cmnRxHandler_payload (h : needsEscape c = false) :
    cmnRxHandler n b c = ({ b with gotEsc := false },
      match b.serviceIdIn with
      | none     => [.send SERMUX_FORCE_SID_CHAR]
      | some sid =>
        [.deliver sid (if b.gotEsc then c ^^^ SERMUX_ESCAPE_XOR_MASK else c)]) := by
  obtain ⟨hesc, hforce, -⟩ := (needsEscape_eq_false_iff c).mp h
  simp only [cmnRxHandler, if_pos hesc, not_isVuart hn h, hforce]
  cases b.serviceIdIn <;> simp

/-- The board as a decoder. -/
def boardDecoder (n : Nat) (b : Board) (c : UInt8) : Option (Board × List (Output UInt8)) :=
  some (cmnRxHandler n b c)

/-- A payload byte, escaped or not, is delivered to the selected service. -/
theorem feed_payload_board (hsid : b.serviceIdIn = some sid) (hesc : b.gotEsc = false)
    (c : UInt8) : feed (boardDecoder n) b (payload c) = some (b, [.deliver sid c]) := by
  obtain ⟨sidIn, sidOut, esc, last⟩ := b
  obtain rfl : sidIn = some sid := hsid
  obtain rfl : esc = false := hesc
  cases hc : needsEscape c with
  | false => simp [payload, hc, feed, boardDecoder, cmnRxHandler_payload hn _ hc]
  | true =>
    -- the escape byte and the flipped byte, which the handler flips back
    simp [payload, hc, feed, boardDecoder, cmnRxHandler_escape,
      cmnRxHandler_payload hn _ (needsEscape_xor hc)]

end Board

/-! ### The answers of the host -/

section Host
variable (cfg : Config) (h : Host)

/-- A service id selects the service. -/
theorem hostTransport_sid {id : UInt8}
    (hid : SERMUX_SERVICE_ID_FIRST ≤ id ∧ id ≤ SERMUX_SERVICE_ID_LAST) :
    hostTransport cfg h id = some ({ h with serviceIdIn := some id }, []) := by
  have hne : id ≠ SERMUX_ESCAPE_CHAR := by
    rintro rfl
    exact absurd hid (by decide)
  simp only [hostTransport, if_pos hne, if_pos hid]

/-- The escape byte opens an escape. -/
theorem hostTransport_escape :
    hostTransport cfg h SERMUX_ESCAPE_CHAR = some ({ h with gotEsc := true }, []) := by
  simp [hostTransport]

/-- A byte that needs no escape, where no escape is open. -/
theorem hostTransport_plain (hsid : h.serviceIdIn = some sid) (hesc : h.gotEsc = false)
    (hc : needsEscape c = false) :
    hostTransport cfg h c = some (h, [.deliver (endpoint cfg sid) c]) := by
  obtain ⟨hne, hforce, hrange⟩ := (needsEscape_eq_false_iff c).mp hc
  obtain ⟨sidIn, sidOut, esc, prev⟩ := h
  obtain rfl : sidIn = some sid := hsid
  obtain rfl : esc = false := hesc
  simp only [hostTransport, if_pos hne, if_neg hrange, if_neg hforce]
  simp

/-- A byte behind an escape byte; the loop takes it only if it had to be escaped. -/
theorem hostTransport_escaped (hsid : h.serviceIdIn = some sid) (hesc : h.gotEsc = true)
    (hc : needsEscape c = true) :
    hostTransport cfg h (c ^^^ SERMUX_ESCAPE_XOR_MASK) =
      some ({ h with gotEsc := false }, [.deliver (endpoint cfg sid) c]) := by
  obtain ⟨hne, hforce, hrange⟩ := (needsEscape_eq_false_iff _).mp (needsEscape_xor hc)
  simp only [hostTransport, if_pos hne, if_neg hrange, if_neg hforce, hesc, xor_xor_mask, hsid]
  simp [hc]

/-- A payload byte, escaped or not, is delivered to the selected service. -/
theorem feed_payload_host (hsid : h.serviceIdIn = some sid) (hesc : h.gotEsc = false) (c : UInt8) :
    feed (hostTransport cfg) h (payload c) = some (h, [.deliver (endpoint cfg sid) c]) := by
  cases hc : needsEscape c with
  | false => simp [payload, hc, feed, hostTransport_plain cfg h hsid hesc hc]
  | true =>
    have hflip := hostTransport_escaped cfg { h with gotEsc := true } hsid rfl hc
    obtain ⟨sidIn, sidOut, esc, prev⟩ := h
    obtain rfl : esc = false := hesc
    simp [payload, hc, feed, hostTransport_escape, hflip]

end Host

/-! ### The encoders -/

/-- One `platform_uart_send` to a service that nothing interrupts. -/
def boardSend {cfg : Config} (b : Board) (s : Service cfg × UInt8) : Board × List UInt8 :=
  b.sendSteps (platformUartSend cfg.numVuart b s.1.id s.2)

/-- One byte of a service through the main loop. -/
def hostSend {cfg : Config} (h : Host) (s : Service cfg × UInt8) : Host × List UInt8 :=
  hostService cfg h s.1.endpoint s.2

/-- The steps of `platform_uart_send` send what the main loop of the host would send, and
leave the same traces. -/
theorem boardSend_eq {cfg : Config} (b : Board) (s : Service cfg × UInt8) :
    boardSend b s =
      ({ b with lastSent := some (lastSentOf s.2), serviceIdOut := some s.1.id },
        (if b.serviceIdOut ≠ some s.1.id then [s.1.id] else []) ++ payload s.2) := by
  obtain ⟨k, c⟩ := s
  simp only [boardSend, platformUartSend, Service.isVuart_id, if_true, payload, lastSentOf]
  by_cases hout : b.serviceIdOut = some k.id <;> cases hc : needsEscape c <;>
    simp [hout, Board.sendSteps, Board.sendStep]

/-- What a receiver needs of a sender: no escape is open, and the last service id sent is
the last one received. -/
def InStep (sidOut sidIn : Option UInt8) (gotEsc : Bool) : Prop :=
  gotEsc = false ∧ ∀ sid, sidOut = some sid → sidIn = some sid

/-- The bytes of one send of the host, at the board. -/
theorem feed_hostSend {cfg : Config} (h : Host) (b : Board) (s : Service cfg × UInt8)
    (hin : InStep h.serviceIdOut b.serviceIdIn b.gotEsc) :
    ∃ b', feed (boardDecoder cfg.numVuart) b (hostSend h s).2 =
        some (b', [.deliver s.1.id s.2]) ∧
      InStep (hostSend h s).1.serviceIdOut b'.serviceIdIn b'.gotEsc := by
  obtain ⟨k, c⟩ := s
  obtain ⟨hesc, hsid⟩ := hin
  simp only [hostSend, hostService, Service.serviceId_endpoint]
  by_cases hout : h.serviceIdOut = some k.id
  · refine ⟨b, ?_, hesc, fun sid heq => heq ▸ hsid _ hout⟩
    simpa [hout] using feed_payload_board cfg.numVuart_le b (hsid _ hout) hesc c
  · -- the service id goes first
    have hfirst : feed (boardDecoder cfg.numVuart) b [k.id] =
        some ({ b with serviceIdIn := some k.id }, []) := by
      simp [feed, boardDecoder,
        cmnRxHandler_sid cfg.numVuart_le b (Service.isVuart_id k)]
    refine ⟨{ b with serviceIdIn := some k.id }, ?_, hesc, fun sid heq => heq⟩
    rw [if_pos hout, feed_append hfirst,
      feed_payload_board cfg.numVuart_le { b with serviceIdIn := some k.id } rfl hesc c]
    rfl

/-- The bytes of one send of the board, at the host. -/
theorem feed_boardSend {cfg : Config} (b : Board) (h : Host) (s : Service cfg × UInt8)
    (hin : InStep b.serviceIdOut h.serviceIdIn h.gotEsc) :
    ∃ h', feed (hostTransport cfg) h (boardSend b s).2 =
        some (h', [.deliver s.1.endpoint s.2]) ∧
      InStep (boardSend b s).1.serviceIdOut h'.serviceIdIn h'.gotEsc := by
  obtain ⟨k, c⟩ := s
  obtain ⟨hesc, hsid⟩ := hin
  simp only [boardSend_eq]
  by_cases hout : b.serviceIdOut = some k.id
  · refine ⟨h, ?_, hesc, fun sid heq => heq ▸ hsid _ hout⟩
    simpa [hout, Service.endpoint_id] using feed_payload_host cfg h (hsid _ hout) hesc c
  · have hfirst : feed (hostTransport cfg) h [k.id] =
        some ({ h with serviceIdIn := some k.id }, []) := by
      simp [feed, hostTransport_sid cfg h (Service.sid_id k)]
    refine ⟨{ h with serviceIdIn := some k.id }, ?_, hesc, fun sid heq => heq⟩
    rw [if_pos hout, feed_append hfirst,
      feed_payload_host cfg { h with serviceIdIn := some k.id } rfl hesc c, Service.endpoint_id]
    rfl

/-! ### Transparency -/

/-- The bytes handed to one service. -/
def bytesTo {δ : Type} [DecidableEq δ] (service : δ) (outs : List (Output δ)) : List UInt8 :=
  outs.filterMap fun
    | .send _       => none
    | .deliver to' c => if to' = service then some c else none

/-- The bytes sent to one service. -/
def bytesOf {cfg : Config} (k : Service cfg) (sends : List (Service cfg × UInt8)) : List UInt8 :=
  sends.filterMap fun s => if s.1 = k then some s.2 else none

/-- The deliveries of a list of sends, seen from one service. -/
theorem bytesTo_deliveries {δ : Type} [DecidableEq δ] {cfg : Config} {f : Service cfg → δ}
    (hf : ∀ {k l}, f k = f l ↔ k = l) (k : Service cfg) (sends : List (Service cfg × UInt8)) :
    bytesTo (f k) (sends.map fun s => .deliver (f s.1) s.2) = bytesOf k sends := by
  simp [bytesTo, bytesOf, List.filterMap_map, hf]

/-- Whatever is sent to the services, in whatever interleaving and whatever the state of the
other direction: the stream of `platform_uart_send` comes out of the multiplexer's main loop
as one delivery for each send, in order, and no request or error; so does the stream of the
main loop out of `cmn_rx_handler`. Each service gets its own bytes, at a port that exists. -/
theorem transparent (cfg : Config) (b : Board) (h : Host)
    (sends : List (Service cfg × UInt8)) :
    (∃ h', feed (hostTransport cfg) { h with serviceIdIn := none, gotEsc := false }
        (encode boardSend { b with serviceIdOut := none } sends).2 =
          some (h', sends.map fun s => .deliver s.1.endpoint s.2)) ∧
    (∃ b', feed (boardDecoder cfg.numVuart) { b with serviceIdIn := none, gotEsc := false }
        (encode hostSend { h with serviceIdOut := none } sends).2 =
          some (b', sends.map fun s => .deliver s.1.id s.2)) ∧
    ∀ k : Service cfg,
      bytesTo k.endpoint (sends.map fun s => .deliver s.1.endpoint s.2) = bytesOf k sends ∧
      bytesTo k.id (sends.map fun s => .deliver s.1.id s.2) = bytesOf k sends ∧
      ∀ i, k.endpoint = .port i → i < cfg.vportNum := by
  refine ⟨?_, ?_, fun k => ⟨?_, ?_, fun i => Service.port_lt k⟩⟩
  · obtain ⟨h', hfeed, -⟩ := feed_encode
      (R := fun (b : Board) (h : Host) => InStep b.serviceIdOut h.serviceIdIn h.gotEsc)
      (fun b h s hin => feed_boardSend b h s hin) sends { b with serviceIdOut := none }
      { h with serviceIdIn := none, gotEsc := false } ⟨rfl, fun _ h => nomatch h⟩
    exact ⟨h', by rw [hfeed, List.map_eq_flatMap]⟩
  · obtain ⟨b', hfeed, -⟩ := feed_encode
      (R := fun (h : Host) (b : Board) => InStep h.serviceIdOut b.serviceIdIn b.gotEsc)
      (fun h b s hin => feed_hostSend h b s hin) sends { h with serviceIdOut := none }
      { b with serviceIdIn := none, gotEsc := false } ⟨rfl, fun _ h => nomatch h⟩
    exact ⟨b', by rw [hfeed, List.map_eq_flatMap]⟩
  · exact bytesTo_deliveries Service.endpoint_inj k sends
  · exact bytesTo_deliveries Service.id_inj k sends

end Alcor.Proofs.Sermux

/-!
## When the multiplexer stays inside its table

The main loop takes any of the eight service ids from the transport,
and indexes its table with the id when the next payload byte comes,
whether or not it has a service for it. The board, in the same place,
compares the id with the number of its virtual UARTs.

`step_iff` says which passes do harm, `ends_iff` when a known service
is found again, and `routes_iff` follows over the inputs.
-/

namespace Alcor.Proofs.Sermux

open Lib.Stream
open Alcor.Sermux

section Loop
variable {cfg : Config} {h : Host}

/-- A payload byte from the transport. -/
theorem hostTransport_payload {c : UInt8} (hc : needsEscape c = false) :
    hostTransport cfg h c =
      (let c' := if h.gotEsc then c ^^^ SERMUX_ESCAPE_XOR_MASK else c
       if h.gotEsc ∧ ¬ needsEscape c' then none
       else some ({ h with gotEsc := false },
        h.serviceIdIn.elim [.send SERMUX_FORCE_SID_CHAR] fun sid =>
          [.deliver (endpoint cfg sid) c'])) := by
  obtain ⟨hne, hforce, hrange⟩ := (needsEscape_eq_false_iff c).mp hc
  simp only [hostTransport, if_pos hne, if_neg hrange, if_neg hforce]
  cases h.serviceIdIn <;> rfl

theorem sends_inTable (bytes : List UInt8) :
    ∀ o ∈ bytes.map (.send : UInt8 → Output Endpoint), o.InTable cfg := by
  intro o ho
  obtain ⟨c, -, rfl⟩ := List.mem_map.mp ho
  trivial

/-- The bytes that are no payload: the escape byte, the service ids and the request. -/
theorem needsEscape_cases {c : UInt8} (hc : needsEscape c = true) :
    c = SERMUX_ESCAPE_CHAR ∨ c = SERMUX_FORCE_SID_CHAR ∨
      (SERMUX_SERVICE_ID_FIRST ≤ c ∧ c ≤ SERMUX_SERVICE_ID_LAST) := by
  simpa [needsEscape, or_assoc] using hc

/-- A pass stays inside the table, and the program goes on, if it does no harm. -/
theorem step_iff (inp : Input) :
    (∃ h' outs, hostLoop cfg h inp = some (h', outs) ∧ ∀ o ∈ outs, o.InTable cfg) ↔
      Sane cfg h inp := by
  cases inp with
  | service e c =>
    refine ⟨fun _ => trivial, fun _ => ⟨_, _, rfl, sends_inTable _⟩⟩
  | transport c =>
    cases hc : needsEscape c with
    | true =>
      rw [hostLoop, Sane]
      rcases needsEscape_cases hc with rfl | rfl | hsid
      · -- an escape byte only opens an escape
        rw [hostTransport_escape]
        refine ⟨fun _ => ⟨fun heq => absurd heq (by decide), by simp [hc]⟩,
          fun _ => ⟨_, _, rfl, by simp⟩⟩
      · -- a request
        have hne : SERMUX_FORCE_SID_CHAR ≠ SERMUX_ESCAPE_CHAR := by decide
        have hrange : ¬ (SERMUX_SERVICE_ID_FIRST ≤ SERMUX_FORCE_SID_CHAR ∧
            SERMUX_FORCE_SID_CHAR ≤ SERMUX_SERVICE_ID_LAST) := by decide
        simp only [hostTransport, if_pos hne, if_neg hrange]
        cases hprev : h.prevSent with
        | none => simp
        | some last =>
          simp only [if_true]
          exact ⟨fun _ => ⟨fun _ => by simp, by simp [hc]⟩,
            fun _ => ⟨_, _, rfl, sends_inTable _⟩⟩
      · -- any service id is taken over
        rw [hostTransport_sid cfg h hsid]
        have hforce : c ≠ SERMUX_FORCE_SID_CHAR := by
          rintro rfl
          exact absurd hsid (by decide)
        exact ⟨fun _ => ⟨fun heq => absurd heq hforce, by simp [hc]⟩,
          fun _ => ⟨_, _, rfl, by simp⟩⟩
    | false =>
      obtain ⟨-, hforce, -⟩ := (needsEscape_eq_false_iff c).mp hc
      rw [hostLoop, Sane, hostTransport_payload hc]
      simp only [hforce, false_imp_iff, true_and, hc, true_imp_iff]
      -- delivered to the service that is selected, escaped or not
      cases hesc : h.gotEsc with
      | false =>
        cases hsid : h.serviceIdIn <;> simp [Output.InTable]
      | true =>
        cases hflip : needsEscape (c ^^^ SERMUX_ESCAPE_XOR_MASK) <;>
          cases hsid : h.serviceIdIn <;> simp [hflip, Output.InTable]

/-- Known services are found again if no escape is open. -/
theorem ends_iff :
    (∀ sid, Known cfg sid → ∀ c : UInt8, ∃ h'', feed (hostTransport cfg) h (sid :: payload c) =
      some (h'', [.deliver (endpoint cfg sid) c])) ↔
      (h.gotEsc = false ∨ ∀ sid, ¬ Known cfg sid) := by
  constructor
  · intro hroutes
    cases hesc : h.gotEsc with
    | false => exact .inl rfl
    | true =>
      refine .inr fun sid hsid => ?_
      -- a letter behind the open escape is a protocol error
      obtain ⟨h'', hfeed⟩ := hroutes sid hsid 0x61
      have hplain : payload 0x61 = [0x61] := by decide
      rw [hplain, feed_cons (hostTransport_sid cfg h ⟨hsid.1, hsid.2.1⟩),
        feed, hostTransport_payload (by decide)] at hfeed
      have hflip : needsEscape (0x61 ^^^ SERMUX_ESCAPE_XOR_MASK) = false := by decide
      simp [hesc, hflip] at hfeed
  · rintro (hesc | hnone) sid hsid c
    · have hselect := hostTransport_sid cfg h ⟨hsid.1, hsid.2.1⟩
      have hpayload := feed_payload_host cfg { h with serviceIdIn := some sid } rfl hesc c
      exact ⟨_, by rw [feed_cons hselect, hpayload]; rfl⟩
    · exact absurd hsid (hnone sid)

end Loop

/-- **The table of services**: whatever comes from the transport, in between whatever the services
send, the main loop stays inside its table and finds a known service again if and only if no pass
does harm and no escape is left open. By induction on the inputs. -/
theorem routes_iff (cfg : Config) (h : Host) (inputs : List Input) :
    Routes cfg h inputs ↔ SaneRun cfg h inputs := by
  induction inputs generalizing h with
  | nil =>
    rw [SaneRun, ← ends_iff]
    constructor
    · rintro ⟨h', outs, hfeed, -, hroutes⟩
      cases hfeed
      exact hroutes
    · exact fun hroutes => ⟨h, [], rfl, by simp, hroutes⟩
  | cons inp inputs ih =>
    rw [SaneRun, ← step_iff]
    constructor
    · rintro ⟨h', outs, hfeed, hin, hroutes⟩
      cases hstep : hostLoop cfg h inp with
      | none => simp [feed, hstep] at hfeed
      | some r =>
        -- the first pass, and the run from its state on
        obtain ⟨h₁, out⟩ := r
        rw [feed_cons hstep, Option.map_eq_some_iff] at hfeed
        obtain ⟨⟨h₂, rest⟩, hfeed, heq⟩ := hfeed
        cases heq
        refine ⟨⟨h₁, out, rfl, fun o ho => hin o (List.mem_append_left _ ho)⟩, ?_⟩
        rintro h' outs heq
        cases heq
        exact (ih _).mp ⟨_, rest, hfeed, fun o ho => hin o (List.mem_append_right _ ho),
          hroutes⟩
    · rintro ⟨⟨h₁, out, hstep, hin⟩, hrun⟩
      obtain ⟨h', outs, hfeed, hin', hroutes⟩ := (ih h₁).mpr (hrun h₁ out hstep)
      refine ⟨h', out ++ outs, by rw [feed_cons hstep, hfeed]; rfl, ?_, hroutes⟩
      intro o ho
      exact (List.mem_append.mp ho).elim (hin o) (hin' o)

/-- A service id that the multiplexer has no port for, and a byte behind it. -/
theorem not_always_routes :
    ¬ ∀ (cfg : Config) (inputs : List Input), Routes cfg {} inputs := by
  intro h
  obtain ⟨h', outs, hfeed, hin, -⟩ :=
    h ⟨1, 1, false, by decide, by decide⟩ [.transport 0xD5, .transport 0x61]
  have heq : outs = [.deliver (.port 5) 0x61] := by
    have hrun : feed (hostLoop ⟨1, 1, false, by decide, by decide⟩) {}
        [.transport 0xD5, .transport 0x61] =
        some ({ serviceIdIn := some 0xD5 }, [.deliver (.port 5) 0x61]) := by decide
    rw [hrun] at hfeed
    cases hfeed
    rfl
  have hport := hin (.deliver (.port 5) 0x61) (by rw [heq]; exact List.mem_singleton_self _)
  exact absurd (show 5 < 1 from hport) (by decide)

end Alcor.Proofs.Sermux
