import Alcor.Proofs.Sermux.Resync

/-!
# `Alcor.Proofs.Sermux.Recovery`: a receiver that was reset gets the last byte

The sender has sent a byte and waits. The receiver was reset somewhere
in the bytes of it, so it reads the rest of them without a service and
without an open escape. Either the service id is in the rest, or the
receiver asks for it and the sender answers.

* `Direction`: what the argument needs of a sender and a receiver. The
  line to the board and the line to the host are two directions.
* `recovers`: the argument, for any direction.
* `lock_step_recovery`: the receiver gets the byte, in both directions.
-/

set_option autoImplicit false

namespace Alcor.Proofs.Sermux

open Lib.Stream
open Alcor.Sermux

/-- A sender `σ`, a receiver `τ` and what each does about the bytes of the line. -/
structure Direction (cfg : Config) (σ τ δ ε : Type) where
  /-- Send a byte of a service. -/
  send : σ → Service cfg × UInt8 → σ × List UInt8
  /-- The sender takes a byte of the other direction. -/
  answer : σ → UInt8 → Option (σ × List (Output ε))
  /-- The receiver takes a byte. -/
  receive : τ → UInt8 → Option (τ × List (Output δ))
  /-- Where the receiver hands the bytes of a service. -/
  endpoint : Service cfg → δ
  sidOut : σ → Option UInt8
  sidIn : τ → Option UInt8
  gotEsc : τ → Bool
  send_bytes : ∀ (s : σ) (k : Service cfg) (c : UInt8),
    (send s (k, c)).2 = (if sidOut s ≠ some k.id then [k.id] else []) ++ payload c
  send_sid : ∀ (s : σ) (k : Service cfg) (c : UInt8), sidOut (send s (k, c)).1 = some k.id
  answer_force : ∀ (s : σ) (k : Service cfg) (c : UInt8), ∃ s',
    answer (send s (k, c)).1 SERMUX_FORCE_SID_CHAR = some (s', (k.id :: payload c).map .send)
      ∧ sidOut s' = some k.id
  receive_sid : ∀ (t : τ) (k : Service cfg), ∃ t', receive t k.id = some (t', []) ∧
    sidIn t' = some k.id ∧ gotEsc t' = gotEsc t
  receive_payload : ∀ (t : τ) (k : Service cfg) (c : UInt8), sidIn t = some k.id →
    gotEsc t = false → feed receive t (payload c) = some (t, [.deliver (endpoint k) c])
  /-- Without a service, a payload byte makes the receiver ask for one. -/
  receive_plain : ∀ (t : τ) (c : UInt8), sidIn t = none → gotEsc t = false →
    needsEscape c = false → ∃ t', receive t c = some (t', [.send SERMUX_FORCE_SID_CHAR]) ∧
      sidIn t' = none ∧ gotEsc t' = false
  /-- So does one behind an escape. -/
  receive_escaped : ∀ (t : τ) (c : UInt8), sidIn t = none → needsEscape c = true → ∃ t',
    feed receive t (payload c) = some (t', [.send SERMUX_FORCE_SID_CHAR]) ∧ sidIn t' = none
      ∧ gotEsc t' = false

namespace Direction

variable {cfg : Config} {σ τ δ ε : Type} (d : Direction cfg σ τ δ ε)
variable {t : τ}

/-- The receiver in the state `t` reads the rest of the bytes of `c`, a byte of the service `k`,
while the sender waits in the state `s`. If it asks, it reads the answer too. Then `c` has been
delivered to `k` once and nothing else has been delivered, both ends have `k` as their service, and
all later sends are delivered. -/
def Recovers (s : σ) (t : τ) (rest : List UInt8) (k : Service cfg) (c : UInt8) : Prop :=
  ∃ t₁ outs s₂ t₂, feed d.receive t rest = some (t₁, outs) ∧
    ((outs = [.deliver (d.endpoint k) c] ∧ s₂ = s ∧ t₂ = t₁) ∨
      (outs = [.send SERMUX_FORCE_SID_CHAR] ∧
        ∃ bytes, d.answer s SERMUX_FORCE_SID_CHAR = some (s₂, bytes.map .send) ∧
          feed d.receive t₁ bytes = some (t₂, [.deliver (d.endpoint k) c]))) ∧
    d.sidOut s₂ = some k.id ∧ d.sidIn t₂ = some k.id ∧ d.gotEsc t₂ = false ∧
    ∀ sends : List (Service cfg × UInt8), ∃ t₃,
      feed d.receive t₂ (encode d.send s₂ sends).2 =
        some (t₃, sends.map fun a => .deliver (d.endpoint a.1) a.2)

/-- A service id and a payload byte are delivered in any state without an open escape. -/
theorem feed_selected (hesc : d.gotEsc t = false) (k : Service cfg) (c : UInt8) :
    ∃ t', feed d.receive t (k.id :: payload c) = some (t', [.deliver (d.endpoint k) c]) ∧
      d.sidIn t' = some k.id ∧ d.gotEsc t' = false := by
  obtain ⟨t', hsid, hin, hkeep⟩ := d.receive_sid t k
  rw [hesc] at hkeep
  refine ⟨t', ?_, hin, hkeep⟩
  rw [feed_cons hsid, d.receive_payload t' k c hin hkeep]
  rfl

/-- One send between two ends that agree on the service. -/
theorem feed_send (s : σ) (t : τ) (a : Service cfg × UInt8)
    (hin : InStep (d.sidOut s) (d.sidIn t) (d.gotEsc t)) :
    ∃ t', feed d.receive t (d.send s a).2 = some (t', [.deliver (d.endpoint a.1) a.2]) ∧
      InStep (d.sidOut (d.send s a).1) (d.sidIn t') (d.gotEsc t') := by
  obtain ⟨k, c⟩ := a
  obtain ⟨hesc, hsid⟩ := hin
  rw [d.send_bytes, d.send_sid]
  -- a service id goes before the byte when the service changes
  by_cases hout : d.sidOut s = some k.id
  · refine ⟨t, ?_, hesc, fun sid heq => heq ▸ hsid _ hout⟩
    simpa [hout] using d.receive_payload t k c (hsid _ hout) hesc
  · obtain ⟨t', hfeed, hin', hesc'⟩ := d.feed_selected hesc k c
    refine ⟨t', ?_, hesc', fun sid heq => heq ▸ hin'⟩
    rw [if_pos hout]
    exact hfeed

/-- Once both ends have the same service, all sends are delivered. -/
theorem feed_sends {s : σ} {k : Service cfg} (hout : d.sidOut s = some k.id)
    (hin : d.sidIn t = some k.id) (hesc : d.gotEsc t = false)
    (sends : List (Service cfg × UInt8)) :
    ∃ t', feed d.receive t (encode d.send s sends).2 =
      some (t', sends.map fun a => .deliver (d.endpoint a.1) a.2) := by
  obtain ⟨t', hfeed, -⟩ := feed_encode
    (R := fun s t => InStep (d.sidOut s) (d.sidIn t) (d.gotEsc t)) d.feed_send sends s t
    ⟨hesc, fun sid heq => by rw [hin, ← heq, hout]⟩
  exact ⟨t', by rw [hfeed, List.map_eq_flatMap]⟩

/-- What is left of a payload byte makes a receiver without a service ask. -/
theorem asks (hsid : d.sidIn t = none) (hesc : d.gotEsc t = false) {c : UInt8}
    {pre rest : List UInt8} (hsplit : payload c = pre ++ rest) (hrest : rest ≠ []) :
    ∃ t', feed d.receive t rest = some (t', [.send SERMUX_FORCE_SID_CHAR]) ∧
      d.sidIn t' = none ∧ d.gotEsc t' = false := by
  have single : ∀ x, needsEscape x = false → rest = [x] →
      ∃ t', feed d.receive t rest = some (t', [.send SERMUX_FORCE_SID_CHAR]) ∧
        d.sidIn t' = none ∧ d.gotEsc t' = false := by
    rintro x hx rfl
    obtain ⟨t', hstep, hsid', hesc'⟩ := d.receive_plain t x hsid hesc hx
    exact ⟨t', by rw [feed_cons hstep]; rfl, hsid', hesc'⟩
  cases hc : needsEscape c with
  | false =>
    rw [payload, hc, if_neg (by decide)] at hsplit
    rcases List.append_eq_singleton_iff.mp hsplit.symm with ⟨-, hlast⟩ | ⟨-, hnil⟩
    · exact single c hc hlast
    · exact absurd hnil hrest
  | true =>
    cases pre with
    | nil =>
      rw [List.nil_append] at hsplit
      rw [← hsplit]
      exact d.receive_escaped t c hsid hc
    | cons x pre =>
      -- the reset came between the escape byte and the byte behind it
      rw [payload, hc, if_pos rfl, List.cons_append, List.cons.injEq] at hsplit
      rcases List.append_eq_singleton_iff.mp hsplit.2.symm with ⟨-, hlast⟩ | ⟨-, hnil⟩
      · exact single _ (needsEscape_xor hc) hlast
      · exact absurd hnil hrest

/-- A receiver that was reset somewhere in the bytes of a send gets the byte. -/
theorem recovers (s : σ) (hsid : d.sidIn t = none) (hesc : d.gotEsc t = false) (k : Service cfg)
    (c : UInt8) {pre rest : List UInt8} (hsplit : (d.send s (k, c)).2 = pre ++ rest)
    (hrest : rest ≠ []) : d.Recovers (d.send s (k, c)).1 t rest k c := by
  rw [d.send_bytes] at hsplit
  have hout := d.send_sid s k c
  -- The service id was lost, or there was none.
  have hasked : ∀ pre', payload c = pre' ++ rest → d.Recovers (d.send s (k, c)).1 t rest k c := by
    intro pre' hpayload
    obtain ⟨t₁, hfeed, -, hesc₁⟩ := d.asks hsid hesc hpayload hrest
    obtain ⟨s₂, hanswer, hout₂⟩ := d.answer_force s k c
    obtain ⟨t₂, hagain, hin₂, hesc₂⟩ := d.feed_selected hesc₁ k c
    exact ⟨t₁, _, s₂, t₂, hfeed, .inr ⟨rfl, _, hanswer, hagain⟩, hout₂, hin₂, hesc₂,
      d.feed_sends hout₂ hin₂ hesc₂⟩
  by_cases hswitch : d.sidOut s = some k.id
  · rw [if_neg (by simpa using hswitch), List.nil_append] at hsplit
    exact hasked pre hsplit
  · rw [if_pos hswitch, List.singleton_append] at hsplit
    cases pre with
    | nil =>
      -- the service id is still to be read, so that no request is needed
      obtain ⟨t₁, hfeed, hin₁, hesc₁⟩ := d.feed_selected hesc k c
      rw [List.nil_append] at hsplit
      exact ⟨t₁, _, _, t₁, hsplit ▸ hfeed, .inl ⟨rfl, rfl, rfl⟩, hout, hin₁, hesc₁,
        d.feed_sends hout hin₁ hesc₁⟩
    | cons x pre =>
      rw [List.cons_append, List.cons.injEq] at hsplit
      exact hasked pre hsplit.2

end Direction

/-! ### The two directions -/

/-- What the host answers to a request after it has sent a byte. -/
theorem hostTransport_force (cfg : Config) (h : Host) (k : Service cfg) (c : UInt8) :
    hostTransport cfg (hostSend h (k, c)).1 SERMUX_FORCE_SID_CHAR =
      some ({ (hostSend h (k, c)).1 with prevSent := none }, (k.id :: payload c).map .send) := by
  rw [← retransmit_lastSentOf]
  simp only [hostSend, hostService, Service.serviceId_endpoint]
  rfl

/-- What the board answers to a request after it has sent a byte. -/
theorem cmnRxHandler_answer (cfg : Config) (b : Board) (k : Service cfg) (c : UInt8) :
    cmnRxHandler cfg.numVuart (boardSend b (k, c)).1 SERMUX_FORCE_SID_CHAR =
      ({ (boardSend b (k, c)).1 with lastSent := none }, (k.id :: payload c).map .send) := by
  have hvuart := isVuart_force cfg.numVuart_le
  have hne : SERMUX_FORCE_SID_CHAR ≠ SERMUX_ESCAPE_CHAR := by decide
  rw [← retransmit_lastSentOf, boardSend_eq]
  simp only [cmnRxHandler, if_pos hne, hvuart, Bool.false_eq_true, if_false, decide_true,
    Option.getD_some]

/-- From the host to the board. -/
def toBoard (cfg : Config) : Direction cfg Host Board UInt8 Endpoint where
  send := hostSend
  answer := hostTransport cfg
  receive := boardDecoder cfg.numVuart
  endpoint := Service.id
  sidOut := Host.serviceIdOut
  sidIn := Board.serviceIdIn
  gotEsc := Board.gotEsc
  send_bytes h k c := by simp only [hostSend, hostService, Service.serviceId_endpoint]
  send_sid h k c := by simp only [hostSend, hostService, Service.serviceId_endpoint]
  answer_force h k c :=
    ⟨_, hostTransport_force cfg h k c, by
      simp only [hostSend, hostService, Service.serviceId_endpoint]⟩
  receive_sid b k :=
    ⟨{ b with serviceIdIn := some k.id }, by
      rw [boardDecoder, cmnRxHandler_sid cfg.numVuart_le b (Service.isVuart_id k)], rfl, rfl⟩
  receive_payload b k c hsid hesc := feed_payload_board cfg.numVuart_le b hsid hesc c
  receive_plain b c hsid hesc hc :=
    ⟨{ b with gotEsc := false }, by
      rw [boardDecoder, cmnRxHandler_payload cfg.numVuart_le b hc]
      simp only [hsid], hsid, rfl⟩
  receive_escaped b c hsid hc :=
    ⟨{ b with gotEsc := false }, by
      simp [payload, hc, feed, boardDecoder, cmnRxHandler_escape,
        cmnRxHandler_payload cfg.numVuart_le _ (needsEscape_xor hc), hsid], hsid, rfl⟩

/-- From the board to the host. -/
def toHost (cfg : Config) : Direction cfg Board Host Endpoint UInt8 where
  send := boardSend
  answer := boardDecoder cfg.numVuart
  receive := hostTransport cfg
  endpoint := Service.endpoint
  sidOut := Board.serviceIdOut
  sidIn := Host.serviceIdIn
  gotEsc := Host.gotEsc
  send_bytes b k c := by simp only [boardSend_eq]
  send_sid b k c := by simp only [boardSend_eq]
  answer_force b k c :=
    ⟨_, by rw [boardDecoder, cmnRxHandler_answer], by simp only [boardSend_eq]⟩
  receive_sid h k :=
    ⟨{ h with serviceIdIn := some k.id }, hostTransport_sid cfg h (Service.sid_id k), rfl, rfl⟩
  receive_payload h k c hsid hesc := by
    rw [feed_payload_host cfg h hsid hesc c, Service.endpoint_id]
  receive_plain h c hsid hesc hc := by
    obtain ⟨hne, hforce, hrange⟩ := (needsEscape_eq_false_iff c).mp hc
    refine ⟨{ h with gotEsc := false }, ?_, hsid, rfl⟩
    simp only [hostTransport, if_pos hne, if_neg hrange, if_neg hforce, hesc, hsid]
    simp
  receive_escaped h c hsid hc := by
    obtain ⟨hne, hforce, hrange⟩ := (needsEscape_eq_false_iff _).mp (needsEscape_xor hc)
    refine ⟨{ h with gotEsc := false }, ?_, hsid, rfl⟩
    have hflip : hostTransport cfg { h with gotEsc := true } (c ^^^ SERMUX_ESCAPE_XOR_MASK) =
        some ({ h with gotEsc := false }, [.send SERMUX_FORCE_SID_CHAR]) := by
      simp only [hostTransport, if_pos hne, if_neg hrange, if_neg hforce, xor_xor_mask, hsid]
      simp [hc]
    simp [payload, hc, feed, hostTransport_escape, hflip]

/-- **Lock-step recovery**, from the host to the board and from the board to the host. The sender
is in any state that its history has left it in, and sends `c` to the service `k`. The receiver is
reset when some of the bytes of this send are still to be read, at least the last one; what it
knows of the other direction is not touched. Then it recovers. -/
theorem lock_step_recovery (cfg : Config) (k : Service cfg) (c : UInt8) :
    (∀ (h : Host) (b : Board) (pre rest : List UInt8),
      (hostSend h (k, c)).2 = pre ++ rest → rest ≠ [] →
        (toBoard cfg).Recovers (hostSend h (k, c)).1
          { b with serviceIdIn := none, gotEsc := false } rest k c) ∧
    ∀ (b : Board) (h : Host) (pre rest : List UInt8),
      (boardSend b (k, c)).2 = pre ++ rest → rest ≠ [] →
        (toHost cfg).Recovers (boardSend b (k, c)).1
          { h with serviceIdIn := none, gotEsc := false } rest k c := by
  constructor
  · intro h b pre rest hsplit hrest
    exact (toBoard cfg).recovers h (t := { b with serviceIdIn := none, gotEsc := false }) rfl rfl
      k c hsplit hrest
  · intro b h pre rest hsplit hrest
    exact (toHost cfg).recovers b (t := { h with serviceIdIn := none, gotEsc := false }) rfl rfl
      k c hsplit hrest

end Alcor.Proofs.Sermux
