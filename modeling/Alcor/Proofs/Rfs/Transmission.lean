import Alcor.Proofs.Rfs.Robust

/-!
# `Alcor.Proofs.Rfs.Transmission`: which requests are sent as they were written

The loop that empties the receive buffer stores every byte it throws
away at the start of the packet buffer, over the first byte of the
request. So the request goes out as it was written only when no byte
was thrown away, or the last one happens to be that first byte. In
every other case the size in front of the request is not read, and
nothing is sent at all (`transmitted_dirty`).
-/

set_option autoImplicit false

namespace Alcor.Proofs.Rfs

open Lib (Mem Buf)
open Alcor.Eluarpc Alcor.Rfs
open Alcor.Proofs.Eluarpc

section Record
variable {σ : Type} {link : Link σ}
variable {c' : Client (σ × List (List UInt8))}

/-! ### The record -/

/-- Receiving leaves the record as it is. -/
theorem readResponsePacket_record {c : Client (σ × List (List UInt8))} (ok : Bool)
    (h : readResponsePacket link.recorded c = some (ok, c')) : c'.line.2 = c.line.2 := by
  rw [readResponsePacket, Option.bind_eq_some_iff] at h
  obtain ⟨buf, -, h⟩ := h
  split at h
  · cases h
    rfl
  · rw [Option.bind_eq_some_iff] at h
    obtain ⟨size, -, h⟩ := h
    split at h
    · cases h
      rfl
    · rw [readRest, Option.map_eq_some_iff] at h
      obtain ⟨buf', -, h⟩ := h
      cases h
      rfl

/-- What an exchange has sent when it is over. -/
theorem exchange_record {c : Client σ} (call : Call) {format : List Specifier}
    {vs : Option (Outs format)}
    (h : exchange link.recorded c.recorded call.request format = some (vs, c')) :
    call.transmitted link c = some c'.line.2 := by
  rw [exchange, Option.bind_eq_some_iff] at h
  obtain ⟨buf, hwrite, h⟩ := h
  rw [Option.bind_eq_some_iff] at h
  obtain ⟨r, hr, h⟩ := h
  have hline : c'.line = r.2.line := by
    split at h
    · rw [Option.map_eq_some_iff] at h
      obtain ⟨vs', -, h⟩ := h
      cases h
      rfl
    · cases h
      rfl
  rw [rfschSendRequestReadResponse_eq, Option.bind_eq_some_iff] at hr
  obtain ⟨sent, hsent, hr⟩ := hr
  have hkeep : r.2.line.2 = sent.2.line.2 := by
    split at hr
    · exact readResponsePacket_record (c := sent.2) r.1 hr
    · cases hr
      rfl
  rw [Call.transmitted, show eluarpcGenWrite c.buf call.request = some buf from hwrite,
    Option.bind_some, hsent, Option.map_some, hline, hkeep]

/-- What a call has sent when it returns. -/
theorem run_record {c : Client σ} {call : Call} {v : Value}
    (h : call.run link.recorded c.recorded = some (v, c')) :
    call.transmitted link c = some c'.line.2 := by
  have hrfsc : ∀ value error,
      rfsc link.recorded c.recorded call.request call.format value error = some (v, c') →
      call.transmitted link c = some c'.line.2 := by
    intro value error h
    rw [rfsc, Option.map_eq_some_iff] at h
    obtain ⟨⟨vs, c''⟩, hx, hv⟩ := h
    cases hv
    exact exchange_record _ hx
  cases call with
  | read fd buf count =>
    rw [Call.run, rfscRead, Option.map_eq_some_iff] at h
    obtain ⟨⟨v', mem, c''⟩, h, hv⟩ := h
    cases hv
    rw [Option.bind_eq_some_iff] at h
    obtain ⟨⟨vs, d⟩, hx, hcopy⟩ := h
    -- the copy out of the packet does not touch the line
    have hd : c' = d := by
      cases vs with
      | none =>
        cases hcopy
        rfl
      | some vs => exact (copyData_value hcopy).2
    subst hd
    exact exchange_record (.read fd buf count) hx
  | «open» pathname flags mode => exact hrfsc _ _ h
  | write fd buf => exact hrfsc _ _ h
  | lseek fd offset whence => exact hrfsc _ _ h
  | close fd => exact hrfsc _ _ h
  | opendir name => exact hrfsc _ _ h
  | readdir d => exact hrfsc _ _ h
  | closedir d => exact hrfsc _ _ h

/-! ### Requests -/

/-- The call sends the packet that its request was written into, byte for byte and nothing else;
so says the record of every run of the call that returns. -/
def SendsRequest (link : Link σ) (c : Client σ) (call : Call) : Prop :=
  (∃ buf, eluarpcGenWrite c.buf call.request = some buf ∧
    call.transmitted link c = some [buf.mem.read 0 (packetSize call.request)]) ∧
  ∀ v c', call.run link.recorded c.recorded = some (v, c') →
    c'.line.2 = [requestBytes c.buf.mem call.request]

variable {c : Client σ} {call : Call} (hlt : c.buf.size < 65536)
  (hfits : packetSize call.request ≤ c.buf.size)
include hlt hfits

theorem transmitted_clean (hclean : Clean (link.pending c.line).1) :
    call.transmitted link c = some [requestBytes c.buf.mem call.request] := by
  have hsrc : ∀ it ∈ call.request, it.Sourced := fun it hit => (request_sourced call it hit).1
  have hfour := four_le_packetSize call.request
  have hwrite := genWrite_eq c.buf (by omega) hsrc hfits
  obtain ⟨hsize, -⟩ := packetMem_holds c.buf.mem call.request
  have hsent := sendRequest_clean link.recorded
    { c.recorded with buf := { c.buf with mem := packetMem c.buf.mem call.request } }
    (packetSize call.request) hsize hfits (show 4 ≤ c.buf.size by omega) (by omega) hclean
  rw [Call.transmitted, hwrite, Option.bind_some, hsent]
  rfl

theorem transmitted_dirty (hdirty : ¬ Clean (link.pending c.line).1) :
    call.transmitted link c = some [] := by
  have hsrc : ∀ it ∈ call.request, it.Sourced := fun it hit => (request_sourced call it hit).1
  have hfour := four_le_packetSize call.request
  have hwrite := genWrite_eq c.buf (by omega) hsrc hfits
  obtain ⟨c', hsent, hline⟩ := sendRequest_dirty link.recorded
    { c.recorded with buf := { c.buf with mem := packetMem c.buf.mem call.request } }
    (show 4 ≤ c.buf.size by omega) hdirty
  rw [Call.transmitted, hwrite, Option.bind_some, hsent, Option.map_some, hline]
  rfl

omit hfits in
/-- A request goes out as it was written when it fits and the last byte that was thrown away is
none, or the one that was there. -/
theorem sendsRequest_iff :
    SendsRequest link c call ↔
      packetSize call.request ≤ c.buf.size ∧ Clean (link.pending c.line).1 := by
  have hsrc := request_sourced call
  constructor
  · rintro ⟨⟨buf, hwrite, hsent⟩, -⟩
    have hfits := packetSize_le_of_genWrite (fun it hit => (hsrc it hit).2) hwrite
    refine ⟨hfits, ?_⟩
    by_contra hdirty
    rw [transmitted_dirty hlt hfits hdirty] at hsent
    cases hsent
  · rintro ⟨hfits, hclean⟩
    have hsent := transmitted_clean hlt hfits hclean
    refine ⟨⟨_, genWrite_eq c.buf (by omega) (fun it hit => (hsrc it hit).1) hfits, hsent⟩, ?_⟩
    intro v c' hrun
    rw [run_record hrun, Option.some.injEq] at hsent
    exact hsent

end Record

/-- A call of a client with a packet buffer of `2 ^ RFS_BUFFER_SIZE` bytes sends its request as it
was written if and only if the request fits into the buffer and the last of the stale bytes on the
line, if there is one, is the byte that every packet starts with. -/
theorem request_sent_iff {σ : Type} (rfsBufferSize : Fin 16) (link : Link σ) (m : Mem) (line : σ)
    (received : Nat) (call : Call) :
    SendsRequest link ⟨⟨m, 2 ^ rfsBufferSize.val⟩, line, received⟩ call ↔
      packetSize call.request ≤ 2 ^ rfsBufferSize.val ∧
        ∀ b ∈ (link.pending line).1.getLast?, b = TYPE_PKT_SIZE :=
  sendsRequest_iff (Nat.pow_lt_pow_right (by decide) rfsBufferSize.isLt)

/-- One stale byte is enough: the request of this `close` is not sent. -/
theorem request_not_always_sent :
    ¬ ∀ (rfsBufferSize : Fin 16) (link : Link (List (Option UInt8))) (m : Mem)
      (line : List (Option UInt8)) (received : Nat) (call : Call),
      packetSize call.request ≤ 2 ^ rfsBufferSize.val →
      SendsRequest link ⟨⟨m, 2 ^ rfsBufferSize.val⟩, line, received⟩ call := by
  intro h
  have hsends := h 9 (arrivals true id) (fun _ => 0) [some 0x41, none] 0 (.close 1) (by decide)
  have hclean := ((sendsRequest_iff (show 2 ^ 9 < 65536 by decide)).mp hsends).2
  exact absurd (hclean 0x41 rfl) (by decide)

end Alcor.Proofs.Rfs
