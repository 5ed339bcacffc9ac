import Mathlib.Data.List.Induction
import Alcor.Proofs.Eluarpc.Packets
import Alcor.Rfs.Transports
import Alcor.Eluarpc.Codec

/-!
# `Alcor.Proofs.Rfs.Assembly`: packets are assembled

The bytes of a packet arrive in the buffer, and when they do not.

* `memAssembling_step` and `blockingAssembling_step`: every byte and
  every response keeps the invariant of a transport, as long as the
  declared size is one of a packet that fits.
* `udpReadHelper_eq`: over UDP it does not matter how the bytes are cut
  into what `net_recvfrom` returns.
* `packets_assembled` is the result about every sequence of bytes and
  responses.
* `never_recovers`: behind a rejected header the service gives no
  response any more, whatever follows. `feed_rejected` and `feed_stuck`
  are the two parts of it, `answers_start` is what is lost.
-/

set_option autoImplicit false

/-!
## Request packets are assembled inside `rfs_buffer`

`getPacketSize_store` is what both kinds of transport rest on: the bytes
behind the length do not change the size a packet declares. The
invariants `MemAssembling` and `BlockingAssembling` say where the
bytes of the packet stand. As long as every declared size is one of a
packet that fits, each byte has its place in the buffer, and the count
of the bytes meets the size.
-/

namespace Alcor.Proofs.Rfs

open Lib (Mem Buf)
open Alcor.Eluarpc
open Alcor.Proofs.Eluarpc
open Alcor.Rfs

variable {c : UInt8} {buf : Buf}

/-! ### The declared size -/

/-- The bytes behind the length do not matter for the declared size. -/
theorem getPacketSize_store (b : Buf) {p : Nat} (hp : ELUARPC_START_OFFSET ≤ p) (bs : List UInt8) :
    eluarpcGetPacketSize { b with mem := b.mem.store p bs } = eluarpcGetPacketSize b := by
  have hagree : Mem.Agree (b.mem.store p bs) b.mem 0 p := fun x _ hx => Mem.store_of_lt _ _ _ hx
  have hp : 4 ≤ p := hp
  rw [getPacketSize_eq, getPacketSize_eq]
  simp only [hagree 0 (Nat.le_refl 0) (by omega), hagree 1 (Nat.zero_le 1) (by omega),
    hagree.read_eq 2 2 (Nat.zero_le 2) (by omega)]

/-- A buffer of the size of `rfs_buffer` has a header to look at. -/
theorem getPacketSize_isSome {b : Buf} (hb : b.size = RFS_BUFFER_BYTES) :
    ∃ err size, eluarpcGetPacketSize b = some (err, size) := by
  refine ⟨_, _, (getPacketSize_eq b).trans (if_pos ?_)⟩
  rw [hb]
  decide

/-- The last byte of the length, and the size it declares. -/
theorem declaredSize_of {b : Buf} {size : UInt16}
    (h : eluarpcGetPacketSize { b with mem := b.mem.store 3 [c] } = some (false, size)) :
    size.toNat ∈ declaredSize b c := by
  simp [declaredSize, h]

/-! ### The memory transport -/

/-- The invariant of the memory transport. -/
def MemAssembling (s : Fed MemTransport) : Prop :=
  s.transport.buf.size = RFS_BUFFER_BYTES ∧
  match s.transport.state with
  | .readLength  => s.fed = s.transport.readLen ∧ s.transport.readLen < ELUARPC_START_OFFSET ∧
      s.transport.responseFlag = false
  | .readRequest => ∃ size, eluarpcGetPacketSize s.transport.buf = some (false, size) ∧
      s.transport.expectedLen = (size.toNat : Int) - ELUARPC_START_OFFSET ∧
      s.fed = ELUARPC_START_OFFSET + s.transport.readLen ∧ s.fed < size.toNat ∧
      size.toNat ≤ RFS_BUFFER_BYTES ∧ s.transport.responseFlag = false
  | .requestDone => s.transport.responseFlag →
      ∃ size, eluarpcGetPacketSize s.transport.buf = some (false, size) ∧ size.toNat = s.fed

/-- What the invariant says of the packet, for the memory transport. -/
theorem MemAssembling.assembles {s : Fed MemTransport} (h : MemAssembling s) :
    Assembles s.transport.expected s.transport.room (rfsMemHasResponse s.transport)
      s.transport.buf s.fed := by
  obtain ⟨⟨buf, readLen, expectedLen, state, flag⟩, fed⟩ := s
  obtain ⟨hsize, hstate⟩ := h
  obtain rfl | rfl | rfl : state = .readLength ∨ state = .readRequest ∨ state = .requestDone := by
    cases state <;> simp
  · obtain ⟨-, hlt, hflag⟩ := hstate
    dsimp only [MemTransport.expected, MemTransport.room, rfsMemHasResponse] at *
    have hbig : ELUARPC_START_OFFSET ≤ RFS_BUFFER_BYTES := by decide
    exact ⟨by omega, by omega, by simp [hflag]⟩
  · obtain ⟨size, -, hexp, hfed, hlt, hle, hflag⟩ := hstate
    dsimp only [MemTransport.expected, MemTransport.room, rfsMemHasResponse] at *
    exact ⟨by omega, by omega, by simp [hflag]⟩
  · dsimp only [MemTransport.expected, MemTransport.room, rfsMemHasResponse] at *
    exact ⟨Int.le_refl 0, by omega, hstate⟩

/-- A byte of the length. -/
theorem memAssembling_length {readLen : Nat} {expectedLen : Int}
    (h : MemAssembling ⟨⟨buf, readLen, expectedLen, .readLength, false⟩, readLen⟩)
    (hfits : MemFits ⟨⟨buf, readLen, expectedLen, .readLength, false⟩, readLen⟩ (.byte c)) :
    ∃ s', memStep ⟨⟨buf, readLen, expectedLen, .readLength, false⟩, readLen⟩ (.byte c) = some s' ∧
      MemAssembling s' := by
  obtain ⟨hsize, -, hlt, -⟩ := h
  have hsize : buf.size = 4125 := hsize
  have hlt : readLen < 4 := hlt
  have hput : buf.put? readLen [c] = some { buf with mem := buf.mem.store readLen [c] } := by
    refine Lib.Buf.put?_of_le ?_
    rw [List.length_singleton]
    omega
  by_cases hlast : readLen + 1 = ELUARPC_START_OFFSET
  · -- the length is complete, and the header is looked at
    obtain ⟨err, size, hheader⟩ :=
      getPacketSize_isSome (b := { buf with mem := buf.mem.store readLen [c] }) hsize
    obtain rfl : readLen = 3 := Nat.succ_injective hlast
    cases err with
    | true =>
      refine ⟨⟨⟨{ buf with mem := buf.mem.store 3 [c] }, 0, expectedLen, .requestDone, false⟩,
        4⟩, ?_, hsize, nofun⟩
      simp [memStep, rfsMemReadRequestPacket, hput, hheader, ELUARPC_START_OFFSET]
    | false =>
      obtain ⟨hlo, hhi⟩ := hfits rfl rfl _ (declaredSize_of hheader)
      refine ⟨⟨⟨{ buf with mem := buf.mem.store 3 [c] }, 0,
        (size.toNat : Int) - ELUARPC_START_OFFSET, .readRequest, false⟩, 4⟩, ?_, hsize,
        size, hheader, rfl, rfl, hlo, hhi, rfl⟩
      simp [memStep, rfsMemReadRequestPacket, hput, hheader, ELUARPC_START_OFFSET]
  · refine ⟨⟨⟨{ buf with mem := buf.mem.store readLen [c] }, readLen + 1, expectedLen,
      .readLength, false⟩, readLen + 1⟩, ?_, hsize, rfl, ?_, rfl⟩
    · simp [memStep, rfsMemReadRequestPacket, hput, hlast]
    · have hlast : readLen + 1 ≠ 4 := hlast
      show readLen + 1 < 4
      omega

/-- A byte of the rest. -/
theorem memAssembling_request {s : Fed MemTransport} (h : MemAssembling s)
    (hstate : s.transport.state = .readRequest) (c : UInt8) :
    ∃ s', memStep s (.byte c) = some s' ∧ MemAssembling s' := by
  obtain ⟨⟨buf, readLen, expectedLen, state, flag⟩, fed⟩ := s
  obtain rfl : state = .readRequest := hstate
  obtain ⟨hsize, size, hheader, hexp, hfed, hlt, hle, hflag⟩ := h
  dsimp only at hsize hheader hexp hfed hlt hle hflag
  subst hexp hfed hflag
  have hput : buf.put? (ELUARPC_START_OFFSET + readLen) [c] =
      some { buf with mem := buf.mem.store (ELUARPC_START_OFFSET + readLen) [c] } := by
    refine Lib.Buf.put?_of_le ?_
    rw [List.length_singleton]
    omega
  have hheader' : eluarpcGetPacketSize
      { buf with mem := buf.mem.store (ELUARPC_START_OFFSET + readLen) [c] } = some (false, size) :=
    (getPacketSize_store buf (Nat.le_add_right _ _) [c]).trans hheader
  by_cases hlast : (readLen : Int) + 1 = (size.toNat : Int) - ELUARPC_START_OFFSET
  · refine ⟨⟨⟨{ buf with mem := buf.mem.store (ELUARPC_START_OFFSET + readLen) [c] },
      readLen + 1, (size.toNat : Int) - ELUARPC_START_OFFSET, .requestDone, true⟩,
      ELUARPC_START_OFFSET + readLen + 1⟩, ?_, hsize, fun _ => ⟨size, hheader', ?_⟩⟩
    · simp [memStep, rfsMemReadRequestPacket, hput, hlast]
    · dsimp only
      omega
  · refine ⟨⟨⟨{ buf with mem := buf.mem.store (ELUARPC_START_OFFSET + readLen) [c] },
      readLen + 1, (size.toNat : Int) - ELUARPC_START_OFFSET, .readRequest, false⟩,
      ELUARPC_START_OFFSET + readLen + 1⟩, ?_, hsize, size, hheader', rfl, rfl, ?_, hle, rfl⟩
    · simp [memStep, rfsMemReadRequestPacket, hput, hlast]
    · dsimp only
      omega

/-- Every byte and every response keeps the invariant of the memory transport. -/
theorem memAssembling_step (s : Fed MemTransport) (e : Feed) (h : MemAssembling s)
    (hfits : MemFits s e) : ∃ s', memStep s e = some s' ∧ MemAssembling s' := by
  cases e with
  | respond m =>
    by_cases hflag : rfsMemHasResponse s.transport = true
    · exact ⟨_, if_pos hflag, rfl, rfl, Nat.zero_lt_succ 3, rfl⟩
    · exact ⟨s, if_neg hflag, h⟩
  | byte c =>
    cases hstate : s.transport.state with
    | readLength =>
      obtain ⟨⟨buf, readLen, expectedLen, state, flag⟩, fed⟩ := s
      obtain rfl : state = .readLength := hstate
      obtain ⟨hfed, hlt, hflag⟩ := h.2
      dsimp only at hfed hflag
      subst hfed hflag
      exact memAssembling_length h hfits
    | readRequest => exact memAssembling_request h hstate c
    | requestDone =>
      refine ⟨s, ?_, h⟩
      simp [memStep, rfsMemReadRequestPacket, hstate]

/-! ### The serial and the UDP transport -/

/-- The invariant of a blocking transport. -/
def BlockingAssembling (s : Fed Blocking) : Prop :=
  s.transport.buf.size = RFS_BUFFER_BYTES ∧
  match s.transport.phase with
  | .length got      => s.fed = got ∧ got < ELUARPC_START_OFFSET
  | .rest temp16 got => eluarpcGetPacketSize s.transport.buf = some (false, temp16) ∧
      s.fed = ELUARPC_START_OFFSET + got ∧ s.fed < temp16.toNat ∧
      temp16.toNat ≤ RFS_BUFFER_BYTES
  | .complete        =>
    ∃ size, eluarpcGetPacketSize s.transport.buf = some (false, size) ∧ size.toNat = s.fed

/-- What the invariant says of the packet, for the transports that
wait. -/
theorem BlockingAssembling.assembles {s : Fed Blocking} (h : BlockingAssembling s) :
    Assembles s.transport.expected s.transport.room (s.transport.phase = .complete)
      s.transport.buf s.fed := by
  obtain ⟨⟨buf, phase⟩, fed⟩ := s
  obtain ⟨hsize, hphase⟩ := h
  cases phase with
  | length got =>
    obtain ⟨-, hlt⟩ := hphase
    have hbig : ELUARPC_START_OFFSET ≤ RFS_BUFFER_BYTES := by decide
    dsimp only [Blocking.expected, Blocking.room] at *
    exact ⟨by omega, by omega, by simp⟩
  | rest temp16 got =>
    obtain ⟨-, hfed, hlt, hle⟩ := hphase
    dsimp only [Blocking.expected, Blocking.room] at *
    exact ⟨by omega, by omega, by simp⟩
  | complete =>
    dsimp only [Blocking.expected, Blocking.room] at *
    exact ⟨Int.le_refl 0, by omega, fun _ => hphase⟩

/-- The rest of a packet that is no shorter than its length. -/
theorem restSize_eq {size : UInt16} (h : ELUARPC_START_OFFSET ≤ size.toNat) :
    restSize size = size.toNat - ELUARPC_START_OFFSET := by
  have hlt := UInt16.toNat_lt size
  rw [restSize]
  omega

/-- A byte of the length. -/
theorem blockingAssembling_length {got : Nat} (h : BlockingAssembling ⟨⟨buf, .length got⟩, got⟩)
    (hfits : BlockingFits ⟨⟨buf, .length got⟩, got⟩ (.byte c)) :
    ∃ s', blockingStep readByte ⟨⟨buf, .length got⟩, got⟩ (.byte c) = some s' ∧
      BlockingAssembling s' := by
  obtain ⟨hsize, -, hlt⟩ := h
  have hsize : buf.size = 4125 := hsize
  have hlt : got < 4 := hlt
  have hput : buf.put? got [c] = some { buf with mem := buf.mem.store got [c] } := by
    refine Lib.Buf.put?_of_le ?_
    rw [List.length_singleton]
    omega
  by_cases hlast : got + 1 = ELUARPC_START_OFFSET
  · obtain ⟨err, size, hheader⟩ :=
      getPacketSize_isSome (b := { buf with mem := buf.mem.store got [c] }) hsize
    obtain rfl : got = 3 := Nat.succ_injective hlast
    cases err with
    | true =>
      -- no length: the next byte is taken for the first of one
      refine ⟨⟨⟨{ buf with mem := buf.mem.store 3 [c] }, .length 0⟩, 0⟩, ?_, hsize, rfl,
        Nat.zero_lt_succ 3⟩
      simp [blockingStep, readByte, hput, hheader, ELUARPC_START_OFFSET]
    | false =>
      obtain ⟨hlo, hhi⟩ := hfits rfl _ (declaredSize_of hheader)
      by_cases hzero : restSize size = 0
      · refine ⟨⟨⟨{ buf with mem := buf.mem.store 3 [c] }, .complete⟩, 4⟩, ?_, hsize,
          size, hheader, ?_⟩
        · simp [blockingStep, readByte, hput, hheader, hzero, ELUARPC_START_OFFSET]
        · rw [restSize_eq hlo] at hzero
          have hlo : 4 ≤ size.toNat := hlo
          have hzero : size.toNat - 4 = 0 := hzero
          show size.toNat = 4
          omega
      · refine ⟨⟨⟨{ buf with mem := buf.mem.store 3 [c] }, .rest size 0⟩, 4⟩, ?_, hsize,
          hheader, rfl, ?_, hhi⟩
        · simp [blockingStep, readByte, hput, hheader, hzero, ELUARPC_START_OFFSET]
        · rw [restSize_eq hlo] at hzero
          have hzero : ¬ size.toNat - 4 = 0 := hzero
          dsimp only
          omega
  · refine ⟨⟨⟨{ buf with mem := buf.mem.store got [c] }, .length (got + 1)⟩, got + 1⟩, ?_, hsize,
      rfl, ?_⟩
    · simp [blockingStep, readByte, hput, hlast]
    · have hlast : got + 1 ≠ 4 := hlast
      show got + 1 < 4
      omega

/-- A byte of the rest. -/
theorem blockingAssembling_rest {temp16 : UInt16} {got fed : Nat}
    (h : BlockingAssembling ⟨⟨buf, .rest temp16 got⟩, fed⟩) (c : UInt8) :
    ∃ s', blockingStep readByte ⟨⟨buf, .rest temp16 got⟩, fed⟩ (.byte c) = some s' ∧
      BlockingAssembling s' := by
  obtain ⟨hsize, hheader, hfed, hlt, hle⟩ := h
  dsimp only at hsize hheader hfed hlt hle
  subst hfed
  have hput : buf.put? (ELUARPC_START_OFFSET + got) [c] =
      some { buf with mem := buf.mem.store (ELUARPC_START_OFFSET + got) [c] } := by
    refine Lib.Buf.put?_of_le ?_
    rw [List.length_singleton]
    omega
  have hheader' : eluarpcGetPacketSize
      { buf with mem := buf.mem.store (ELUARPC_START_OFFSET + got) [c] } = some (false, temp16) :=
    (getPacketSize_store buf (Nat.le_add_right _ _) [c]).trans hheader
  have hrest : restSize temp16 = temp16.toNat - ELUARPC_START_OFFSET := restSize_eq (by omega)
  by_cases hlast : got + 1 = restSize temp16
  · refine ⟨⟨⟨{ buf with mem := buf.mem.store (ELUARPC_START_OFFSET + got) [c] }, .complete⟩,
      ELUARPC_START_OFFSET + got + 1⟩, ?_, hsize, temp16, hheader', ?_⟩
    · simp [blockingStep, readByte, hput, hlast]
    · dsimp only
      omega
  · refine ⟨⟨⟨{ buf with mem := buf.mem.store (ELUARPC_START_OFFSET + got) [c] },
      .rest temp16 (got + 1)⟩, ELUARPC_START_OFFSET + got + 1⟩, ?_, hsize, hheader', rfl, ?_, hle⟩
    · simp [blockingStep, readByte, hput, hlast]
    · dsimp only
      omega

/-- Every byte and every response keeps the invariant of a blocking transport. -/
theorem blockingAssembling_step (s : Fed Blocking) (e : Feed) (h : BlockingAssembling s)
    (hfits : BlockingFits s e) :
    ∃ s', blockingStep readByte s e = some s' ∧ BlockingAssembling s' := by
  obtain ⟨⟨buf, phase⟩, fed⟩ := s
  cases e with
  | respond m =>
    by_cases hdone : phase = .complete
    · exact ⟨_, if_pos hdone, rfl, rfl, Nat.zero_lt_succ 3⟩
    · exact ⟨_, if_neg hdone, h⟩
  | byte c =>
    cases phase with
    | length got =>
      obtain ⟨hfed, -⟩ := h.2
      dsimp only at hfed
      subst hfed
      exact blockingAssembling_length h hfits
    | rest temp16 got => exact blockingAssembling_rest h c
    | complete =>
      refine ⟨_, ?_, h⟩
      simp [blockingStep, readByte]

/-! ### Several bytes at once -/

/-- A byte and those behind it are stored one after the other, or one
of them has no place. -/
theorem put?_cons (b : Buf) (p : Nat) (c : UInt8) (data : List UInt8) :
    b.put? p (c :: data) = (b.put? p [c]).bind (·.put? (p + 1) data) := by
  have hstore : (b.mem.store p [c]).store (p + 1) data = b.mem.store p (c :: data) :=
    Mem.store_append b.mem p [c] data
  have hlen : p + (c :: data).length = p + 1 + data.length := by
    rw [List.length_cons]
    omega
  by_cases hc : p + 1 ≤ b.size
  · have hone : b.put? p [c] = some { b with mem := b.mem.store p [c] } := Buf.put?_of_le hc
    rw [hone, Option.bind_some, Buf.put?, Buf.put?, hlen, hstore]
  · have hnone : b.put? p [c] = none := if_neg hc
    rw [hnone, Buf.put?, if_neg (by omega)]
    rfl

/-- What `net_recvfrom` returns at once is taken like its first byte
and then the others, as long as the read asks for more than that. -/
theorem udpReadHelper_cons {t : Blocking} {data : List UInt8} (hdata : data ≠ [])
    (hlen : data.length + 1 ≤ t.missing) :
    udpReadHelper t (c :: data) = (readByte t c).bind (udpReadHelper · data) ∧
      ∀ t', readByte t c = some t' → t'.missing + 1 = t.missing := by
  have hpos : 0 < data.length := List.length_pos_iff.mpr hdata
  obtain ⟨buf, phase⟩ := t
  cases phase with
  | length got =>
    have hmore : got + 1 ≠ ELUARPC_START_OFFSET := by
      simp only [Blocking.missing] at hlen
      omega
    have hcount : got + (c :: data).length = got + 1 + data.length := by
      rw [List.length_cons]
      omega
    simp only [udpReadHelper, readByte, put?_cons buf got c data, hcount, if_neg hmore]
    cases buf.put? got [c] with
    | none => exact ⟨rfl, nofun⟩
    | some buf' =>
      refine ⟨rfl, fun t' ht' => ?_⟩
      obtain rfl := Option.some.inj ht'
      simp only [Blocking.missing] at hlen ⊢
      omega
  | rest temp16 got =>
    have hmore : got + 1 ≠ restSize temp16 := by
      simp only [Blocking.missing] at hlen
      omega
    have hcount : got + (c :: data).length = got + 1 + data.length := by
      rw [List.length_cons]
      omega
    simp only [udpReadHelper, readByte, put?_cons buf _ c data, hcount, if_neg hmore,
      Nat.add_assoc ELUARPC_START_OFFSET]
    cases buf.put? (ELUARPC_START_OFFSET + got) [c] with
    | none => exact ⟨rfl, nofun⟩
    | some buf' =>
      refine ⟨rfl, fun t' ht' => ?_⟩
      obtain rfl := Option.some.inj ht'
      simp only [Blocking.missing] at hlen ⊢
      omega
  | complete => exact absurd hlen (Nat.not_succ_le_zero _)

/-- One byte alone is taken as the serial transport takes it. -/
theorem udpReadHelper_single (t : Blocking) (c : UInt8) : udpReadHelper t [c] = readByte t c := by
  obtain ⟨buf, phase⟩ := t
  cases phase <;> rfl

/-- **The loop of `udp_read_helper`**: however the bytes that a read is
asking for are cut into what `net_recvfrom` returns, they are taken one
by one. -/
theorem udpReadHelper_eq (data : List UInt8) :
    ∀ t : Blocking, data ≠ [] → data.length ≤ t.missing →
      udpReadHelper t data = data.foldlM readByte t := by
  induction data with
  | nil => exact fun t h => absurd rfl h
  | cons c data ih =>
    intro t _ hlen
    rw [List.foldlM_cons]
    cases data with
    | nil =>
      rw [udpReadHelper_single]
      cases readByte t c <;> rfl
    | cons c' data =>
      have hmore : c' :: data ≠ [] := List.cons_ne_nil _ _
      obtain ⟨heq, hmissing⟩ := udpReadHelper_cons hmore hlen
      rw [heq]
      cases hread : readByte t c with
      | none => rfl
      | some t' =>
        have hmissing' := hmissing t' hread
        rw [List.length_cons] at hlen
        exact ih t' (List.cons_ne_nil _ _) (by omega)

/-! ### Byte streams -/

/-- Any bytes, with responses of the server between the packets, whatever `rfs_buffer` holds at
first: as long as every declared size is one of a packet that fits, all transports write inside
`rfs_buffer` only, expect no negative number of bytes and none that does not fit, and report a
packet when it has exactly the declared number of bytes. -/
theorem packets_assembled (m : Mem) (es : List Feed) :
    (Lib.Run.AllSteps memStep MemFits ⟨{ buf := rfsBuffer m }, 0⟩ es →
      ∃ s, Lib.Run.run memStep ⟨{ buf := rfsBuffer m }, 0⟩ es = some s ∧
        Assembles s.transport.expected s.transport.room (rfsMemHasResponse s.transport)
          s.transport.buf s.fed) ∧
    ∀ read ∈ [serReadRequestPacket, udpReadRequestPacket],
      Lib.Run.AllSteps (blockingStep read) BlockingFits ⟨{ buf := rfsBuffer m }, 0⟩ es →
      ∃ s, Lib.Run.run (blockingStep read) ⟨{ buf := rfsBuffer m }, 0⟩ es = some s ∧
        Assembles s.transport.expected s.transport.room (s.transport.phase = .complete)
          s.transport.buf s.fed := by
  constructor
  · intro hfits
    have hstart : MemAssembling ⟨{ buf := rfsBuffer m }, 0⟩ :=
      ⟨rfl, rfl, Nat.zero_lt_succ 3, rfl⟩
    obtain ⟨s, hrun, hs⟩ := Lib.Run.progress_run memAssembling_step es _ hstart hfits
    exact ⟨s, hrun, hs.assembles⟩
  · intro read hread hfits
    have hstart : BlockingAssembling ⟨{ buf := rfsBuffer m }, 0⟩ :=
      ⟨rfl, rfl, Nat.zero_lt_succ 3⟩
    -- both transports read the next byte in the same way
    obtain rfl : read = readByte := by
      simp only [List.mem_cons, List.not_mem_nil, or_false] at hread
      obtain rfl | rfl := hread
      · rfl
      · exact funext fun t => funext fun c => udpReadHelper_single t c
    obtain ⟨s, hrun, hs⟩ := Lib.Run.progress_run blockingAssembling_step es _ hstart hfits
    exact ⟨s, hrun, hs.assembles⟩

/-- An empty `rfs_buffer`. -/
def zeroes : Mem := fun _ => 0

/-- Bytes of a packet that declares the size 5. -/
def fiveBytes : List Feed :=
  [.byte TYPE_PKT_SIZE, .byte TYPE_INT_16, .byte 5, .byte 0, .byte 1]

/-- The first five bytes of a packet, in an empty buffer. -/
theorem packets_assembled_five :
    (∃ s, Lib.Run.run memStep ⟨{ buf := rfsBuffer zeroes }, 0⟩ fiveBytes = some s ∧
      Assembles s.transport.expected s.transport.room (rfsMemHasResponse s.transport)
        s.transport.buf s.fed) ∧
    ∃ s, Lib.Run.run (blockingStep serReadRequestPacket) ⟨{ buf := rfsBuffer zeroes }, 0⟩
        fiveBytes = some s ∧
      Assembles s.transport.expected s.transport.room (s.transport.phase = .complete)
        s.transport.buf s.fed :=
  ⟨(packets_assembled zeroes fiveBytes).1 (by decide),
    (packets_assembled zeroes fiveBytes).2 serReadRequestPacket (by simp) (by decide)⟩

/-- Bytes of a length that declares the size 0, which is accepted. -/
def sizeZero : List Feed := [.byte TYPE_PKT_SIZE, .byte TYPE_INT_16, .byte 0, .byte 0]

/-- Behind it all transports expect −4 bytes. -/
theorem packets_not_assembled :
    (∃ s, Lib.Run.run memStep ⟨{ buf := rfsBuffer zeroes }, 0⟩ sizeZero = some s ∧
      s.transport.expected = -4 ∧
      ¬ Assembles s.transport.expected s.transport.room (rfsMemHasResponse s.transport)
        s.transport.buf s.fed) ∧
    ∃ s, Lib.Run.run (blockingStep serReadRequestPacket) ⟨{ buf := rfsBuffer zeroes }, 0⟩
        sizeZero = some s ∧ s.transport.expected = -4 ∧
      ¬ Assembles s.transport.expected s.transport.room (s.transport.phase = .complete)
        s.transport.buf s.fed := by
  constructor
  · obtain ⟨s, hs, hexp⟩ := Option.map_eq_some_iff.mp
      (show (Lib.Run.run memStep ⟨{ buf := rfsBuffer zeroes }, 0⟩ sizeZero).map
        (·.transport.expected) = some (-4) by decide)
    exact ⟨s, hs, hexp, fun h => absurd (hexp ▸ h.expected_nonneg) (by decide)⟩
  · obtain ⟨s, hs, hexp⟩ := Option.map_eq_some_iff.mp
      (show (Lib.Run.run (blockingStep serReadRequestPacket) ⟨{ buf := rfsBuffer zeroes }, 0⟩
        sizeZero).map (·.transport.expected) = some (-4) by decide)
    exact ⟨s, hs, hexp, fun h => absurd (hexp ▸ h.expected_nonneg) (by decide)⟩

end Alcor.Proofs.Rfs

/-!
## The service after a rejected header

A header that is rejected leaves the memory transport in the state of
a complete request, but without a response (`feed_rejected`). The main
loop starts the next request only behind a response, so the state is
never left: all further bytes are ignored (`feed_stuck`).
-/

namespace Alcor.Proofs.Rfs

open Lib (Mem Buf)
open Lib.Stream
open Alcor.Eluarpc
open Alcor.Proofs.Eluarpc
open Alcor.Rfs

variable {header : List UInt8}

/-- What a header says depends on its own four bytes only. -/
theorem getPacketSize_header {bs cs : List UInt8} (hbs : ELUARPC_START_OFFSET ≤ bs.length)
    (hcs : ELUARPC_START_OFFSET ≤ cs.length) (hsame : bs.take 4 = cs.take 4) (m m' : Mem)
    {n n' : Nat} (hn : ELUARPC_START_OFFSET ≤ n) (hn' : ELUARPC_START_OFFSET ≤ n') :
    eluarpcGetPacketSize ⟨m.store 0 bs, n⟩ = eluarpcGetPacketSize ⟨m'.store 0 cs, n'⟩ := by
  have hbs : 4 ≤ bs.length := hbs
  have hcs : 4 ≤ cs.length := hcs
  have hagree : Mem.Agree (m.store 0 bs) (m'.store 0 cs) 0 4 := by
    intro x _ hx
    have htake := congrArg (·[x]?) hsame
    simp only [List.getElem?_take, if_pos hx, List.getElem?_eq_getElem (show x < bs.length by omega),
      List.getElem?_eq_getElem (show x < cs.length by omega), Option.some.injEq] at htake
    rw [← Nat.zero_add x, Mem.store_of_mem _ _ _ (by omega), Mem.store_of_mem _ _ _ (by omega)]
    exact htake
  rw [getPacketSize_eq, getPacketSize_eq, if_pos hn, if_pos hn']
  simp only [hagree 0 (by omega) (by omega), hagree 1 (by omega) (by omega),
    hagree.read_eq 2 2 (by omega) (by omega)]

/-- Behind the bytes of the buffer there is room for another one. -/
theorem put_snoc (m : Mem) (bs : List UInt8) (h : bs.length < RFS_BUFFER_BYTES) (c : UInt8) :
    (rfsBuffer (m.store 0 bs)).put? bs.length [c] = some (rfsBuffer (m.store 0 (bs ++ [c]))) := by
  rw [Lib.Buf.put?_of_le, rfsBuffer, rfsBuffer, ← Mem.store_append, Nat.zero_add]
  exact h

/-- The first bytes of a length. -/
theorem feed_length (exec : Buf → Option Buf) (m : Mem) (bs : List UInt8)
    (hlt : bs.length < ELUARPC_START_OFFSET) :
    feed (muxRfsByte exec) { buf := rfsBuffer m } bs =
      some ({ buf := rfsBuffer (m.store 0 bs), readLen := bs.length }, []) := by
  induction bs using List.reverseRecOn with
  | nil => simp
  | append_singleton bs c ih =>
    rw [List.length_append, List.length_singleton] at hlt
    have hput := put_snoc m bs (Nat.lt_trans (Nat.lt_of_succ_lt hlt) (by decide)) c
    rw [feed_append (ih (by omega))]
    simp [feed, muxRfsByte, rfsMemReadRequestPacket, hput, Nat.ne_of_lt hlt, rfsMemHasResponse]

/-- The last byte of a length and the bytes before it. -/
theorem length_snoc (h : header.length = ELUARPC_START_OFFSET) :
    ∃ bs c, header = bs ++ [c] ∧ bs.length + 1 = ELUARPC_START_OFFSET := by
  obtain hnil | ⟨bs, c, rfl⟩ := List.eq_nil_or_concat' header
  · rw [hnil] at h
    exact absurd h (by decide)
  · exact ⟨bs, c, rfl, by simpa using h⟩

/-! ### A request in the initial state -/

/-- The bytes of a request before its last one. -/
theorem feed_request (exec : Buf → Option Buf) (m : Mem) {request : List UInt8}
    (h : IsRequest request) (header more rest : List UInt8)
    (hheader : header.length = ELUARPC_START_OFFSET) (hrest : rest ≠ [])
    (hsplit : request = header ++ more ++ rest) :
    feed (muxRfsByte exec) { buf := rfsBuffer m } (header ++ more) =
      some ({ buf := rfsBuffer (m.store 0 (header ++ more)), readLen := more.length,
              expectedLen := (request.length : Int) - ELUARPC_START_OFFSET,
              state := .readRequest }, []) := by
  obtain ⟨hlo, hhi, size, hsize, hlen⟩ := h
  induction more using List.reverseRecOn generalizing rest with
  | nil =>
    obtain ⟨bs, c, rfl, hbs⟩ := length_snoc hheader
    have hbs4 : bs.length + 1 = 4 := hbs
    have hput := put_snoc m bs (show bs.length < 4125 by omega) c
    have hget : eluarpcGetPacketSize (rfsBuffer (m.store 0 (bs ++ [c]))) = some (false, size) := by
      refine (getPacketSize_header (Nat.le_of_eq hheader.symm) (Nat.le_of_lt hlo) ?_ _ _
        (by decide) (by decide)).trans hsize
      have h4 : 4 ≤ (bs ++ [c]).length := Nat.le_of_eq hheader.symm
      rw [hsplit, List.append_nil, List.take_append_of_le_length h4]
    rw [List.append_nil, feed_append (feed_length exec m bs (by omega))]
    simp [feed, muxRfsByte, rfsMemReadRequestPacket, hput, hbs, hget, rfsMemHasResponse, hlen]
  | append_singleton more c ih =>
    have hlength := congrArg List.length hsplit
    have hrestpos : 0 < rest.length := List.length_pos_iff.mpr hrest
    simp only [List.length_append, List.length_singleton] at hlength
    have hput := put_snoc m (header ++ more)
      (by rw [List.length_append]; omega) c
    rw [List.length_append, hheader] at hput
    -- not the last byte, since there is a rest
    have hlast : ¬ (more.length : Int) + 1 = (request.length : Int) - ELUARPC_START_OFFSET := by
      omega
    rw [← List.append_assoc, feed_append (ih (c :: rest) (List.cons_ne_nil _ _)
      (by rw [hsplit]; simp))]
    simp [feed, muxRfsByte, rfsMemReadRequestPacket, hput, hlast, rfsMemHasResponse]

/-- A service in its initial state answers every request that `server_execute_request` executes
and gives a response to. -/
theorem answers_start (exec : Buf → Option Buf) (m : Mem) {request : List UInt8}
    (h : IsRequest request) {b : Buf} {size : UInt16}
    (hexec : exec (rfsBuffer (m.store 0 request)) = some b)
    (hsize : eluarpcGetPacketSize b = some (false, size)) :
    Answers exec { buf := rfsBuffer m } request := by
  refine ⟨{ buf := b }, rfsBuffer (m.store 0 request), b, size, Mem.holds_store_self m 0 request,
    hexec, hsize, ?_⟩
  -- the last byte is the one behind which the request is executed
  have hlo : 4 < request.length := h.1
  have hhi : request.length ≤ 4125 := h.2.1
  obtain ⟨header, rest, rfl, hheader⟩ : ∃ header rest, request = header ++ rest ∧
      header.length = 4 :=
    ⟨request.take 4, request.drop 4, (List.take_append_drop 4 request).symm, by simp; omega⟩
  obtain ⟨more, c, rfl⟩ : ∃ more c, rest = more ++ [c] := by
    obtain hnil | hsnoc := List.eq_nil_or_concat' rest
    · rw [hnil, List.append_nil] at hlo
      omega
    · exact hsnoc
  simp only [List.length_append, List.length_singleton] at hlo hhi
  have hput := put_snoc m (header ++ more)
    (by rw [List.length_append]; show _ < 4125; omega) c
  rw [List.length_append, hheader] at hput
  have hfeed := feed_request exec m h header more [c] hheader (by simp) (by simp)
  have hexpected : ((header ++ (more ++ [c])).length : Int) - ELUARPC_START_OFFSET =
      (more.length : Int) + 1 := by
    have : ELUARPC_START_OFFSET = 4 := rfl
    simp only [List.length_append, List.length_singleton]
    omega
  rw [hexpected] at hfeed
  rw [← List.append_assoc] at hexec ⊢
  rw [feed_append hfeed]
  have hput4 : (rfsBuffer (m.store 0 (header ++ more))).put?
      (ELUARPC_START_OFFSET + more.length) [c] =
      some (rfsBuffer (m.store 0 (header ++ more ++ [c]))) := hput
  simp [feed, muxRfsByte, rfsMemReadRequestPacket, hput4, rfsMemHasResponse, rfsMemWriteResponse,
    hexec, hsize, rfsMemStartRequest, -List.append_assoc]

/-! ### A rejected header -/

/-- Whether a header is rejected depends on its own bytes only. -/
theorem rejected_any (h : Rejected header) (m : Mem) :
    ∃ size, eluarpcGetPacketSize (rfsBuffer (m.store 0 header)) = some (true, size) := by
  obtain ⟨hlen, herr⟩ := h
  obtain ⟨⟨err, size⟩, heq, rfl⟩ := Option.map_eq_some_iff.mp herr
  refine ⟨size, (getPacketSize_header (Nat.le_of_eq hlen.symm) (Nat.le_of_eq hlen.symm) rfl _ _
    (by decide) (by decide)).trans heq⟩

/-- A rejected header leaves the service stuck. -/
theorem feed_rejected (exec : Buf → Option Buf) (m : Mem) (h : Rejected header) :
    feed (muxRfsByte exec) { buf := rfsBuffer m } header =
      some ({ buf := rfsBuffer (m.store 0 header), state := .requestDone }, []) := by
  obtain ⟨size, herr⟩ := rejected_any h m
  obtain ⟨bs, c, rfl, hlen⟩ := length_snoc h.1
  have hlen4 : bs.length + 1 = 4 := hlen
  have hput := put_snoc m bs (show bs.length < 4125 by omega) c
  -- the first three bytes, then the one behind which the header is looked at
  rw [feed_append (feed_length exec m bs (by omega))]
  simp [feed, muxRfsByte, rfsMemReadRequestPacket, hput, hlen, herr, rfsMemHasResponse]

/-- A stuck service ignores all bytes. -/
theorem feed_stuck (exec : Buf → Option Buf) (b : Buf) (bs : List UInt8) :
    feed (muxRfsByte exec) { buf := b, state := .requestDone } bs =
      some ({ buf := b, state := .requestDone }, []) := by
  induction bs with
  | nil => rfl
  | cons c bs ih =>
    have hstep : muxRfsByte exec { buf := b, state := .requestDone } c =
        some ({ buf := b, state := .requestDone }, []) := by
      simp [muxRfsByte, rfsMemReadRequestPacket, rfsMemHasResponse]
    rw [feed_cons hstep, ih]
    rfl

/-- The service never recovers from a rejected header, whatever request follows and although it
answers every request in its initial state (`answers_start`): it does not return to that state,
and gives no response any more. -/
theorem never_recovers (exec : Buf → Option Buf) (m : Mem) {header : List UInt8}
    (h : Rejected header) (request : List UInt8) :
    ¬ Recovers exec { buf := rfsBuffer m } header request ∧
      ∃ t, ¬ AtStart t ∧
        feed (muxRfsByte exec) { buf := rfsBuffer m } (header ++ request) = some (t, []) := by
  have hnot : ¬ AtStart { buf := rfsBuffer (m.store 0 header), state := .requestDone } := by
    intro hstart
    exact nomatch congrArg MemTransport.state hstart
  refine ⟨fun hrec => ?_, _, hnot, ?_⟩
  · obtain ⟨t₁, hfeed, hstart, -⟩ := hrec
    rw [feed_rejected exec m h, Option.some.injEq, Prod.mk.injEq] at hfeed
    exact hnot (hfeed.1 ▸ hstart)
  · rw [feed_append (feed_rejected exec m h), feed_stuck]
    rfl

/-! ### An example -/

/-- A header that is rejected. -/
def noise : List UInt8 := [0, 0, 0, 0]

/-- The request to close descriptor 3. -/
def closeRequest : List UInt8 :=
  sizeBytes 23 ++ startBytes ++ [TYPE_OP_ID, 0x04] ++ wordBytes 3 ++ endBytes

/-- A server that closes the descriptor: its response says 0. -/
def closeServer (b : Buf) : Option Buf :=
  b.put? 0 (sizeBytes 22 ++ startBytes ++ [ELUARPC_OP_RES_MOD ||| 0x04] ++ wordBytes 0 ++ endBytes)

/-- Noise in front of a request to close a file. -/
theorem never_recovers_close :
    ¬ Recovers closeServer { buf := rfsBuffer zeroes } noise closeRequest :=
  (never_recovers closeServer zeroes (by decide) closeRequest).1

/-- The service answers this request in its initial state, but not behind the rejected header. -/
theorem not_recovers :
    Answers closeServer { buf := rfsBuffer zeroes } closeRequest ∧
      ¬ Recovers closeServer { buf := rfsBuffer zeroes } noise closeRequest := by
  have hreq : IsRequest closeRequest := ⟨by decide, by decide, 23, by decide, by decide⟩
  obtain ⟨b, hb, hsize⟩ := Option.bind_eq_some_iff.mp
    (show (closeServer (rfsBuffer (zeroes.store 0 closeRequest))).bind eluarpcGetPacketSize =
      some (false, 22) by decide)
  refine ⟨answers_start closeServer zeroes hreq hb hsize, fun hrec => ?_⟩
  obtain ⟨t₁, hfeed, hstart, -⟩ := hrec
  rw [feed_rejected closeServer zeroes (by decide), Option.some.injEq, Prod.mk.injEq] at hfeed
  rw [← hfeed.1] at hstart
  exact nomatch congrArg MemTransport.state hstart

end Alcor.Proofs.Rfs
