import Alcor.Lib.Run
import Alcor.Lib.Memory

/-!
# `Alcor.Xmodem.Receive`: the transfer of a file

The receiver of `src/xmodem.c`, and a sender for it.

* `Port`: what the receiver knows of a line, over any state of it.
* `xmodemFlush`, `xmodemGetRecord`: the parts of a pass.
* `pass`, `xmodemReceive`: a pass of the loop, and the whole call.
* `Sender`, `Sending`: a sender that follows the protocol, with the
  bytes that are under way in both directions.
-/

set_option autoImplicit false

/-!
## Receiving a file by XMODEM

`src/xmodem.c`. The receiver asks for a transfer with the letter `C`,
takes records of 128 bytes with a number, its complement and a CRC,
and stores their payloads in a block that it enlarges with `realloc`.

The two functions given to `xmodem_init` are a `Port`: whatever is at
the other end of the line is its state. A flush reads until the
receive function reports a timeout, which it need not ever do, and the
main loop has no bound either: both get a number of passes.
-/

namespace Alcor.Xmodem

open Lib (Mem Buf)

def PACKET_SIZE : Nat := 128

def XM_SOH : UInt8 := 0x01
def XM_ACK : UInt8 := 0x06
def XM_NAK : UInt8 := 0x15
def XM_CAN : UInt8 := 0x18
def XM_EOT : UInt8 := 0x04

/-- The letter that asks for a transfer with CRC. -/
def XM_START : UInt8 := 0x43

def XMODEM_PACKET_DELAY : Nat := 10000
def XMODEM_TIMEOUT : Nat := 1000000
def XMODEM_RETRY_LIMIT : UInt32 := 20

def XMODEM_INITIAL_BUFFER_SIZE : UInt32 := 1024
def XMODEM_INCREMENT_AMOUNT : UInt32 := 512

def XMODEM_ERROR_REMOTECANCEL : Int := -1
def XMODEM_ERROR_RETRYEXCEED : Int := -3
def XMODEM_ERROR_OUTOFMEM : Int := -4

/-- The functions given to `xmodem_init`. -/
structure Port (σ : Type) where
  /-- `xmodem_in_func` with a timeout; `none` is −1. -/
  inFunc : Nat → σ → Option UInt8 × σ
  /-- `xmodem_out_func`. -/
  outFunc : UInt8 → σ → σ

/-- The argument of `xmodem_flush`. -/
inductive Flush where
  | only
  | andCan
  deriving DecidableEq, Repr

section Functions
variable {σ : Type} (port : Port σ)

/-- One pass of the loop of `xmodem_flush`. -/
def flushStep (s : σ) : σ ⊕ σ :=
  match port.inFunc XMODEM_PACKET_DELAY s with
  | (none, s)   => .inl s
  | (some _, s) => .inr s

/-- `xmodem_flush`; `none` when no timeout was seen within that many calls. -/
def xmodemFlush (calls : Nat) (how : Flush) (s : σ) : Option σ :=
  (Lib.Loop.run (flushStep port) calls s).map fun s =>
    match how with
    | .only   => s
    | .andCan => port.outFunc XM_CAN (port.outFunc XM_CAN (port.outFunc XM_CAN s))

/-- The loop of `xmodem_get_record` that reads the packet; `none` after a timeout. -/
def readPacket : Nat → σ → Option (List UInt8) × σ
  | 0,     s => (some [], s)
  | n + 1, s =>
    match port.inFunc XMODEM_TIMEOUT s with
    | (none, s)    => (none, s)
    | (some ch, s) =>
      match readPacket n s with
      | (none, s)    => (none, s)
      | (some bs, s) => (some (ch :: bs), s)

/-- One of the eight passes for each byte. -/
def crcBit (chk : UInt32) : UInt32 :=
  if chk &&& 0x8000 ≠ 0 then (chk <<< 1) ^^^ 0x1021 else chk <<< 1

def crcByte (chk : UInt32) (b : UInt8) : UInt32 :=
  Nat.iterate crcBit 8 (chk ^^^ (b.toUInt32 <<< 8))

/-- The CRC of a payload. -/
def crc (payload : List UInt8) : UInt32 := payload.foldl crcByte 0 &&& 0xFFFF

/-- The checks of `xmodem_get_record` on the bytes it has read: the number, its complement, and the
CRC behind the payload. -/
def recordOk (blocknum : UInt8) (buf : List UInt8) : Bool :=
  let chk := crc ((buf.drop 2).take PACKET_SIZE)
  buf.getD 0 0 == blocknum && buf.getD 1 0 == ~~~blocknum
    && (buf.getD (PACKET_SIZE + 2) 0).toUInt32 == (chk >>> 8) &&& 0xFF
    && (buf.getD (PACKET_SIZE + 3) 0).toUInt32 == chk &&& 0xFF

/-- `xmodem_get_record`: the packet, or `none` with a NAK sent. -/
def xmodemGetRecord (blocknum : UInt8) (s : σ) : Option (List UInt8) × σ :=
  match readPacket port (PACKET_SIZE + 4) s with
  | (none, s)     => (none, port.outFunc XM_NAK s)
  | (some buf, s) =>
    if recordOk blocknum buf then (some buf, s) else (none, port.outFunc XM_NAK s)

end Functions

/-- The variables of `xmodem_receive`, and what is behind the port. -/
structure Receiver (σ : Type) where
  /-- The state of the port. -/
  line : σ
  starting : Bool := true
  packnum : UInt8 := 1
  retries : UInt32 := XMODEM_RETRY_LIMIT
  limit : UInt32 := XMODEM_INITIAL_BUFFER_SIZE
  size : UInt32 := 0
  /-- The block at `*dest`. -/
  dest : Buf
  /-- The number of calls of `realloc` so far. -/
  reallocs : Nat := 0

/-- How a call ends. -/
inductive Exit where
  /-- It returns a value. -/
  | returned (n : Int)
  /-- It writes outside the block at `*dest`. -/
  | outside
  /-- It is in a flush that has not ended. -/
  | flushing
  deriving DecidableEq, Repr

/-- What a call depends on. -/
structure Setup (σ : Type) where
  /-- The serial port. -/
  port : Port σ
  /-- What the calls of `realloc` give: `NULL`, or what is in a block behind the bytes it had. -/
  realloc : Nat → Option Mem
  /-- The number of passes a flush gets. -/
  calls : Nat

namespace Setup

variable {σ : Type} (env : Setup σ) (r : Receiver σ)

/-- Flush, then return. -/
def leave (how : Flush) (n : Int) : Exit × Receiver σ :=
  match xmodemFlush env.port env.calls how r.line with
  | none   => (.flushing, r)
  | some s => (.returned n, { r with line := s })

/-- Make room for one more packet; `none` when `realloc` fails. -/
def grow : Option (Receiver σ) :=
  if r.size + UInt32.ofNat PACKET_SIZE > r.limit then
    let limit := r.limit + XMODEM_INCREMENT_AMOUNT
    match env.realloc r.reallocs with
    | none   => none
    | some m =>
      let mem := fun x => if x < r.dest.size then r.dest.mem x else m x
      some { r with
        limit := limit, reallocs := r.reallocs + 1, dest := ⟨mem, limit.toNat⟩ }
  else some r

/-- Acknowledge a packet and copy its payload. -/
def consume (buf : List UInt8) : (Exit × Receiver σ) ⊕ Receiver σ :=
  match r.dest.put? r.size.toNat ((buf.drop 2).take PACKET_SIZE) with
  | none      => .inl (.outside, r)
  | some dest =>
    .inr { r with
      line := env.port.outFunc XM_ACK r.line, dest := dest,
      size := r.size + UInt32.ofNat PACKET_SIZE }

/-- A valid packet: make room, acknowledge, copy. -/
def accept (buf : List UInt8) : (Exit × Receiver σ) ⊕ Receiver σ :=
  match grow env r with
  | none   => .inl (leave env r .andCan XMODEM_ERROR_OUTOFMEM)
  | some r => consume env r buf

/-- What follows a start of header. -/
def packet : (Exit × Receiver σ) ⊕ Receiver σ :=
  match xmodemGetRecord env.port r.packnum r.line with
  | (none, s)     => .inr { r with starting := false, line := s }
  | (some buf, s) =>
    match xmodemFlush env.port env.calls .only s with
    | none   => .inl (.flushing, { r with starting := false, line := s })
    | some s =>
      accept env { r with
        starting := false, line := s, retries := XMODEM_RETRY_LIMIT,
        packnum := r.packnum + 1 } buf

/-- One pass of the loop of `xmodem_receive`. -/
def pass : (Exit × Receiver σ) ⊕ Receiver σ :=
  if r.retries = 0 then .inl (leave env r .andCan XMODEM_ERROR_RETRYEXCEED)
  else
    let r := { r with retries := r.retries - 1 }
    let s := if r.starting then env.port.outFunc XM_START r.line else r.line
    match env.port.inFunc XMODEM_TIMEOUT s with
    | (none, s)    => .inr { r with line := s }
    | (some ch, s) =>
      if ch = XM_EOT then
        .inl (leave env { r with line := env.port.outFunc XM_ACK s } .only r.size.toInt32.toInt)
      else if ch = XM_CAN then
        .inl (leave env { r with line := env.port.outFunc XM_ACK s } .only
          XMODEM_ERROR_REMOTECANCEL)
      else if ch = XM_SOH then packet env { r with line := s }
      else .inr { r with line := s }

end Setup

/-- `xmodem_receive` with the block at `*dest`, within that many passes of its loop. -/
def xmodemReceive {σ : Type} (env : Setup σ) (passes : Nat) (dest : Mem) (s : σ) :
    Option (Exit × Receiver σ) :=
  Lib.Loop.run env.pass passes
    { line := s, dest := ⟨dest, XMODEM_INITIAL_BUFFER_SIZE.toNat⟩ }

end Alcor.Xmodem

/-!
## The other end of the line

What the receiver of `src/xmodem.c` is connected to: a sender that
follows the protocol. It begins when it hears the letter `C`, sends
one record at a time, goes on to the next one when it hears an ACK,
repeats a record on a NAK or when it hears nothing for a while, gives
up after some repetitions, and ends with an end-of-transmission.

One of the receiver's ACK bytes may be lost on the line. The sender
and the line together are the state of a `Port`.
-/

namespace Alcor.Xmodem

/-- A file in records, and a sender's parameters. -/
structure Sender where
  payloads : List (List UInt8)
  /-- Every record is full. -/
  full : ∀ payload ∈ payloads, payload.length = PACKET_SIZE
  /-- How long it waits for an answer, in the unit of the receiver's timeouts. -/
  patience : Nat
  /-- It waits longer than the receiver takes to see that a record has ended. -/
  patient : XMODEM_PACKET_DELAY < patience
  /-- How often it repeats a record before it gives up. -/
  repeats : Nat

/-- What a sender remembers, and the bytes under way to the receiver. -/
structure Sending where
  /-- The bytes under way. -/
  queue : List UInt8 := []
  /-- The `C` was heard. -/
  started : Bool := false
  /-- The number of records that the sender knows to be received. -/
  acked : Nat := 0
  /-- The number of repetitions of the record that is being sent. -/
  repeated : Nat := 0
  /-- For how long nothing was sent or heard. -/
  idle : Nat := 0
  /-- The number of ACK bytes that the receiver has sent. -/
  acks : Nat := 0

namespace Sender

variable (snd : Sender)

/-- The record with the payload number `i`, counted from 0. -/
def record (i : Nat) (payload : List UInt8) : List UInt8 :=
  let number := UInt8.ofNat (i + 1)
  let chk := crc payload
  XM_SOH :: number :: ~~~number :: (payload ++ [(chk >>> 8).toUInt8, chk.toUInt8])

/-- What is sent when `i` records are received. -/
def current (i : Nat) : List UInt8 :=
  match snd.payloads[i]? with
  | some payload => record i payload
  | none         => if i = snd.payloads.length then [XM_EOT] else []

/-- Send the record again, or give up. -/
def again (s : Sending) : Sending :=
  if s.repeated < snd.repeats then
    { s with queue := snd.current s.acked, repeated := s.repeated + 1, idle := 0 }
  else { s with queue := [], idle := 0 }

/-- The receiver waits for a byte. -/
def inFunc (timeout : Nat) (s : Sending) : Option UInt8 × Sending :=
  match s.queue with
  | b :: queue => (some b, { s with queue := queue, idle := 0 })
  | []         =>
    if s.started = false then (none, s)
    else if snd.patience ≤ s.idle + timeout then (none, snd.again s)
    else (none, { s with idle := s.idle + timeout })

/-- An ACK arrives. -/
def advance (s : Sending) : Sending :=
  { s with
    queue := snd.current (s.acked + 1), acked := s.acked + 1, repeated := 0, idle := 0 }

/-- The receiver sends a byte; `lost` is the number of the ACK that gets lost, counted from 0. -/
def outFunc (lost : Option Nat) (b : UInt8) (s : Sending) : Sending :=
  if b = XM_ACK then
    let s' := { s with acks := s.acks + 1 }
    if lost = some s.acks then s' else snd.advance s'
  else if b = XM_NAK then snd.again s
  else if b = XM_START ∧ s.started = false then
    { s with queue := snd.current 0, started := true, idle := 0 }
  else s

/-- The sender with the line. -/
def port (lost : Option Nat) : Port Sending := ⟨snd.inFunc, snd.outFunc lost⟩

end Sender

end Alcor.Xmodem
