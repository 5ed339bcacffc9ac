import Mathlib.Algebra.Group.Int.Defs
import Alcor.Lib.Run
import Alcor.Eluarpc.Codec
import Alcor.Lib.Stream

/-!
# `Alcor.Rfs.Transports`: transports and messages

How the packets of the remote file system are received, and what is in
them. A transport gets bytes and hands on packets, one at a time.

* `MemTransport`: the transport in memory, fed byte by byte by the
  multiplexer (`muxRfsByte`).
* `serReadRequestPacket`, `udpReadRequestPacket`: the transports that
  block until a packet is there.
* `Assembles`: what all of the three are for.
* `openRequest` to `closedirResponse`: the messages, each as the items
  that are written and those that are read.
-/

set_option autoImplicit false

/-!
## Assembling a request packet

The transports of `rfs_server_src/rfs_transports.c`. All of them read
into `rfs_buffer`: four bytes with the size of the packet, then the
rest of it. The memory transport is called with one byte at a time and
keeps its state in variables. The serial and the UDP transport block
in a read of four bytes and then in one of the rest; `ReadPhase` is
where they block. `readByte` takes the next byte of the serial line,
and `udpReadHelper` what one call of `net_recvfrom` returns.

A write outside `rfs_buffer` is `none`.
-/

namespace Alcor.Rfs

open Lib (Mem Buf)
open Alcor.Eluarpc

def MAX_PACKET_SIZE : Nat := 4096
/-- The size of `rfs_buffer`. -/
def RFS_BUFFER_BYTES : Nat := MAX_PACKET_SIZE + ELUARPC_WRITE_REQUEST_EXTRA

/-- `rfs_buffer` with some contents. -/
def rfsBuffer (m : Mem) : Buf := ⟨m, RFS_BUFFER_BYTES⟩

/-! ### The memory transport -/

/-- `mem_read_state`. -/
inductive MemState where
  | readLength
  | readRequest
  | requestDone
  deriving DecidableEq, Repr

/-- The variables of the memory transport. -/
structure MemTransport where
  /-- `rfs_buffer`. -/
  buf : Buf
  /-- `mem_read_len`. -/
  readLen : Nat := 0
  /-- `mem_expected_len`, an `int`. -/
  expectedLen : Int := 0
  /-- `mem_read_state`. -/
  state : MemState := .readLength
  /-- `mem_response_flag`. -/
  responseFlag : Bool := false

/-- `rfs_mem_start_request`. -/
def rfsMemStartRequest (t : MemTransport) : MemTransport := { buf := t.buf }

/-- `rfs_mem_read_request_packet`; `none` for the byte is −1. The result is 0 or 1. -/
def rfsMemReadRequestPacket (t : MemTransport) (c : Option UInt8) :
    Option (Bool × MemTransport) :=
  match c with
  | none   => some (false, rfsMemStartRequest t)
  | some c =>
    match t.state with
    | .readLength => do
        let buf ← t.buf.put? t.readLen [c]
        if t.readLen + 1 = ELUARPC_START_OFFSET then
          let (err, temp16) ← eluarpcGetPacketSize buf
          if err then
            return (false, { t with buf, readLen := 0, state := .requestDone })
          else
            return (true, { t with
              buf, readLen := 0, state := .readRequest
              expectedLen := (temp16.toNat : Int) - ELUARPC_START_OFFSET })
        else
          return (true, { t with buf, readLen := t.readLen + 1 })
    | .readRequest => do
        let buf ← t.buf.put? (ELUARPC_START_OFFSET + t.readLen) [c]
        if (t.readLen : Int) + 1 = t.expectedLen then
          return (true, { t with
            buf, readLen := t.readLen + 1, state := .requestDone, responseFlag := true })
        else
          return (true, { t with buf, readLen := t.readLen + 1 })
    | .requestDone => some (true, t)

/-- `rfs_mem_has_response`. -/
def rfsMemHasResponse (t : MemTransport) : Bool := t.responseFlag

/-! ### The serial and the UDP transport -/

/-- Where a transport blocks. -/
inductive ReadPhase where
  /-- In the read of the length, with this many bytes read. -/
  | length (got : Nat)
  /-- In the read of the rest, with the size of the packet and this many bytes read. -/
  | rest (temp16 : UInt16) (got : Nat)
  /-- Nowhere: the packet is complete, and the server executes it. -/
  | complete
  deriving DecidableEq, Repr

/-- A transport that blocks in reads. -/
structure Blocking where
  /-- `rfs_buffer`. -/
  buf : Buf
  /-- Where it blocks. -/
  phase : ReadPhase := .length 0

/-- The number of bytes to read behind the length: `temp16 - ELUARPC_START_OFFSET`, an `int`
that is passed on as a `u32`. -/
def restSize (temp16 : UInt16) : Nat :=
  (((temp16.toNat : Int) - ELUARPC_START_OFFSET) % 2 ^ 32).toNat

/-- The transport after its next byte: the reads take as many bytes as they were asked for,
and a length that is no length is read again. -/
def readByte (t : Blocking) (c : UInt8) : Option Blocking :=
  match t.phase with
  | .length got => do
      let buf ← t.buf.put? got [c]
      if got + 1 = ELUARPC_START_OFFSET then
        let (err, temp16) ← eluarpcGetPacketSize buf
        if err then return ⟨buf, .length 0⟩
        else if restSize temp16 = 0 then return ⟨buf, .complete⟩
        else return ⟨buf, .rest temp16 0⟩
      else return ⟨buf, .length (got + 1)⟩
  | .rest temp16 got => do
      let buf ← t.buf.put? (ELUARPC_START_OFFSET + got) [c]
      if got + 1 = restSize temp16 then return ⟨buf, .complete⟩
      else return ⟨buf, .rest temp16 (got + 1)⟩
  | .complete => some t

/-- `ser_read_request_packet`, byte by byte. The bytes that `flush_serial` throws away after an
error never come here. -/
def serReadRequestPacket (t : Blocking) (c : UInt8) : Option Blocking := readByte t c

/-- A pass of the loop of `udp_read_helper`, in either read:
`net_recvfrom` was asked for what is missing and has returned `data`,
so `size` gets smaller and `dest` moves on. It blocks for as long as
there is nothing (`NET_INF_TIMEOUT`); a −1 from a broken socket, with
which `dest` would go back, is no byte of the stream and left out. -/
def udpReadHelper (t : Blocking) (data : List UInt8) : Option Blocking :=
  match t.phase with
  | .length got => do
      let buf ← t.buf.put? got data
      if got + data.length = ELUARPC_START_OFFSET then
        let (err, temp16) ← eluarpcGetPacketSize buf
        if err then return ⟨buf, .length 0⟩
        else if restSize temp16 = 0 then return ⟨buf, .complete⟩
        else return ⟨buf, .rest temp16 0⟩
      else return ⟨buf, .length (got + data.length)⟩
  | .rest temp16 got => do
      let buf ← t.buf.put? (ELUARPC_START_OFFSET + got) data
      if got + data.length = restSize temp16 then return ⟨buf, .complete⟩
      else return ⟨buf, .rest temp16 (got + data.length)⟩
  | .complete => some t

/-- `udp_read_request_packet`, byte by byte. A `net_recvfrom` that
returns more bytes at once does what it would do for each of them
(`Alcor.Proofs.Rfs.udpReadHelper_eq`). -/
def udpReadRequestPacket (t : Blocking) (c : UInt8) : Option Blocking := udpReadHelper t [c]

/-- How many bytes the read under way is asking for. -/
def Blocking.missing (t : Blocking) : Nat :=
  match t.phase with
  | .length got      => ELUARPC_START_OFFSET - got
  | .rest temp16 got => restSize temp16 - got
  | .complete        => 0

/-! ### Feeding a transport -/

/-- What a transport meets: a byte, or the server, which executes a complete packet, leaves its
response in `rfs_buffer` and starts the next request. -/
inductive Feed where
  | byte (c : UInt8)
  | respond (m : Mem)

/-- A transport and the number of bytes it was fed for the packet under way. -/
structure Fed (τ : Type) where
  /-- The transport. -/
  transport : τ
  /-- The bytes of the packet. -/
  fed : Nat := 0

/-- The memory transport with its caller. -/
def memStep (s : Fed MemTransport) : Feed → Option (Fed MemTransport)
  | .byte c => do
      let (_, t) ← rfsMemReadRequestPacket s.transport (some c)
      -- bytes behind a packet, or behind an error, are ignored
      return ⟨t, if s.transport.state = .requestDone then s.fed else s.fed + 1⟩
  | .respond m =>
    if rfsMemHasResponse s.transport then some ⟨{ buf := rfsBuffer m }, 0⟩ else some s

/-- A blocking transport with its caller. While the server executes a packet, the bytes wait
outside. -/
def blockingStep (read : Blocking → UInt8 → Option Blocking) (s : Fed Blocking) :
    Feed → Option (Fed Blocking)
  | .byte c => do
      let t ← read s.transport c
      return ⟨t, if s.transport.phase = .complete then s.fed
        -- a length that was no length is not part of the packet
        else if t.phase = .length 0 then 0 else s.fed + 1⟩
  | .respond m =>
    if s.transport.phase = .complete then some ⟨{ buf := rfsBuffer m }, 0⟩ else some s

/-! ### What an assembler is for -/

/-- The bytes the memory transport still expects. -/
def MemTransport.expected (t : MemTransport) : Int :=
  match t.state with
  | .readLength  => ELUARPC_START_OFFSET - t.readLen
  | .readRequest => t.expectedLen - t.readLen
  | .requestDone => 0

/-- The room in `rfs_buffer` behind the bytes that it has. -/
def MemTransport.room (t : MemTransport) : Int :=
  match t.state with
  | .readLength  => t.buf.size - t.readLen
  | .readRequest => t.buf.size - (ELUARPC_START_OFFSET + t.readLen)
  | .requestDone => t.buf.size

/-- The bytes a blocking transport still expects. -/
def Blocking.expected (t : Blocking) : Int :=
  match t.phase with
  | .length got      => ELUARPC_START_OFFSET - got
  | .rest temp16 got => (temp16.toNat : Int) - ELUARPC_START_OFFSET - got
  | .complete        => 0

/-- The room in `rfs_buffer` behind the bytes that it has. -/
def Blocking.room (t : Blocking) : Int :=
  match t.phase with
  | .length got => t.buf.size - got
  | .rest _ got => t.buf.size - (ELUARPC_START_OFFSET + got)
  | .complete   => t.buf.size

/-- An assembler that is safe: what it expects is not negative and fits, and a complete packet
has the number of bytes it declares. -/
structure Assembles (expected room : Int) (complete : Bool) (buf : Buf) (fed : Nat) : Prop where
  expected_nonneg : 0 ≤ expected
  expected_le : expected ≤ room
  declared : complete → ∃ size, eluarpcGetPacketSize buf = some (false, size) ∧ size.toNat = fed

/-- The size a packet declares if `c` is the last byte of its length. -/
def declaredSize (buf : Buf) (c : UInt8) : Option Nat :=
  match eluarpcGetPacketSize { buf with mem := buf.mem.store 3 [c] } with
  | some (false, size) => some size.toNat
  | _                  => none

/-- The condition on a byte for the memory transport: a size it declares is above that of the
length alone, and at most the size of `rfs_buffer`. -/
def MemFits (s : Fed MemTransport) : Feed → Prop
  | .byte c => s.transport.state = .readLength → s.transport.readLen = 3 →
      ∀ size ∈ declaredSize s.transport.buf c, ELUARPC_START_OFFSET < size ∧ size ≤ RFS_BUFFER_BYTES
  | .respond _ => True

/-- The condition for the blocking transports, which may also take a packet that is only a
length. -/
def BlockingFits (s : Fed Blocking) : Feed → Prop
  | .byte c => s.transport.phase = .length 3 →
      ∀ size ∈ declaredSize s.transport.buf c, ELUARPC_START_OFFSET ≤ size ∧ size ≤ RFS_BUFFER_BYTES
  | .respond _ => True

instance (s : Fed MemTransport) (e : Feed) : Decidable (MemFits s e) := by
  cases e <;> dsimp only [MemFits] <;> infer_instance

instance (s : Fed Blocking) (e : Feed) : Decidable (BlockingFits s e) := by
  cases e <;> dsimp only [BlockingFits] <;> infer_instance

/-! ### The RFS service of the multiplexer

In `rfsmux` mode the main loop of `mux_src/main.c` passes the bytes of
the first service to the memory transport, one by one, and drops what
`rfs_mem_read_request_packet` returns. When a request is complete it
executes it, takes the response and starts the next request.

`server_execute_request` is a parameter here: it works on `rfs_buffer`.
-/

section MuxService
open Lib (Mem Buf)
open Lib.Stream
open Alcor.Eluarpc

/-- What `rfs_mem_write_response` hands to the main loop: a size, and the buffer to send. -/
structure Response where
  /-- `rfs_size`. -/
  size : UInt16
  /-- What `rfs_ptr` points at. -/
  buf : Buf

/-- `rfs_mem_write_response`: execute the request and look at the size of the response. -/
def rfsMemWriteResponse (exec : Buf → Option Buf) (t : MemTransport) :
    Option (List Response × MemTransport) := do
  let buf ← exec t.buf
  let (err, plen) ← eluarpcGetPacketSize buf
  return (if err then [] else [⟨plen, buf⟩], { t with buf })

/-- The main loop for a byte to the RFS service, with the responses it gets. -/
def muxRfsByte (exec : Buf → Option Buf) (t : MemTransport) (c : UInt8) :
    Option (MemTransport × List Response) := do
  let (_, t) ← rfsMemReadRequestPacket t (some c)
  if rfsMemHasResponse t then
    let (response, t) ← rfsMemWriteResponse exec t
    return (rfsMemStartRequest t, response)
  else
    return (t, [])

/-! #### Recovery -/

/-- Four bytes in which `eluarpc_get_packet_size` finds an error. -/
def Rejected (header : List UInt8) : Prop :=
  header.length = ELUARPC_START_OFFSET ∧
    (eluarpcGetPacketSize ⟨Mem.store (fun _ => 0) 0 header, ELUARPC_START_OFFSET⟩).map (·.1) =
      some true

instance (header : List UInt8) : Decidable (Rejected header) :=
  inferInstanceAs (Decidable (_ ∧ _))

/-- A request that fits and declares its own number of bytes. -/
def IsRequest (request : List UInt8) : Prop :=
  ELUARPC_START_OFFSET < request.length ∧ request.length ≤ RFS_BUFFER_BYTES ∧
    ∃ size, eluarpcGetPacketSize (rfsBuffer (Mem.store (fun _ => 0) 0 request)) =
      some (false, size) ∧ size.toNat = request.length

/-- The service is in its initial state. -/
def AtStart (t : MemTransport) : Prop := rfsMemStartRequest t = t

/-- The service executes the request and gives its response. -/
def Answers (exec : Buf → Option Buf) (t : MemTransport) (request : List UInt8) : Prop :=
  ∃ (t' : MemTransport) (b b' : Buf) (size : UInt16), b.mem.Holds 0 request ∧ exec b = some b' ∧
    eluarpcGetPacketSize b' = some (false, size) ∧
    feed (muxRfsByte exec) t request = some (t', [⟨size, b'⟩])

/-- After a header the service is in its initial state, and answers the request behind it. -/
def Recovers (exec : Buf → Option Buf) (t : MemTransport) (header request : List UInt8) : Prop :=
  ∃ t₁, feed (muxRfsByte exec) t header = some (t₁, []) ∧ AtStart t₁ ∧ Answers exec t₁ request

end MuxService

end Alcor.Rfs

/-!
## The messages of the remote file system

`src/remotefs/remotefs.c`. For each operation there is a request and a
response, and a format to read each of them. `xRequest` and
`xResponse` are the items that `remotefs_x_write_request` and
`remotefs_x_write_response` give to `eluarpc_gen_write`,
`xRequestFormat` and `xResponseFormat` are what the two functions that
read give to `eluarpc_gen_read`.
-/

namespace Alcor.Rfs

open Lib (CStr)
open Alcor.Eluarpc

/-! ### Operations -/

def RFS_OP_OPEN : UInt8 := 0x01
def RFS_OP_WRITE : UInt8 := 0x02
def RFS_OP_READ : UInt8 := 0x03
def RFS_OP_CLOSE : UInt8 := 0x04
def RFS_OP_LSEEK : UInt8 := 0x05
def RFS_OP_OPENDIR : UInt8 := 0x06
def RFS_OP_READDIR : UInt8 := 0x07
def RFS_OP_CLOSEDIR : UInt8 := 0x08

/-- The flag of `open` that only reads. -/
def RFS_OPEN_FLAG_RDONLY : Int32 := 0x20

def RFS_LSEEK_SET : Int32 := 1
def RFS_LSEEK_CUR : Int32 := 2
def RFS_LSEEK_END : Int32 := 3

/-- A string with its terminator, as the argument of `p`. -/
def stringItem (s : CStr) : Item := .p (some (s.bytes ++ [0])) (UInt32.ofNat (s.bytes.length + 1))

/-! ### Open -/

def openRequest (pathname : CStr) (flags mode : Int32) : List Item :=
  [.o RFS_OP_OPEN, stringItem pathname, .i flags, .i mode]

abbrev openRequestFormat : List Specifier := [.o RFS_OP_OPEN, .p, .i, .i]

def openResponse (result : Int32) : List Item := [.r RFS_OP_OPEN, .i result]

abbrev openResponseFormat : List Specifier := [.r RFS_OP_OPEN, .i]

/-! ### Write -/

def writeRequest (fd : Int32) (buf : List UInt8) (count : UInt32) : List Item :=
  [.o RFS_OP_WRITE, .i fd, .p (some buf) count]

abbrev writeRequestFormat : List Specifier := [.o RFS_OP_WRITE, .i, .p]

def writeResponse (result : UInt32) : List Item := [.r RFS_OP_WRITE, .l result]

abbrev writeResponseFormat : List Specifier := [.r RFS_OP_WRITE, .l]

/-! ### Read -/

def readRequest (fd : Int32) (count : UInt32) : List Item := [.o RFS_OP_READ, .i fd, .l count]

abbrev readRequestFormat : List Specifier := [.o RFS_OP_READ, .i, .l]

/-- The data is in the packet already. -/
def readResponse (readbytes : UInt32) : List Item := [.r RFS_OP_READ, .p none readbytes]

abbrev readResponseFormat : List Specifier := [.r RFS_OP_READ, .p]

/-! ### Close -/

def closeRequest (fd : Int32) : List Item := [.o RFS_OP_CLOSE, .i fd]

abbrev closeRequestFormat : List Specifier := [.o RFS_OP_CLOSE, .i]

def closeResponse (result : Int32) : List Item := [.r RFS_OP_CLOSE, .i result]

abbrev closeResponseFormat : List Specifier := [.r RFS_OP_CLOSE, .i]

/-! ### Lseek -/

def lseekRequest (fd offset whence : Int32) : List Item :=
  [.o RFS_OP_LSEEK, .i fd, .L offset, .i whence]

abbrev lseekRequestFormat : List Specifier := [.o RFS_OP_LSEEK, .i, .L, .i]

def lseekResponse (result : Int32) : List Item := [.r RFS_OP_LSEEK, .L result]

abbrev lseekResponseFormat : List Specifier := [.r RFS_OP_LSEEK, .L]

/-! ### Opendir -/

def opendirRequest (name : CStr) : List Item := [.o RFS_OP_OPENDIR, stringItem name]

abbrev opendirRequestFormat : List Specifier := [.o RFS_OP_OPENDIR, .p]

def opendirResponse (d : UInt32) : List Item := [.r RFS_OP_OPENDIR, .l d]

abbrev opendirResponseFormat : List Specifier := [.r RFS_OP_OPENDIR, .l]

/-! ### Readdir -/

def readdirRequest (d : UInt32) : List Item := [.o RFS_OP_READDIR, .l d]

abbrev readdirRequestFormat : List Specifier := [.o RFS_OP_READDIR, .l]

def readdirResponse (name : Option CStr) (size ftime : UInt32) : List Item :=
  [.r RFS_OP_READDIR, (name.map stringItem).getD (.p none 0), .l size, .l ftime]

abbrev readdirResponseFormat : List Specifier := [.r RFS_OP_READDIR, .p, .l, .l]

/-! ### Closedir -/

def closedirRequest (d : UInt32) : List Item := [.o RFS_OP_CLOSEDIR, .l d]

abbrev closedirRequestFormat : List Specifier := [.o RFS_OP_CLOSEDIR, .l]

def closedirResponse (d : Int32) : List Item := [.r RFS_OP_CLOSEDIR, .i d]

abbrev closedirResponseFormat : List Specifier := [.r RFS_OP_CLOSEDIR, .i]

end Alcor.Rfs
