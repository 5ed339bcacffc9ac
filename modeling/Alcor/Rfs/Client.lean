import Alcor.Rfs.Transports

/-!
# `Alcor.Rfs.Client`: the client of the remote file system

`src/remotefs/client.c`. Every call writes a request into the packet
buffer, sends it, receives the response into the same buffer and reads
it there. All calls but one are this and no more, so `rfsc` is all of
them, with the request, the format of the response and the meaning of
its values. `rfscRead` copies the data out of the packet besides.

The functions given to `rfsc_setup` are a `Link`. An access outside
the packet buffer, behind what was received of a response, or outside
the caller's buffer is `none`.
-/

set_option autoImplicit false

namespace Alcor.Rfs

open Lib (Mem Buf CStr)
open Alcor.Eluarpc

/-- The functions given to `rfsc_setup`, for a line in some state. -/
structure Link (σ : Type) where
  /-- What the calls of `rfsc_recv` for one byte and without a timeout give, until one gives
  none. -/
  pending : σ → List UInt8 × σ
  /-- `rfsc_send`: how many bytes it has sent. -/
  send : List UInt8 → σ → UInt32 × σ
  /-- `rfsc_recv` with the timeout: the bytes that it stores. -/
  recv : Nat → σ → List UInt8 × σ
  /-- It stores no more bytes than it is asked for. -/
  recv_le : ∀ size s, (recv size s).1.length ≤ size

/-- The client, with the line. -/
structure Client (σ : Type) where
  /-- `rfsc_buffer`. -/
  buf : Buf
  /-- The line. -/
  line : σ
  /-- How many bytes were received of the last response. -/
  received : Nat := 0

/-- What a call gives its caller. -/
inductive Value where
  /-- An `int` or an `s32`. -/
  | int (n : Int32)
  /-- A `u32`. -/
  | word (n : UInt32)
  /-- What `rfsc_readdir` stores: where the name is in the packet (`none` for `NULL`), the size and
  the time. -/
  | entry (name : Option Nat) (size time : UInt32)
  deriving DecidableEq

section Calls
variable {σ : Type} (link : Link σ)

/-- The loop that empties the receive buffer of the line: each byte goes to the start of the packet
buffer. -/
def emptyReceiveBuffer (c : Client σ) : Option (Client σ) :=
  let stale := link.pending c.line
  (stale.1.foldl (fun buf b => buf.bind fun buf => buf.put? 0 [b]) (some c.buf)).map fun buf =>
    { c with buf := buf, line := stale.2 }

/-- The rest of the response, behind a length of four bytes. -/
def readRest (c : Client σ) (temp16 : UInt16) : Option (Bool × Client σ) :=
  let rest := link.recv (restSize temp16) c.line
  (c.buf.put? ELUARPC_START_OFFSET rest.1).map fun buf =>
    (rest.1.length = restSize temp16,
      { buf := buf, line := rest.2, received := ELUARPC_START_OFFSET + rest.1.length })

/-- The response: first the length, then the rest of the data. -/
def readResponsePacket (c : Client σ) : Option (Bool × Client σ) :=
  let start := link.recv ELUARPC_START_OFFSET c.line
  (c.buf.put? 0 start.1).bind fun buf =>
    let c := { buf := buf, line := start.2, received := start.1.length }
    if start.1.length ≠ ELUARPC_START_OFFSET then some (false, c)
    else
      (eluarpcGetPacketSize ⟨buf.mem, start.1.length⟩).bind fun size =>
        if size.1 then some (false, c) else readRest link c size.2

/-- `rfsch_send_request_read_response`: whether the result is `CLIENT_OK`. -/
def rfschSendRequestReadResponse (c : Client σ) : Option (Bool × Client σ) :=
  (emptyReceiveBuffer link c).bind fun c =>
    (eluarpcGetPacketSize c.buf).bind fun size =>
      if size.1 then some (false, c)
      else if c.buf.size < size.2.toNat then none
      else
        let sent := link.send (c.buf.mem.read 0 size.2.toNat) c.line
        if sent.1 ≠ size.2.toUInt32 then some (false, { c with line := sent.2 })
        else readResponsePacket link { c with line := sent.2 }

/-- What all calls do: make the request, send it and get the response, interpret the response.
`none` is an error. -/
def exchange (c : Client σ) (request : List Item) (format : List Specifier) :
    Option (Option (Outs format) × Client σ) :=
  (eluarpcGenWrite c.buf request).bind fun buf =>
    (rfschSendRequestReadResponse link { c with buf := buf }).bind fun r =>
      if r.1 then
        (eluarpcGenRead ⟨r.2.buf.mem, r.2.received⟩ format).map fun vs =>
          (if vs.1 then none else some vs.2, r.2)
      else some (none, r.2)

/-- A call with a value for every response and one for an error. -/
def rfsc (c : Client σ) (request : List Item) (format : List Specifier)
    (value : Outs format → Value) (error : Value) : Option (Value × Client σ) :=
  (exchange link c request format).map fun (vs, c) => ((vs.map value).getD error, c)

/-- `os_lseek_sys_whence_to_rfs_whence`. -/
def osLseekSysWhenceToRfsWhence (syswhence : Int32) : Int32 :=
  if syswhence = 0 then RFS_LSEEK_SET
  else if syswhence = 1 then RFS_LSEEK_CUR
  else if syswhence = 2 then RFS_LSEEK_END
  else 0

/-- `rfsc_open`, with the flags that `os_open_sys_flags_to_rfs_flags` makes of its argument. -/
def rfscOpen (c : Client σ) (pathname : CStr) (flags mode : Int32) : Option (Value × Client σ) :=
  rfsc link c (openRequest pathname flags mode) openResponseFormat (fun vs => .int vs.2.1)
    (.int (-1))

def rfscWrite (c : Client σ) (fd : Int32) (buf : List UInt8) (count : UInt32) :
    Option (Value × Client σ) :=
  rfsc link c (writeRequest fd buf count) writeResponseFormat (fun vs => .int vs.2.1.toInt32)
    (.int (-1))

/-- The end of `rfsc_read`: the data is copied from the packet into the buffer of the caller, which
has `count` bytes. -/
def copyData (buf : Mem) (count : UInt32) (c : Client σ) :
    Option (Outs readResponseFormat) → Option (Value × Mem × Client σ)
  | none    => some (.int (-1), buf, c)
  | some vs =>
    -- nothing is copied from `NULL`
    let resbuf := vs.2.1.1.getD 0
    let got := vs.2.1.2
    if resbuf + got.toNat ≤ c.received then
      (Buf.put? ⟨buf, count.toNat⟩ 0 (c.buf.mem.read resbuf got.toNat)).map fun dest =>
        (.int got.toInt32, dest.mem, c)
    else none

def rfscRead (c : Client σ) (fd : Int32) (buf : Mem) (count : UInt32) :
    Option (Value × Mem × Client σ) :=
  (exchange link c (readRequest fd count) readResponseFormat).bind fun r =>
    copyData buf count r.2 r.1

def rfscLseek (c : Client σ) (fd offset whence : Int32) : Option (Value × Client σ) :=
  rfsc link c (lseekRequest fd offset (osLseekSysWhenceToRfsWhence whence)) lseekResponseFormat
    (fun vs => .int vs.2.1) (.int (-1))

def rfscClose (c : Client σ) (fd : Int32) : Option (Value × Client σ) :=
  rfsc link c (closeRequest fd) closeResponseFormat (fun vs => .int vs.2.1) (.int (-1))

def rfscOpendir (c : Client σ) (name : CStr) : Option (Value × Client σ) :=
  rfsc link c (opendirRequest name) opendirResponseFormat (fun vs => .word vs.2.1) (.word 0)

/-- `rfsc_readdir`; when it stores `NULL` for the name, the size and the time mean nothing. -/
def rfscReaddir (c : Client σ) (d : UInt32) : Option (Value × Client σ) :=
  rfsc link c (readdirRequest d) readdirResponseFormat
    (fun vs => .entry vs.2.1.1 vs.2.2.1 vs.2.2.2.1) (.entry none 0 0)

def rfscClosedir (c : Client σ) (d : UInt32) : Option (Value × Client σ) :=
  rfsc link c (closedirRequest d) closedirResponseFormat (fun vs => .int vs.2.1) (.int (-1))

/-- A call with its arguments; the buffers have as many bytes as the calls are told. -/
inductive Call where
  | open (pathname : CStr) (flags mode : Int32)
  | write (fd : Int32) (buf : List UInt8)
  | read (fd : Int32) (buf : Mem) (count : UInt32)
  | lseek (fd offset whence : Int32)
  | close (fd : Int32)
  | opendir (name : CStr)
  | readdir (d : UInt32)
  | closedir (d : UInt32)

/-- The request that the call sends. -/
def Call.request : Call → List Item
  | .open pathname flags mode => openRequest pathname flags mode
  | .write fd buf             => writeRequest fd buf (UInt32.ofNat buf.length)
  | .read fd _ count          => readRequest fd count
  | .lseek fd offset whence   => lseekRequest fd offset (osLseekSysWhenceToRfsWhence whence)
  | .close fd                 => closeRequest fd
  | .opendir name             => opendirRequest name
  | .readdir d                => readdirRequest d
  | .closedir d               => closedirRequest d

/-- The format that the call reads the response with. -/
def Call.format : Call → List Specifier
  | .open _ _ _  => openResponseFormat
  | .write _ _   => writeResponseFormat
  | .read _ _ _  => readResponseFormat
  | .lseek _ _ _ => lseekResponseFormat
  | .close _     => closeResponseFormat
  | .opendir _   => opendirResponseFormat
  | .readdir _   => readdirResponseFormat
  | .closedir _  => closedirResponseFormat

/-- What the call makes of the values of a response. -/
def Call.value : (call : Call) → Outs call.format → Value
  | .open _ _ _, vs  => .int vs.2.1
  | .write _ _, vs   => .int vs.2.1.toInt32
  | .read _ _ _, vs  => .int vs.2.1.2.toInt32
  | .lseek _ _ _, vs => .int vs.2.1
  | .close _, vs     => .int vs.2.1
  | .opendir _, vs   => .word vs.2.1
  | .readdir _, vs   => .entry vs.2.1.1 vs.2.2.1 vs.2.2.2.1
  | .closedir _, vs  => .int vs.2.1

/-- What the call gives for an error. -/
def Call.error : Call → Value
  | .opendir _ => .word 0
  | .readdir _ => .entry none 0 0
  | _          => .int (-1)

/-- The call of the client. -/
def Call.run (c : Client σ) : Call → Option (Value × Client σ)
  | .open pathname flags mode => rfscOpen link c pathname flags mode
  | .write fd buf             => rfscWrite link c fd buf (UInt32.ofNat buf.length)
  | .read fd buf count        => (rfscRead link c fd buf count).map fun (v, _, c) => (v, c)
  | .lseek fd offset whence   => rfscLseek link c fd offset whence
  | .close fd                 => rfscClose link c fd
  | .opendir name             => rfscOpendir link c name
  | .readdir d                => rfscReaddir link c d
  | .closedir d               => rfscClosedir link c d

end Calls

/-! ### A line on which anything may arrive -/

/-- `rfs_recv`: bytes until there are enough or a timeout, for the bytes and timeouts that are to
come. -/
def rfsRecv (size : Nat) : List (Option UInt8) → List UInt8 × List (Option UInt8)
  | []           => ([], [])
  | none :: es   => ([], if size = 0 then none :: es else es)
  | some b :: es =>
    if size = 0 then ([], some b :: es)
    else (b :: (rfsRecv (size - 1) es).1, (rfsRecv (size - 1) es).2)

theorem length_rfsRecv_le (size : Nat) (es : List (Option UInt8)) :
    (rfsRecv size es).1.length ≤ size := by
  induction es generalizing size with
  | nil => exact Nat.zero_le _
  | cons e es ih =>
    cases e with
    | none => exact Nat.zero_le _
    | some b =>
      rw [rfsRecv]
      split
      · exact Nat.zero_le _
      · have hle := ih (size - 1)
        simp only [List.length_cons]
        omega

/-- What is in the receive buffer: the bytes up to the first timeout. -/
def stale : List (Option UInt8) → List UInt8 × List (Option UInt8)
  | []           => ([], [])
  | none :: es   => ([], es)
  | some b :: es => (b :: (stale es).1, (stale es).2)

/-- A line on which these bytes and timeouts are to come. It reports that `sent n` of `n` bytes
were sent. The receive buffer is not emptied in the simulator. -/
def arrivals (empties : Bool) (sent : UInt32 → UInt32) : Link (List (Option UInt8)) where
  pending es := if empties then stale es else ([], es)
  send bs es := (sent (UInt32.ofNat bs.length), es)
  recv := rfsRecv
  recv_le := length_rfsRecv_le

/-! ### What the client gives to the line

`Link.recorded` is a line that keeps the packets given to `rfsc_send`.
The code never reads this record. A call sends its request before it
looks at any byte of the response, so `Call.transmitted` stops there:
what the server answers, and whether the client survives the answer,
has no part in it.
-/

section Transmission
open Lib (Mem Buf)
open Alcor.Eluarpc

section Record
variable {σ : Type} (link : Link σ)

/-- The line with a record of the packets given to `rfsc_send`, the latest one last. -/
def Link.recorded : Link (σ × List (List UInt8)) where
  pending s := ((link.pending s.1).1, (link.pending s.1).2, s.2)
  send bs s := ((link.send bs s.1).1, (link.send bs s.1).2, s.2 ++ [bs])
  recv size s := ((link.recv size s.1).1, (link.recv size s.1).2, s.2)
  recv_le size s := link.recv_le size s.1

/-- The first half of `rfsch_send_request_read_response`: the receive buffer is emptied and the
request is sent. The result is whether all of it was. -/
def sendRequest (c : Client σ) : Option (Bool × Client σ) :=
  (emptyReceiveBuffer link c).bind fun c =>
    (eluarpcGetPacketSize c.buf).bind fun size =>
      if size.1 then some (false, c)
      else if c.buf.size < size.2.toNat then none
      else
        let sent := link.send (c.buf.mem.read 0 size.2.toNat) c.line
        some (sent.1 = size.2.toUInt32, { c with line := sent.2 })

/-- The second half receives the response, when all of the request was sent. -/
theorem rfschSendRequestReadResponse_eq (c : Client σ) :
    rfschSendRequestReadResponse link c =
      (sendRequest link c).bind fun r =>
        if r.1 then readResponsePacket link r.2 else some (false, r.2) := by
  rw [rfschSendRequestReadResponse, sendRequest, Option.bind_assoc]
  refine congrArg _ (funext fun c => ?_)
  rw [Option.bind_assoc]
  refine congrArg _ (funext fun size => ?_)
  by_cases hbad : size.1 = true
  · simp [hbad]
  · by_cases hroom : c.buf.size < size.2.toNat
    · simp [hbad, hroom]
    · by_cases hsent : (link.send (c.buf.mem.read 0 size.2.toNat) c.line).1 = size.2.toUInt32 <;>
        simp [hbad, hroom, hsent]

/-- A client whose line keeps a record, empty so far. -/
def Client.recorded (c : Client σ) : Client (σ × List (List UInt8)) :=
  { c with line := (c.line, []) }

/-- The packets that a call gives to `rfsc_send`; `none` is an access outside the packet buffer
before. -/
def Call.transmitted (c : Client σ) (call : Call) : Option (List (List UInt8)) :=
  (eluarpcGenWrite c.buf call.request).bind fun buf =>
    (sendRequest link.recorded { c.recorded with buf := buf }).map fun r => r.2.line.2

end Record

end Transmission

end Alcor.Rfs
