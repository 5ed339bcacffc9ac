import Alcor.Lib.Run
import Alcor.Uip.App

/-!
# `Alcor.Uip.Events`: the calls of a socket and the events of its connection

A call of `elua_net_send`, `elua_net_recv` or of the telnet console,
and the events that uIP reports while the call waits.

* `Sending`: a call that sends, with the segments on the line and the
  bytes that the peer has accepted.
* `Receiving`: a call that receives, with the segments that came.
* `Session`: reads of a telnet console, over a stream of items.
* `Delivers`, `Filtered`: what is to hold of the three.
-/

set_option autoImplicit false

/-!
## A call of `elua_net_send` and the other end

The stack takes what the application hands to `uip_send`, at most as
much as the maximum segment size of the moment, and puts it on the line
at the place of the first byte that is not acknowledged. The line may
lose, delay and repeat segments. The peer accepts from a segment what
continues the bytes it has. An acknowledgement is reported when the peer
has all bytes of the last segment.
-/

namespace Alcor.Uip

open Lib (Mem)

/-- A call of `elua_net_send`, with the stack and the peer. -/
structure Sending where
  /-- The memory of the program, which does not change. -/
  mem : Mem
  /-- The address of the buffer. -/
  buf : Nat
  /-- Its length. -/
  size : Nat
  sock : SockState
  /-- The number of bytes that are acknowledged. -/
  una : Nat := 0
  /-- The last segment, as long as it is not acknowledged. -/
  inflight : Option (List UInt8) := none
  /-- The segments put on the line, each with its place in the stream. -/
  sent : List (Nat × List UInt8) := []
  /-- The bytes that the peer has accepted. -/
  accepted : List UInt8 := []
  /-- The connection was closed. -/
  lost : Bool := false

/-- The start of the call. -/
def Sending.start (mem : Mem) (buf size : Nat) : Sending :=
  { mem, buf, size, sock := netSendStart (.mem buf) size }

/-- What happens while the call waits. Each call of the application comes with the maximum
segment size of the moment. -/
inductive SendEvent where
  | poll (mss : Nat)
  | rexmit (mss : Nat)
  | acked (mss : Nat)
  /-- A segment that was sent arrives. -/
  | arrive (k : Nat)
  /-- The connection is closed, aborted or given up. -/
  | closed

/-- The stack transmits what the application sends. -/
def Sending.transmit (s : Sending) (mss : Nat) : List UipAction → Sending
  | .send data :: _ =>
    { s with inflight := some (data.take mss), sent := s.sent ++ [(s.una, data.take mss)] }
  | _ => s

/-- The stack calls the application. -/
def Sending.call (s : Sending) (u : UipCall) : Option Sending :=
  (appcall (fun b => b.toNat) 0 false u s.sock { mem := s.mem }).map fun (sock, _, out) =>
    { s with sock }.transmit u.mss out

/-- The peer accepts from a segment what comes next. -/
def Sending.accept (s : Sending) (seg : Nat × List UInt8) : Sending :=
  if seg.1 ≤ s.accepted.length then
    { s with accepted := s.accepted ++ seg.2.drop (s.accepted.length - seg.1) }
  else s

/-- One event. The stack makes no calls for a connection that is closed. -/
def Sending.step (s : Sending) : SendEvent → Option Sending
  | .poll mss   => if mss = 0 ∨ s.lost then none else s.call { poll := true, mss }
  | .rexmit mss =>
    if mss = 0 ∨ s.lost ∨ s.inflight = none then none else s.call { rexmit := true, mss }
  | .acked mss  =>
    match s.inflight with
    | none     => none
    | some seg =>
      if mss = 0 ∨ s.lost ∨ s.accepted.length < s.una + seg.length then none
      else { s with una := s.una + seg.length, inflight := none }.call { acked := true, mss }
  | .arrive k   => s.sent[k]?.map s.accept
  | .closed     =>
    if s.lost then none else ({ s with lost := true } : Sending).call { closed := true }

/-- The call has come back. -/
def Sending.Returned (s : Sending) : Prop := s.sock.state = .IDLE

instance (s : Sending) : Decidable s.Returned := inferInstanceAs (Decidable (_ = _))

/-- What is expected of the call: the peer has a beginning of the buffer; when the call has come
back on an open connection, it has the whole buffer, and the result is its length; and while the
call waits, each poll transmits more of the buffer. -/
structure Sending.Delivers (s : Sending) : Prop where
  prefix_le : s.accepted.length ≤ s.size
  prefix_eq : s.accepted = s.mem.read s.buf s.accepted.length
  returned : s.Returned → s.lost = false →
    s.accepted = s.mem.read s.buf s.size ∧ netSendResult s.size s.sock = s.size
  waiting : ¬ s.Returned → s.lost = false → ∀ mss, 0 < mss → ∃ s' seg, s.step (.poll mss) = some s' ∧
    s'.sent = s.sent ++ [(s.una, seg)] ∧ seg ≠ [] ∧ s.una + seg.length ≤ s.size ∧
      seg = s.mem.read (s.buf + s.una) seg.length

/-- An acknowledgement comes with a segment size that takes as much of what is left as was
transmitted. -/
def Sending.AckMatches (s : Sending) : SendEvent → Prop
  | .acked mss => ∀ seg, s.inflight = some seg → min s.sock.len mss = seg.length
  | _          => True

instance (s : Sending) : ∀ e, Decidable (s.AckMatches e)
  | .acked mss =>
    match h : s.inflight with
    | none     => .isTrue fun _ hnone => by rw [h] at hnone; cases hnone
    | some seg =>
      decidable_of_iff (min s.sock.len mss = seg.length) (by simp [Sending.AckMatches, h])
  | .poll _    => .isTrue trivial
  | .rexmit _  => .isTrue trivial
  | .arrive _  => .isTrue trivial
  | .closed    => .isTrue trivial

end Alcor.Uip

/-!
## A call of `elua_net_recv` or `elua_net_recvbuf`

The socket is stopped when the call begins. The first call of the
application starts the flow of data, and then each segment comes with
one call, until the socket is idle again and the flow stops. `wanted` is
what the program asks for: the stream up to the terminator, without
carriage returns, or the whole stream if there is no terminator.
-/

namespace Alcor.Uip

open Lib (Mem)

/-- What the program asks for, of the bytes `bs`. -/
def wanted (char : UInt8 → Int) (readto : Int) (bs : List UInt8) : List UInt8 :=
  if readto = ELUA_NET_NO_LASTCHAR then bs
  else (bs.takeWhile fun b => char b ≠ readto).filter (· ≠ 13)

/-- The terminator is among the bytes. -/
def terminated (char : UInt8 → Int) (readto : Int) (bs : List UInt8) : Bool :=
  decide (readto ≠ ELUA_NET_NO_LASTCHAR) && bs.any fun b => char b = readto

/-- A call that receives. -/
structure Receiving where
  /-- The destination that the caller passed. -/
  buf : Ptr
  maxsize : Nat
  readto : Int
  /-- The memory when the call began. -/
  before : World
  sock : SockState
  world : World
  /-- The segments that the application was called with. -/
  segments : List (List UInt8) := []
  /-- The connection was closed. -/
  lost : Bool := false
  /-- Something was written where it must not. -/
  wild : Bool := false

/-- The start of the call. -/
def Receiving.start (buf : Ptr) (maxsize : Nat) (readto : Int) (world : World) : Receiving :=
  { buf, maxsize, readto, before := world, world, sock := netRecvStart buf maxsize readto }

/-- What happens while the call waits. -/
inductive RecvEvent where
  | poll
  | segment (data : List UInt8)
  | aborted
  | timedout
  | closed

section Step
variable (char : UInt8 → Int) (window : Nat)

/-- The stack calls the application. -/
def Receiving.call (s : Receiving) (u : UipCall) : Receiving :=
  match appcall char window false u s.sock s.world with
  | none                  => { s with wild := true }
  | some (sock, world, _) => { s with sock, world }

/-- One event. A segment comes only when the socket is not stopped, and nothing comes after the
connection is closed or the memory is damaged. -/
def Receiving.step (s : Receiving) (e : RecvEvent) : Option Receiving :=
  if s.lost ∨ s.wild then none
  else
    match e with
    | .poll         => some (s.call char window { poll := true })
    | .segment data =>
      if data = [] ∨ s.sock.state ≠ .RECV_2 then none
      else
        some (({ s with segments := s.segments ++ [data] } : Receiving).call char window
          { newdata := true, appdata := data })
    | .aborted      =>
      some (({ s with lost := true } : Receiving).call char window { aborted := true })
    | .timedout     =>
      some (({ s with lost := true } : Receiving).call char window { timedout := true })
    | .closed       =>
      some (({ s with lost := true } : Receiving).call char window { closed := true })

/-- The call has come back. -/
def Receiving.Returned (s : Receiving) : Prop := s.sock.state = .IDLE

/-- What was asked for, of the received stream. -/
def Receiving.wanted (s : Receiving) : List UInt8 :=
  Uip.wanted char s.readto s.segments.flatten

/-- The destination holds the bytes `bs`, and nothing else has changed. -/
def Receiving.Stored (s : Receiving) (bs : List UInt8) : Prop :=
  match s.buf with
  | .mem a     => s.world.luaBuffer = s.before.luaBuffer ∧ s.world.mem = s.before.mem.store a bs
  | .luaBuffer => s.world.luaBuffer = s.before.luaBuffer ++ bs ∧ s.world.mem = s.before.mem

/-- What is expected of the call: the destination holds what was asked for, up to the maximum
size, and nothing else is written; when the call has come back, the result is the number of these
bytes, the terminator, the maximum size or the end of the transmission was reached, and an
overflow is reported. -/
structure Receiving.Delivers (s : Receiving) : Prop where
  sound : s.wild = false
  stored : s.Stored ((s.wanted char).take s.maxsize)
  result : s.Returned → netRecvResult s.maxsize s.sock = ((s.wanted char).take s.maxsize).length
  complete : s.Returned → s.lost = false →
    terminated char s.readto s.segments.flatten = true ∨ s.maxsize ≤ (s.wanted char).length ∨
      ∃ data, s.segments.getLast? = some data ∧ data.length < window
  overflow : s.Returned → s.lost = false → s.maxsize < (s.wanted char).length →
    netGetLastErr s.sock = ELUA_NET_ERR_OVERFLOW

/-- A segment fits in what is left of the maximum size, and the bytes go to a Lua buffer, or they
are the first that are stored, or none is. -/
def Receiving.Fits (s : Receiving) : RecvEvent → Prop
  | .segment data => (data.length : Int) ≤ s.sock.len ∧
      (s.buf = .luaBuffer ∨ s.sock.len = s.maxsize ∨ Uip.wanted char s.readto data = [])
  | _             => True

end Step

end Alcor.Uip

/-!
## Reading from the telnet client

A client sends characters and commands of two or three bytes. `encode`
is what it sends, `text` is what the reader should get. A `Session` is a
sequence of reads of the telnet socket, each of which ends with the first
segment that delivers something.
-/

namespace Alcor.Uip

open Lib (Mem)

/-- What the client sends at a time. -/
inductive Item where
  /-- A character. -/
  | char (b : UInt8)
  /-- A command of two bytes, for instance a quoted 255. -/
  | two (c : UInt8)
  /-- A command of three bytes. -/
  | three (c d : UInt8)
  deriving DecidableEq

/-- The second byte tells the commands of three bytes from those of two. -/
def Item.Valid : Item → Prop
  | .char b    => b ≠ TELNET_IAC_CHAR
  | .two c     => ¬ (TELNET_IAC_3B_FIRST ≤ c ∧ c ≤ TELNET_IAC_3B_LAST)
  | .three c _ => TELNET_IAC_3B_FIRST ≤ c ∧ c ≤ TELNET_IAC_3B_LAST

/-- The bytes of an item. -/
def Item.encode : Item → List UInt8
  | .char b    => [b]
  | .two c     => [TELNET_IAC_CHAR, c]
  | .three c d => [TELNET_IAC_CHAR, c, d]

/-- What an item is to the reader: the EOF command is the end-of-file code. -/
def Item.text : Item → List UInt8
  | .char b    => [b]
  | .two c     => if c = TELNET_EOF then [STD_CTRLZ_CODE] else []
  | .three _ _ => []

/-- The bytes of a stream. -/
def encode (items : List Item) : List UInt8 := items.flatMap Item.encode

/-- What the reader should get. -/
def text (items : List Item) : List UInt8 := items.flatMap Item.text

/-- The items of a stream are as the client sends them. -/
def Valid (items : List Item) : Prop := ∀ i ∈ items, i.Valid

/-- The telnet socket, with the buffer of the reader at the start of the memory. -/
structure Session where
  sock : SockState
  world : World
  /-- The size that the reader asked for. -/
  maxsize : Nat := 0
  /-- The bytes of all segments. -/
  stream : List UInt8 := []
  /-- The bytes that the reads returned. -/
  delivered : List UInt8 := []

/-- Before the first read. -/
def Session.start (mem : Mem) : Session :=
  { sock := prepSocketState (.mem 0) 0 ELUA_NET_NO_LASTCHAR 0 .IDLE, world := { mem } }

/-- What happens on the socket. -/
inductive TelnetEvent where
  /-- The program reads at most so many bytes. -/
  | read (maxsize : Nat)
  | poll
  /-- A segment comes; `beyond` is the byte of the stack's buffer behind it. -/
  | segment (data : List UInt8) (beyond : UInt8)

/-- The stack calls the application. -/
def Session.call (s : Session) (u : UipCall) : Option Session :=
  (appcall (fun b => b.toNat) 0 true u s.sock s.world).map fun (sock, world, _) =>
    { s with sock, world }

/-- When a read has come back, its bytes are in the buffer. -/
def Session.collect (s : Session) : Session :=
  if s.sock.state = .IDLE then
    { s with
      delivered := s.delivered ++ s.world.mem.read 0 (netRecvResult s.maxsize s.sock).toNat }
  else s

/-- One event. A segment comes only while a read has the flow of data open. -/
def Session.step (s : Session) : TelnetEvent → Option Session
  | .read maxsize        =>
    if s.sock.state ≠ .IDLE ∨ maxsize = 0 ∨ 2 ^ 15 ≤ maxsize then none
    else some { s with maxsize, sock := netRecvStart (.mem 0) maxsize ELUA_NET_NO_LASTCHAR }
  | .poll                => s.call { poll := true }
  | .segment data beyond =>
    if data = [] ∨ s.sock.state ≠ .RECV_2 then none
    else
      (({ s with stream := s.stream ++ data } : Session).call
        { newdata := true, appdata := data, beyond }).map Session.collect

/-- What is expected: whatever items the stream is made of, the reads return their text, and no
byte outside a segment is read. -/
def Session.Filtered (s : Session) : Prop :=
  s.world.outside = false ∧
    ∀ items, Valid items → encode items = s.stream → s.delivered = text items

/-- A segment consists of whole items, and their text fits in what the reader asked for. -/
def Session.Whole (s : Session) : TelnetEvent → Prop
  | .segment data _ => ∃ items, Valid items ∧ encode items = data ∧
      ((text items).length : Int) ≤ s.sock.len
  | _               => True

end Alcor.Uip
