import Alcor.Lib.Memory
import Mathlib.Algebra.Group.Int.Defs

/-!
# `Alcor.Uip.App`: sending and receiving on a socket

`elua_uip_appcall` of `src/elua_uip.c`, which the TCP/IP stack calls for
a connection, and the functions that a program calls to send and to
receive. The calls modelled here are those on a connection that is
established, with the stack configured. `char` gives the value of a
`char`, which is signed on some compilers and unsigned on others.
-/

set_option autoImplicit false

namespace Alcor.Uip

open Lib (Mem)

/-! ### `elua_uip.h` and `elua_net.h` -/

/-- The states of a socket. -/
inductive UipState where
  | IDLE
  | SEND
  | RECV
  | RECV_2
  | CONNECT
  | CLOSE
  deriving DecidableEq

def ELUA_NET_ERR_OK : Nat := 0
def ELUA_NET_ERR_TIMEDOUT : Nat := 1
def ELUA_NET_ERR_CLOSED : Nat := 2
def ELUA_NET_ERR_ABORTED : Nat := 3
def ELUA_NET_ERR_OVERFLOW : Nat := 4

def ELUA_NET_NO_LASTCHAR : Int := -1

def TELNET_IAC_CHAR : UInt8 := 255
def TELNET_IAC_3B_FIRST : UInt8 := 251
def TELNET_IAC_3B_LAST : UInt8 := 254
def TELNET_EOF : UInt8 := 236
def STD_CTRLZ_CODE : UInt8 := 26

/-- A value stored in an `elua_net_size`, which is an `s16`. -/
def netSize (n : Int) : Int := (n + 2 ^ 15) % 2 ^ 16 - 2 ^ 15

/-- What `ptr` points to: plain memory, or a `luaL_Buffer`. -/
inductive Ptr where
  | mem (a : Nat)
  | luaBuffer
  deriving DecidableEq

/-- `struct elua_uip_state`. -/
structure SockState where
  state : UipState
  /-- The result, and the kind of destination while the socket receives. -/
  res : Nat
  ptr : Ptr
  len : Int
  readto : Int

/-- The memory of the program. -/
structure World where
  mem : Mem
  /-- What the Lua buffer holds. -/
  luaBuffer : List UInt8 := []
  /-- A byte outside the received segment was read. -/
  outside : Bool := false

/-- Why the stack calls, and what it offers. -/
structure UipCall where
  aborted : Bool := false
  timedout : Bool := false
  closed : Bool := false
  acked : Bool := false
  rexmit : Bool := false
  poll : Bool := false
  newdata : Bool := false
  /-- `uip_mss()`. -/
  mss : Nat := 0
  /-- The `uip_datalen()` bytes at `uip_appdata`. -/
  appdata : List UInt8 := []
  /-- The byte of the buffer behind them. -/
  beyond : UInt8 := 0

/-- What the application asks of the stack. -/
inductive UipAction where
  /-- `uip_send`. -/
  | send (data : List UInt8)
  | stop
  | restart
  | close
  deriving DecidableEq

/-! ### Telnet -/

/-- The loop of `elua_uip_telnet_handle_input`, with room for `room` characters: what goes to the
buffer, and whether a byte outside the segment is read. Each pass takes at least one byte. -/
def telnetLoop (beyond : UInt8) : Nat → List UInt8 → Nat → List UInt8 × Bool
  | 0,     _,      _        => ([], false)
  | _ + 1, [],     _        => ([], false)
  | _ + 1, _ :: _, 0        => ([], false)
  | n + 1, b :: bs, room + 1 =>
    if b ≠ TELNET_IAC_CHAR then
      let r := telnetLoop beyond n bs room
      (b :: r.1, r.2)
    else
      -- `dptr[ 1 ]` is the next byte of the segment, or the one behind it
      let c := bs.headD beyond
      let r :=
        if TELNET_IAC_3B_FIRST ≤ c ∧ c ≤ TELNET_IAC_3B_LAST then
          telnetLoop beyond n (bs.drop 2) (room + 1)
        else if c = TELNET_EOF then
          let r := telnetLoop beyond n (bs.drop 1) room
          (STD_CTRLZ_CODE :: r.1, r.2)
        else telnetLoop beyond n (bs.drop 1) (room + 1)
      (r.1, r.2 || bs.isEmpty)

/-- Bytes go to the memory that `ptr` points to, or to the buffer if `res` is not 0. -/
def deliver (s : SockState) (bs : List UInt8) (w : World) : Option World :=
  if bs = [] then some w
  else
    match s.ptr with
    | .mem a     => if s.res = 0 then some { w with mem := w.mem.store a bs } else none
    | .luaBuffer =>
      if s.res = 0 then none else some { w with luaBuffer := w.luaBuffer ++ bs }

/-- `elua_uip_telnet_handle_input`, which writes to plain memory. -/
def telnetHandleInput (u : UipCall) (s : SockState) (w : World) :
    Option (SockState × World × List UipAction) :=
  match s.ptr with
  | .luaBuffer => none
  | .mem a     =>
    let r := telnetLoop u.beyond u.appdata.length u.appdata s.len.toNat
    let w := { w with mem := w.mem.store a r.1, outside := w.outside || r.2 }
    if 0 < r.1.length then
      some ({ s with
        ptr := .mem (a + r.1.length)
        res := ELUA_NET_ERR_OK
        len := netSize (s.len - r.1.length)
        state := .IDLE }, w, [.stop])
    else some (s, w, [])

/-- `elua_uip_telnet_prep_send`: a carriage return goes before each line feed. -/
def telnetPrepSend (src : List UInt8) : List UInt8 :=
  src.flatMap fun b => if b = 10 then [13, 10] else [b]

/-! ### The application -/

/-- The data of `uip_send( ptr, len )`, of which nothing is taken if the length is not positive. -/
def uipSend (data : List UInt8) : List UipAction := if data = [] then [] else [.send data]

/-- The data part of `elua_uip_appcall`: it (re)transmits from `ptr` on. -/
def appcallSend (telnet : Bool) (u : UipCall) (s : SockState) (w : World) :
    Option (SockState × World × List UipAction) :=
  match s.ptr with
  | .luaBuffer => none
  | .mem a     =>
    let minlen := min s.len u.mss
    let acked : SockState :=
      { s with
        len := netSize (s.len - minlen)
        ptr := .mem (a + minlen.toNat)
        state := if netSize (s.len - minlen) = 0 then .IDLE else s.state }
    let s' := if u.acked then acked else s
    let a' := if u.acked then a + minlen.toNat else a
    let out :=
      if 0 < s'.len then
        if telnet then uipSend (telnetPrepSend (w.mem.read a' s'.len.toNat))
        else uipSend (w.mem.read a' (min s'.len u.mss).toNat)
      else []
    some (s', w, out)

/-- The loop over the received characters, up to the last one: what is stored, and whether the
terminator was found. -/
def recvLoop (char : UInt8 → Int) (readto : Int) : List UInt8 → List UInt8 × Bool
  | []      => ([], false)
  | b :: bs =>
    if char b = readto then ([], true)
    else
      let r := recvLoop char readto bs
      (if b ≠ 13 then b :: r.1 else r.1, r.2)

section Appcall
variable (char : UInt8 → Int) (window : Nat) (telnet : Bool)

/-- The receiving part of `elua_uip_appcall`; `window` is `UIP_RECEIVE_WINDOW`. -/
def appcallRecv (u : UipCall) (s : SockState) (w : World) :
    Option (SockState × World × List UipAction) :=
  let datalen := u.appdata.length
  let overflow := s.len < datalen
  let s := if overflow then { s with res := ELUA_NET_ERR_OVERFLOW } else s
  let temp : Int := if overflow then s.len else datalen
  let r :=
    if s.readto ≠ ELUA_NET_NO_LASTCHAR then recvLoop char s.readto (u.appdata.take temp.toNat)
    else (u.appdata.take temp.toNat, false)
  let lastfound := decide (datalen < window) || r.2
  if s.readto = ELUA_NET_NO_LASTCHAR ∧ temp < 0 then none
  else
    (deliver s r.1 w).map fun w =>
      let s := { s with len := netSize (s.len - r.1.length) }
      if s.len = 0 ∨ lastfound then
        ({ s with res := ELUA_NET_ERR_OK, state := .IDLE }, w, [.stop])
      else (s, w, [])

/-- `elua_uip_appcall`, `none` when it writes where it must not. -/
def appcall (u : UipCall) (s : SockState) (w : World) :
    Option (SockState × World × List UipAction) :=
  if s.state = .IDLE then some (s, w, [])
  else if s.state = .RECV then some ({ s with state := .RECV_2 }, w, [.restart])
  else if u.aborted || u.timedout || u.closed then
    let res := if u.aborted then ELUA_NET_ERR_ABORTED
      else if u.timedout then ELUA_NET_ERR_TIMEDOUT else ELUA_NET_ERR_CLOSED
    some ({ s with res, state := .IDLE }, w, [])
  else if (u.acked || u.rexmit || u.poll) ∧ s.state = .SEND then appcallSend telnet u s w
  else if s.state = .CLOSE then some ({ s with state := .IDLE }, w, [.close])
  else if u.newdata then
    if s.state = .RECV_2 then
      if telnet then telnetHandleInput u s w else appcallRecv char window u s w
    else some (s, w, [.stop])
  else some (s, w, [])

end Appcall

/-! ### The program's side -/

/-- `elua_prep_socket_state`. -/
def prepSocketState (buf : Ptr) (len : Int) (readto : Int) (res : Nat) (state : UipState) :
    SockState :=
  { ptr := buf, len, res, readto, state }

/-- The socket in `elua_net_send`, for a buffer of `len` bytes, when it waits. -/
def netSendStart (buf : Ptr) (len : Nat) : SockState :=
  prepSocketState buf (netSize len) ELUA_NET_NO_LASTCHAR ELUA_NET_ERR_OK .SEND

/-- The result of `elua_net_send`. -/
def netSendResult (len : Nat) (s : SockState) : Int := netSize (netSize len - s.len)

/-- The socket in `elua_net_recv` and `elua_net_recvbuf`, when they wait. -/
def netRecvStart (buf : Ptr) (maxsize : Nat) (readto : Int) : SockState :=
  prepSocketState buf maxsize readto (match buf with | .mem _ => 0 | .luaBuffer => 1) .RECV

/-- The result of `elua_net_recv` and `elua_net_recvbuf`. -/
def netRecvResult (maxsize : Nat) (s : SockState) : Int := netSize (maxsize - s.len)

/-- `elua_net_get_last_err`. -/
def netGetLastErr (s : SockState) : Nat := s.res

end Alcor.Uip
