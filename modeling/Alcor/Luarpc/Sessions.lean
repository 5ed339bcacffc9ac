import Alcor.Luarpc.Values
import Alcor.Lib.Run

/-!
# `Alcor.Luarpc.Sessions`: calls over a transport

The two sides of a remote call in `src/modules/luarpc.c`: a command goes
to the server, which answers with values or an error. A session is a list
of operations, one after the other.

* `dispatch`: the server reads a command and answers it.
* `exchange`: the client sends an operation and receives the answer.
* `session`: both ends, and what is left on the line.
* `SerialTransport`: the serial transport below, with its reads and
  polls in steps; `SerialTransport.Lossless` is what is to hold of it.
-/

set_option autoImplicit false

/-!
## Commands

The client's `helper_call`, `helper_get` and `helper_newindex` and the
server's `read_cmd_call`, `read_cmd_get` and `read_cmd_newindex` of
`src/modules/luarpc.c`. Both ends block until there is something to
read, so the order of an operation is fixed: the command and its
acknowledgement, the operation, the reply.

What Lua does on the server is a parameter. An error of Lua that is not
inside of `lua_pcall` leaves the command, and what was written of a
reply stays on the line; such a command is `none` here, and so is one
that runs off the stack of Lua.

The text of an error ends in `deal_with_error` of the client, which
hands it to the handler that was set with `rpc.on_error`, or makes it
the format of `luaL_error`.
-/

namespace Alcor.Luarpc

/-! ### Commands and answers -/

def RPC_CMD_CALL : UInt8 := 1
def RPC_CMD_GET : UInt8 := 2
def RPC_CMD_NEWINDEX : UInt8 := 4
def RPC_READY : UInt8 := 64
def RPC_UNSUPPORTED_CMD : UInt8 := 65
def LUA_ERRRUN : Nat := 2

/-- What the client does with a helper. -/
inductive Operation (N : Type) where
  /-- The helper is called. -/
  | call (h : Helper) (args : List (Value N))
  /-- An entry of the helper is set. For an entry of the handle it is one with an empty name. -/
  | newindex (h : Helper) (key : List UInt8) (value : Value N)

/-- What an operation delivers: values, or an error with its text. -/
inductive Answer (N : Type) where
  | values (vs : List (Value N))
  | error (text : List UInt8)

/-- The characters of a text, which are ASCII. -/
def chars (text : String) : List UInt8 := text.toList.map fun c => UInt8.ofNat c.toNat

/-- What kind of value stands on the stack. -/
inductive Kind where
  | undefined
  | callable
  | table
  | other
  deriving DecidableEq

/-- What the commands need of Lua on the server. `none` is an error. -/
structure ServerLua (N : Type) where
  State : Type
  /-- A value of the server. -/
  Ref : Type
  /-- What the reader needs. -/
  lua : State → LuaState N
  kind : Ref → Kind
  /-- The kind of an argument. -/
  kindOf : Value N → Kind
  getglobal : State → List UInt8 → Option (State × Ref)
  getfield : State → Ref → List UInt8 → Option (State × Ref)
  /-- `lua_pcall`: the results, or the code and the value of an error. -/
  pcall : State → Ref → List (Value N) → State × ((Nat × Ref) ⊕ List Ref)
  /-- `lua_tolstring`, which is `NULL` for a value that is neither a string nor a number. -/
  tolstring : State → Ref → Option (List UInt8)
  settable : State → Ref → Value N → Value N → Option State
  /-- `lua_setglobal`, with a name that ends at the first NUL. -/
  setglobal : State → List UInt8 → Value N → Option State
  /-- The value as `write_variable` sees it. `none` is one that it has no tag for. -/
  view : State → Ref → Option (Value N)
  dump : State → Nat → Option Written
  /-- How many slots the stack has above the values that are to be written. -/
  room : State → Nat

/-! ### The server -/

section Server
variable {T : NumberType} (tpt : Transport) (S : ServerLua T.Carrier)

/-- A value that can be called or indexed. -/
def further (r : S.Ref) : Bool := S.kind r = .callable ∨ S.kind r = .table

/-- What `read_cmd_call` has found when its loop over the names ends. -/
structure Found (S : ServerLua T.Carrier) where
  state : S.State
  /-- What is on top. -/
  top : S.Ref
  /-- The name that the loop ends with. -/
  token : List UInt8
  /-- How many values the loop leaves on the stack. -/
  height : Nat

/-- The loop of `read_cmd_call` over the names after the first. The value in which the last one was
looked up is not removed when the loop ends there. -/
def walkCall (s : S.State) (top : S.Ref) : List (List UInt8) → Option (Found S)
  | []             => some ⟨s, top, [], 1⟩
  | token :: names =>
    (S.getfield s top token).bind fun (s, top) =>
      if further S top then walkCall s top names else some ⟨s, top, token, 2⟩

/-- The function that `read_cmd_call` finds. -/
def findCall (s : S.State) : List (List UInt8) → Option (Found S)
  | []             => none
  | token :: names =>
    (S.getglobal s token).bind fun (s, top) =>
      if further S top then walkCall S s top names else some ⟨s, top, token, 1⟩

/-- The loop of `read_cmd_get` and `read_cmd_newindex`. -/
def walk (s : S.State) (top : S.Ref) : List (List UInt8) → Option (S.State × S.Ref)
  | []             => some (s, top)
  | token :: names => (S.getfield s top token).bind fun (s, top) => walk s top names

/-- The value that `read_cmd_get` and `read_cmd_newindex` find. -/
def find (s : S.State) : List (List UInt8) → Option (S.State × S.Ref)
  | []             => none
  | token :: names => (S.getglobal s token).bind fun (s, top) => walk S s top names

/-- The text for something that cannot be called, from what is on top of the stack. -/
def notCallable (kind : Kind) : List UInt8 :=
  match kind with
  | .undefined => chars "undefined: "
  | .table     => chars "can't call table"
  | _          => chars "not table/func: "

/-- An error on the line. -/
def writeError (code : Nat) (text : List UInt8) : List UInt8 :=
  1 :: transportWriteU32 tpt code ++ transportWriteU32 tpt text.length ++
    text.take (loopLength text.length)

/-- Some values on the line. -/
def writeValues (dump : Nat → Option Written) (room : Nat) :
    List (Value T.Carrier) → Option (List UInt8)
  | []      => some []
  | v :: vs =>
    (writeVariable tpt dump room v).bind fun bs =>
      (writeValues dump room vs).map fun more => bs ++ more

/-- A string that `alloca` and `transport_read_string` bring in. -/
def readText (bs : List UInt8) : Option (List UInt8 × List UInt8) := (readString tpt bs).join

/-- The values as they are seen. -/
def views (s : S.State) : List S.Ref → Option (List (Value T.Carrier))
  | []      => some []
  | r :: rs => (S.view s r).bind fun v => (views s rs).map fun vs => v :: vs

/-- `read_cmd_call`: the state after it, the reply, and the bytes that are left. -/
def readCmdCall (s : S.State) (bs : List UInt8) : Option (S.State × List UInt8 × List UInt8) := do
  let (path, bs) ← readText tpt bs
  let ⟨s, top, token, height⟩ ← findCall S s (tokens path)
  let (nargs, bs) ← transportReadU32 tpt bs
  match readArguments tpt ((S.lua s).above height) (loopLength nargs) bs [] with
  | .ok _ bs stack =>
    if S.kind top = .callable then
      -- there must be as many arguments as are taken from the stack
      if stack.length ≠ nargs then none
      else
        match S.pcall s top stack.reverse with
        | (s, .inl (code, error)) =>
          some (s, writeError tpt code ((S.tolstring s error).getD []), bs)
        | (s, .inr results)       => do
            let vs ← views S s results
            let reply ← writeValues tpt (S.dump s) (S.room s) vs
            some (s, 0 :: transportWriteU32 tpt results.length ++ reply, bs)
    else
      let kind := (stack.head?.map S.kindOf).getD (S.kind top)
      some (s, writeError tpt LUA_ERRRUN (notCallable kind ++ token), bs)
  | _ => none

/-- `read_cmd_get`. -/
def readCmdGet (s : S.State) (bs : List UInt8) : Option (S.State × List UInt8 × List UInt8) := do
  let (path, bs) ← readText tpt bs
  let (s, top) ← find S s (tokens path)
  let v ← S.view s top
  let reply ← writeVariable tpt (S.dump s) (S.room s) v
  some (s, reply, bs)

/-- `read_cmd_newindex`. -/
def readCmdNewindex (s : S.State) (bs : List UInt8) :
    Option (S.State × List UInt8 × List UInt8) := do
  let (path, bs) ← readText tpt bs
  if path.takeWhile (· ≠ 0) ≠ [] then
    let (s, top) ← find S s (tokens path)
    match readArguments tpt ((S.lua s).above 1) 2 bs [] with
    | .ok _ bs [value, key] => do
        let s ← S.settable s top key value
        some (s, [0], bs)
    | _ => none
  else
    match readArguments tpt (S.lua s) 2 bs [] with
    | .ok _ bs [value, key] => do
        let name ← checkString (S.lua s) key
        let s ← S.setglobal s (name.takeWhile (· ≠ 0)) value
        some (s, [0], bs)
    | _ => none

/-- `rpc_dispatch_helper`: the acknowledgement of a command byte, and the rest of the command. -/
def dispatch (s : S.State) (cmd : UInt8) :
    UInt8 × (List UInt8 → Option (S.State × List UInt8 × List UInt8)) :=
  if cmd = RPC_CMD_CALL then (RPC_READY, readCmdCall tpt S s)
  else if cmd = RPC_CMD_GET then (RPC_READY, readCmdGet tpt S s)
  else if cmd = RPC_CMD_NEWINDEX then (RPC_READY, readCmdNewindex tpt S s)
  else (RPC_UNSUPPORTED_CMD, fun _ => none)

end Server

/-! ### The client -/

/-- What the client needs of its Lua, above the arguments of the helper. -/
structure ClientLua (N : Type) where
  lua : LuaState N
  dump : Nat → Option Written
  /-- How many slots the stack has for what is written. -/
  room : Nat
  /-- An error handler is set. -/
  handler : Bool
  /-- What `luaL_where` puts in front of a message. -/
  position : List UInt8

/-- `lua_pushvfstring` without arguments. `none` is a conversion that takes one, or a text that ends
behind the `%`, where it goes on reading behind the NUL. -/
def pushvfstring : List UInt8 → Option (List UInt8)
  | []           => some []
  | [c]          => if c = 0x25 then none else some [c]
  | c :: d :: cs =>
    if c = 0x25 then
      if d = 0x25 then (pushvfstring cs).map (0x25 :: ·)
      else if d ∈ [0x73, 0x63, 0x64, 0x66, 0x70] then none  -- s, c, d, f and p
      else (pushvfstring cs).map fun more => c :: d :: more
    else (pushvfstring (d :: cs)).map (c :: ·)

section Client
variable {T : NumberType} (tpt : Transport) (C : ClientLua T.Carrier)

/-- `deal_with_error`: what the handler gets, or the message of the error. -/
def dealWithError (text : List UInt8) : Option (List UInt8) :=
  if C.handler then some (text.takeWhile (· ≠ 0))
  else (pushvfstring (text.takeWhile (· ≠ 0))).map (C.position ++ ·)

/-- What is called `get`. -/
def getName : List UInt8 := chars "get"

/-- How a client goes through an operation: the command, what is sent after the acknowledgement, and
what is made of the reply. -/
structure Exchange (N : Type) where
  cmd : UInt8
  body : List UInt8
  receive : List UInt8 → Option (Answer N × List UInt8)

/-- An error, which the client deals with. -/
def receiveError (bs : List UInt8) : Option (Answer T.Carrier × List UInt8) := do
  let (_, bs) ← transportReadU32 tpt bs
  let (text, bs) ← readText tpt bs
  let message ← dealWithError C text
  some (.error message, bs)

/-- The reply to `helper_call`. -/
def receiveCall : List UInt8 → Option (Answer T.Carrier × List UInt8)
  | []        => none
  | ret :: bs =>
    if ret = 0 then do
      let (nret, bs) ← transportReadU32 tpt bs
      match readArguments tpt C.lua (loopLength nret) bs [] with
      | .ok _ bs stack => if stack.length ≠ nret then none else some (.values stack.reverse, bs)
      | _              => none
    else receiveError tpt C bs

/-- The reply to `helper_get`. -/
def receiveGet (bs : List UInt8) : Option (Answer T.Carrier × List UInt8) :=
  match readVariableAll tpt C.lua bs [] with
  | .ok true bs [v] => some (.values [v], bs)
  | _               => none

/-- The reply to `helper_newindex`. -/
def receiveNewindex : List UInt8 → Option (Answer T.Carrier × List UInt8)
  | []        => none
  | ret :: bs => if ret = 0 then some (.values [], bs) else receiveError tpt C bs

/-- `helper_call`, `helper_get` and `helper_newindex`. A helper that is called `get` stands for the
value of its parent, which it must have. -/
def exchange : Operation T.Carrier → Option (Exchange T.Carrier)
  | .call h args            =>
    if h.funcname.chars = getName then
      h.parent.map fun p => ⟨RPC_CMD_GET, helperRemoteIndex tpt p, receiveGet tpt C⟩
    else
      (writeValues tpt C.dump C.room args).map fun bs =>
        ⟨RPC_CMD_CALL, helperRemoteIndex tpt h ++ transportWriteU32 tpt args.length ++ bs,
          receiveCall tpt C⟩
  | .newindex h key value =>
    (writeVariable tpt C.dump C.room value).map fun bs =>
      ⟨RPC_CMD_NEWINDEX, helperRemoteIndex tpt h ++ writeString tpt key ++ bs,
        receiveNewindex tpt C⟩

end Client

/-! ### Sessions -/

/-- The bytes that were sent and not yet read. -/
structure Line where
  toServer : List UInt8
  toClient : List UInt8
  deriving DecidableEq

/-- Two ends of a connection. -/
structure Ends (T : NumberType) where
  client : Transport
  server : Transport
  C : ClientLua T.Carrier
  S : ServerLua T.Carrier

section Sessions
variable {T : NumberType} (E : Ends T)

/-- One operation. `none` is one in which an end stops in the middle. -/
def perform (line : Line) (s : E.S.State) (op : Operation T.Carrier) :
    Option (Line × E.S.State × Answer T.Carrier) := do
  let x ← exchange E.client E.C op
  -- helper_wait_ready, and the first byte that the server reads
  match line.toServer ++ [x.cmd] with
  | []             => none
  | cmd :: pending =>
    let (ack, command) := dispatch E.server E.S s cmd
    match line.toClient ++ [ack] with
    | []           => none
    | ready :: bs' =>
      if ready ≠ RPC_READY then none
      else do
        let (s, reply, pending) ← command (pending ++ x.body)
        let (answer, bs') ← x.receive (bs' ++ reply)
        some (⟨pending, bs'⟩, s, answer)

/-- The operations one after the other: after each, what is on the line, the state of the server and
what the client got. -/
def session (line : Line) (s : E.S.State) :
    List (Operation T.Carrier) → Option (List (Line × E.S.State × Answer T.Carrier))
  | []        => some []
  | op :: ops => do
      let (line, s, answer) ← perform E line s op
      let more ← session line s ops
      some ((line, s, answer) :: more)

end Sessions

end Alcor.Luarpc

/-!
## The serial transport of the RPC

`transport_readable` and `transport_read_buffer` of
`src/luarpc_elua_uart.c`, on an UART that is open. A poll takes a byte
from the UART and keeps it in `adispatch_buff`, where the next read finds
it. Bytes arrive between any two steps of the program, and a step of a
read is one pass of its loop.
-/

namespace Alcor.Luarpc

/-- A call of `transport_read_buffer` that has not returned. -/
structure ReadCall where
  length : Int
  /-- The first `n` bytes of `buffer`. -/
  buffer : List UInt8 := []

/-- A call of `transport_readable`. -/
structure PollCall where
  /-- There was a byte, in `adispatch_buff` or in the UART. -/
  available : Bool
  result : Int

/-- The transport, the bytes that arrived and what the calls came to. -/
structure SerialTransport where
  /-- The bytes in the UART. -/
  uart : List UInt8 := []
  /-- `adispatch_buff`. -/
  adispatchBuff : Int := -1
  reading : Option ReadCall := none
  /-- Every byte that arrived. -/
  arrived : List UInt8 := []
  /-- The bytes of the reads that succeeded. -/
  returned : List UInt8 := []
  polls : List PollCall := []

/-- `platform_uart_recv` without a timeout. -/
def platformUartRecv : List UInt8 → Int × List UInt8
  | []        => (-1, [])
  | b :: uart => (b.toNat, uart)

/-- `transport_readable`. -/
def transportReadable (t : SerialTransport) : Int × SerialTransport :=
  if t.adispatchBuff ≥ 0 then (1, t)
  else
    let (c, uart) := platformUartRecv t.uart
    if c > 0 then (1, { t with uart, adispatchBuff := c }) else (0, { t with uart })

/-- There is a byte that is not read yet. -/
def SerialTransport.available (t : SerialTransport) : Bool :=
  decide (t.adispatchBuff ≥ 0) || !t.uart.isEmpty

/-- The received byte goes into the buffer. -/
def ReadCall.store (r : ReadCall) (c : Int) : ReadCall :=
  { r with buffer := r.buffer ++ [UInt8.ofNat c.toNat] }

/-- A pass of the loop of `transport_read_buffer`, or its end. For the first byte the timeout is
infinite; `expired` says that a later one is not there in time. -/
def SerialTransport.readPass (t : SerialTransport) (r : ReadCall) (expired : Bool) :
    SerialTransport :=
  if r.buffer.length < r.length then
    if t.adispatchBuff < 0 then
      match t.uart with
      | b :: uart => { t with uart, reading := some (r.store b.toNat) }
      | []        =>
        -- `Throw( e )`, with `ERR_NODATA`
        if expired ∧ r.buffer ≠ [] then { t with reading := none } else t
    else { t with adispatchBuff := -1, reading := some (r.store t.adispatchBuff) }
  else { t with reading := none, returned := t.returned ++ r.buffer }

/-- What happens next. -/
inductive SerialEvent where
  /-- The UART receives a byte. -/
  | arrive (b : UInt8)
  /-- The program calls `transport_readable`, if it is in no read. -/
  | poll
  /-- The program calls `transport_read_buffer`, if it is in no read. -/
  | read (length : Int)
  /-- The read goes on. -/
  | go (expired : Bool)

/-- One step. -/
def SerialTransport.step (t : SerialTransport) : SerialEvent → Option SerialTransport
  | .arrive b    => some { t with uart := t.uart ++ [b], arrived := t.arrived ++ [b] }
  | .poll        =>
    some (if t.reading.isSome then t
      else
        { (transportReadable t).2 with
          polls := t.polls ++ [⟨t.available, (transportReadable t).1⟩] })
  | .read length => some (if t.reading.isSome then t else { t with reading := some { length } })
  | .go expired  =>
    some (match t.reading with
      | none   => t
      | some r => t.readPass r expired)

/-- The byte in `adispatch_buff`. -/
def SerialTransport.polled (t : SerialTransport) : List UInt8 :=
  if t.adispatchBuff < 0 then [] else [UInt8.ofNat t.adispatchBuff.toNat]

/-- The bytes of the read that is under way. -/
def SerialTransport.underWay (t : SerialTransport) : List UInt8 :=
  (t.reading.map ReadCall.buffer).getD []

/-- The reads have returned what arrived, up to the bytes of the read that is under way, the one
that was polled and those in the UART; and a poll that found a byte has said so. -/
structure SerialTransport.Lossless (t : SerialTransport) : Prop where
  stream : t.arrived = t.returned ++ t.underWay ++ t.polled ++ t.uart
  polls : ∀ p ∈ t.polls, p.available = true → p.result = 1

/-- A poll does not take the byte 0 from the UART, and no read expires behind its first byte. -/
def SerialTransport.Careful (t : SerialTransport) : SerialEvent → Prop
  | .poll       => t.reading = none → t.adispatchBuff < 0 → t.uart.head? ≠ some 0
  | .go expired => ∀ r, t.reading = some r → r.buffer.length < r.length → t.adispatchBuff < 0 →
      t.uart = [] → r.buffer ≠ [] → expired = false
  | _           => True

end Alcor.Luarpc
