import Alcor.Lib.Run
import Alcor.Lib.Chain
import Alcor.Lib.Memory

/-!
# `Alcor.Uart.Handlers`: receive handlers and the language bindings

The chain of handlers of the UARTs, and the reads of the three
languages.

* `handleRx`: what an interrupt does, by the chain of handlers.
* `platformUartSetBuffer`, `restoreHandler`: our handler comes and goes.
* `State.Undisturbed`, `Harmless`: what is to hold of a run, and the
  steps that it holds for.
* `luaUartRead`, `plispUartRead`, `picocUartReadNum`: reading, in Lua,
  picoLisp and PicoC.
* `luaUartSetBuffer`, `comparedCall`: setting a buffer, in Lua and in the
  two others.
-/

set_option autoImplicit false

/-!
## The receive interrupt of the buffered UARTs

`platform_uart_set_buffer` and `cmn_uart_setup_sermux` of
`src/common_uart.c`. One C handler serves the receive interrupts of all
UARTs. It is put in front of the handler that `src/elua_int.c` has for
them, which is kept in a variable and called behind ours. Others install
handlers of their own in the same way.

The buffers are those of `Alcor.Buffer.Buf`; here a buffer is enabled or
not. Ids are checked with `platform_uart_exists` by the callers. What the
multiplexer does with its bytes is `Alcor.Sermux.Ends`.
-/

namespace Alcor.Uart

open Lib (Chain)

/-- `SERMUX_SERVICE_ID_FIRST`. -/
def SERMUX_SERVICE_ID_FIRST : Nat := 0xD0

/-- The configuration of a board. -/
structure Config where
  /-- `NUM_UART`. -/
  numUart : Nat
  /-- `SERMUX_PHYS_ID`, `0xFFFF` without the multiplexer. -/
  sermuxPhysId : Nat
  /-- `SERMUX_NUM_VUART`, none without the multiplexer. -/
  numVuart : Nat
  numUart_le : numUart ≤ SERMUX_SERVICE_ID_FIRST

/-- `platform_uart_exists`, in a build without `BUILD_USB_CDC`. There
`CDC_UART_ID` exists too, which has neither a receive interrupt nor a
buffer of its own. -/
def platformUartExists (cfg : Config) (id : Nat) : Bool :=
  (decide (SERMUX_SERVICE_ID_FIRST ≤ id) && decide (id < SERMUX_SERVICE_ID_FIRST + cfg.numVuart)) ||
    decide (id < cfg.numUart)

/-- A C handler of the receive interrupt. -/
inductive Handler where
  /-- `cmn_uart_rx_inthandler`. -/
  | shared
  /-- The handlers of others, in the order in which they were installed. -/
  | foreign (k : Nat)
  deriving DecidableEq, Repr

structure State where
  /-- The entry of `elua_int_c_handler_list` for `INT_UART_RX`. -/
  handler : Option Handler := none
  /-- `prev_uart_rx_handler`. -/
  prevUartRxHandler : Option Handler := none
  /-- What each handler of others found when it was installed, and chains to. -/
  found : List (Option Handler) := []
  /-- `buf_is_enabled`. -/
  buffered : Nat → Bool := fun _ => false
  /-- `platform_cpu_get_interrupt`, for `INT_UART_RX`. -/
  interruptEnabled : Nat → Bool := fun _ => false

/-- What a handler chains to. -/
def State.next (s : State) : Handler → Option Handler
  | .shared    => s.prevUartRxHandler
  | .foreign k => s.found[k]?.join

/-! ### An interrupt -/

/-- The handlers from one on, for an interrupt of a UART with these bytes
received. The result has the bytes for which `buf_write` is called,
whether the buffer has room for them or not, and those that nobody
read. -/
def handleRx (cfg : Config) (s : State) (resnum : Nat) :
    Nat → Option Handler → List UInt8 → Option (List UInt8 × List UInt8)
  | _,        none,   bytes => some ([], bytes)
  | 0,        some _, _     => none
  | fuel + 1, some h, bytes =>
    if h = .shared ∧ (s.buffered resnum ∨ resnum = cfg.sermuxPhysId) then do
      let (written, left) ← handleRx cfg s resnum fuel (s.next h) []
      -- the bytes of the multiplexer go to the virtual UARTs
      return ((if resnum = cfg.sermuxPhysId then [] else bytes) ++ written, left)
    else handleRx cfg s resnum fuel (s.next h) bytes

/-! ### The operations -/

/-- `buf_set`, where the reallocation succeeds or not. The size is an 8-bit value there. -/
def bufSet (s : State) (id log2size : Nat) (allocOk : Bool) : Bool × State :=
  if allocOk then
    (true, { s with buffered := Function.update s.buffered id (decide (log2size % 256 ≠ 0)) })
  else
    (decide (log2size % 256 = 0), { s with buffered := Function.update s.buffered id false })

/-- `platform_cpu_set_interrupt`, where it succeeds or not. -/
def platformCpuSetInterrupt (s : State) (id : Nat) (status ok : Bool) : State :=
  if ok then { s with interruptEnabled := Function.update s.interruptEnabled id status } else s

/-- Our handler is put in front of the one that is there, unless it is ours. -/
def setupHandler (s : State) : State :=
  if s.handler ≠ some .shared then
    { s with prevUartRxHandler := s.handler, handler := some .shared }
  else s

/-- If our handler is installed, the previous one is restored. -/
def restoreHandler (s : State) : State :=
  if s.handler = some .shared then { s with handler := s.prevUartRxHandler } else s

/-- What a call is answered by the functions it calls. -/
structure Answers where
  /-- The reallocation in `buf_set` succeeds. -/
  allocOk : Bool
  /-- `platform_cpu_set_interrupt` succeeds. -/
  interruptOk : Bool

/-- `platform_uart_set_buffer`. The result says if it returned `PLATFORM_OK`. -/
def platformUartSetBuffer (cfg : Config) (id log2size : Nat) (a : Answers) (s : State) :
    Bool × State :=
  if id = cfg.sermuxPhysId then (false, s)
  else if log2size = 0 then
    if id ≥ SERMUX_SERVICE_ID_FIRST then (false, s)
    else
      let s := if s.interruptEnabled id then platformCpuSetInterrupt s id false a.interruptOk else s
      let s := restoreHandler s
      (true, (bufSet s id 0 a.allocOk).2)
  else
    let (bufOk, s) := bufSet s id log2size a.allocOk
    if !bufOk then (false, s)
    else if id ≥ SERMUX_SERVICE_ID_FIRST then (true, s)
    else (a.interruptOk, platformCpuSetInterrupt (setupHandler s) id true a.interruptOk)

/-- `cmn_uart_setup_sermux`. Without its interrupt it does not return. -/
def cmnUartSetupSermux (cfg : Config) (interruptOk : Bool) (s : State) : Option State :=
  if interruptOk then some (setupHandler (platformCpuSetInterrupt s cfg.sermuxPhysId true true))
  else none

/-- Another handler is installed, which chains to the one it finds. -/
def installForeign (s : State) : State :=
  { s with handler := some (.foreign s.found.length), found := s.found ++ [s.handler] }

/-! ### Runs -/

inductive Event where
  | setBuffer (id log2size : Nat) (a : Answers)
  | setupSermux (interruptOk : Bool)
  | install

def step (cfg : Config) (s : State) : Event → Option State
  | .setBuffer id log2size a =>
    if platformUartExists cfg id then some (platformUartSetBuffer cfg id log2size a s).2 else none
  | .setupSermux interruptOk => cmnUartSetupSermux cfg interruptOk s
  | .install                 => some (installForeign s)

/-- The call returns success. -/
def Event.Succeeds (cfg : Config) (s : State) : Event → Prop
  | .setBuffer id log2size a => (platformUartSetBuffer cfg id log2size a s).1 = true
  | _                        => True

/-- The buffered UARTs do not disturb each other. -/
structure State.Undisturbed (cfg : Config) (s : State) : Prop where
  interruptEnabled : ∀ id < cfg.numUart, s.buffered id → s.interruptEnabled id
  /-- Each byte of a buffered UART is given to `buf_write` once, in
  order. Whether the buffer has room for it is the matter of
  `Alcor.Buffer.Buf`. -/
  written : ∀ id < cfg.numUart, s.buffered id → ∀ bytes, ∃ fuel,
    handleRx cfg s id fuel s.handler bytes = some (bytes, [])
  /-- The chain of handlers ends. -/
  ends : ∀ id bytes, ∃ fuel, (handleRx cfg s id fuel s.handler bytes).isSome

/-- Our handler is among those that are called. -/
def State.InChain (s : State) : Prop :=
  ∃ hs, Chain s.next hs ∧ hs.head? = s.handler ∧ .shared ∈ hs

/-- Our handler can be put in front: it is there already, or it is nowhere behind another. -/
def State.CanSetup (s : State) : Prop := s.handler = some .shared ∨ ¬ s.InChain

/-- What a step has to meet. -/
def Harmless (cfg : Config) (s : State) : Event → Prop
  | .setBuffer id log2size a =>
    id ≠ cfg.sermuxPhysId → id < SERMUX_SERVICE_ID_FIRST →
      if log2size = 0 then
        -- our handler is not taken from another UART
        s.handler = some .shared → ∀ id' < cfg.numUart, id' ≠ id → ¬ s.buffered id'
      else (bufSet s id log2size a.allocOk).1 → s.CanSetup ∧
        (log2size % 256 = 0 ∨ a.interruptOk ∨ s.interruptEnabled id)
  | .setupSermux interruptOk => interruptOk → s.CanSetup
  | .install                 => True

end Alcor.Uart

/-!
## The UART module of three languages

`src/modules/uart.c`: reading in picoLisp, PicoC and Lua, and setting a
buffer. The bytes are those that arrive in time; behind them
`platform_uart_recv` gives `-1`. The count of a read does not reach the greatest
`s32`, and a reallocation to one byte has its memory.

`platform_uart_set_buffer` is that of `Alcor.Uart.Handlers`, with the size of the
buffers and with its result as a number.
-/

namespace Alcor.Uart.Bindings

open Lib (Mem Buf)

/-! ### Reading -/

/-- What is read: `*l`, `*n`, `*s`, or a greatest number of bytes. -/
inductive Format where
  | line
  | number
  | space
  | maxsize (n : Nat)
  deriving DecidableEq, Repr

/-- `isdigit` of the C locale. -/
def isdigit (c : UInt8) : Bool := decide (48 ≤ c.toNat) && decide (c.toNat ≤ 57)

/-- `isspace` of the C locale. -/
def isspace (c : UInt8) : Bool := c == 32 || (decide (9 ≤ c.toNat) && decide (c.toNat ≤ 13))

/-- `'-'` or `'+'`. -/
def issign (c : UInt8) : Bool := c == 45 || c == 43

/-- The tests in front of the store: byte number `count` ends the read. -/
def ends (fmt : Format) (count : Nat) (c : UInt8) : Bool :=
  (c == 10 && fmt == .line) ||
    (!isdigit c && !(count == 1 && issign c) && fmt == .number) ||
    (isspace c && fmt == .space)

/-- `platform_uart_recv`. -/
def recv : List UInt8 → Int × List UInt8
  | []         => (-1, [])
  | b :: bytes => (b.toNat, bytes)

/-- A value of the language. -/
inductive Value where
  | num (n : Int)
  | str (text : List UInt8)
  deriving DecidableEq, Repr

/-- The conversion of a number to `int`, exact in the range of `int`. -/
structure Conversion where
  toInt : Int → Int
  exact : ∀ n, -2147483648 ≤ n → n ≤ 2147483647 → toInt n = n

/-- The value of decimal digits. -/
def digitsVal (text : List UInt8) : Nat :=
  text.foldl (fun n c => 10 * n + (c.toNat - 48)) 0

/-- `lua_tointeger` of a text with an optional sign and digits; 0 if it is not a number. -/
def luaTointeger (conv : Conversion) : List UInt8 → Int
  | []          => 0
  | c :: digits =>
    if issign c then
      if digits = [] then 0
      else conv.toInt (if c = 45 then -(digitsVal digits : Int) else digitsVal digits)
    else conv.toInt (digitsVal (c :: digits))

/-- The loop of `uart_read` for Lua, behind `count` bytes. -/
def luaReadLoop (fmt : Format) : Nat → List UInt8 → List UInt8 → List UInt8 × List UInt8
  | _,     b, []           => (b, [])
  | count, b, res :: bytes =>
    let count := count + 1
    if ends fmt count res then (b, bytes)
    else
      let b := b ++ [res]
      if fmt = .maxsize count then (b, bytes) else luaReadLoop fmt count b bytes

/-- `uart_read` for Lua, and the bytes it leaves. -/
def luaUartRead (conv : Conversion) (fmt : Format) (bytes : List UInt8) : Value × List UInt8 :=
  let (b, rest) := luaReadLoop fmt 0 [] bytes
  (if fmt = .number then .num (luaTointeger conv b) else .str b, rest)

/-- The loop of `plisp_uart_read`: the last result of `platform_uart_recv`, the count and the
buffer. The buffer has one byte after each reallocation. `none` is a store outside of it. -/
def plispReadLoop (fmt : Format) : Nat → Buf → List UInt8 →
    Option ((Int × Nat × Buf) × List UInt8)
  | count, buffer, []           => some ((-1, count, ⟨buffer.mem, 1⟩), [])
  | count, buffer, res :: bytes =>
    let buffer : Buf := ⟨buffer.mem, 1⟩
    let count := count + 1
    if ends fmt count res then some ((res.toNat, count, buffer), bytes)
    else do
      let buffer ← buffer.put? (count - 1) [res]
      if fmt = .maxsize count then return ((res.toNat, count, buffer), bytes)
      else plispReadLoop fmt count buffer bytes

/-- The string in a buffer. -/
def cstr (buffer : Buf) : List UInt8 :=
  (buffer.mem.read 0 buffer.size).takeWhile fun b => b ≠ 0

/-- `plisp_uart_read`, with this in the memory that it gets: each
`realloc( buffer, 1 )` has its byte. Where it returns `NULL` the next
store is through a null pointer. -/
def plispUartRead (m : Mem) (fmt : Format) (bytes : List UInt8) : Option (Value × List UInt8) := do
  let ((res, count, buffer), rest) ← plispReadLoop fmt 0 ⟨m, 0⟩ bytes
  let buffer ← buffer.put? count [0]
  return (if fmt = .number then .num res else .str (cstr buffer), rest)

/-- The loop of `uart_read_num` for PicoC. -/
def picocReadLoop : Nat → List UInt8 → Int × List UInt8
  | _,     []           => (-1, [])
  | count, res :: bytes =>
    let count := count + 1
    if ends .number count res then (res.toNat, bytes) else picocReadLoop count bytes

/-- `uart_read_num` for PicoC. -/
def picocUartReadNum (bytes : List UInt8) : Value × List UInt8 :=
  let (res, rest) := picocReadLoop 0 bytes
  (.num res, rest)

/-- A function that reads like that of Lua. -/
inductive Reader where
  | picoLisp (m : Mem) (fmt : Format)
  | picoC

/-- The format of Lua. -/
def Reader.format : Reader → Format
  | .picoLisp _ fmt => fmt
  | .picoC          => .number

/-- What it returns, and the bytes it leaves. -/
def Reader.read : Reader → List UInt8 → Option (Value × List UInt8)
  | .picoLisp m fmt, bytes => plispUartRead m fmt bytes
  | .picoC,          bytes => some (picocUartReadNum bytes)

/-- It consumes and returns the same. -/
def ReadsAsLua (conv : Conversion) (r : Reader) (bytes : List UInt8) : Prop :=
  r.read bytes = some (luaUartRead conv r.format bytes)

/-- The number at the start of the bytes: an optional sign and the digits behind it. -/
def numeral : List UInt8 → List UInt8
  | []         => []
  | c :: bytes => if issign c || isdigit c then c :: bytes.takeWhile isdigit else []

/-- The byte behind it, or the time-out. -/
def numeralEnd (bytes : List UInt8) : Int := (recv (bytes.drop (numeral bytes).length)).1

/-- The condition on what arrives. -/
def ReadsRight (conv : Conversion) : Reader → List UInt8 → Prop
  | .picoLisp _ .number, _     => False
  | .picoLisp _ _,       bytes => bytes = []
  | .picoC,              bytes => luaTointeger conv (numeral bytes) = numeralEnd bytes

/-- Every byte that is stored is inside of the buffer, and the text has only bytes that arrived. -/
def StaysInside (fmt : Format) (m : Mem) (bytes : List UInt8) : Prop :=
  ∃ value rest, plispUartRead m fmt bytes = some (value, rest) ∧
    ∀ text, value = .str text → ∀ b ∈ text, b ∈ bytes

/-! ### Setting a buffer -/

/-- `PLATFORM_ERR`. -/
def PLATFORM_ERR : Int := 0

/-- `PLATFORM_OK`. -/
def PLATFORM_OK : Int := 1

/-- `intlog2`: the number of times that the value can be halved. -/
def intlog2 (v : Nat) : Nat := if v / 2 = 0 then 0 else intlog2 (v / 2) + 1
decreasing_by omega

/-- A board with its configuration. -/
structure Board extends Config where
  /-- `BUF_ENABLE_UART`. -/
  bufEnableUart : Bool

/-- The buffers of the UARTs, and the handlers. -/
structure Uarts where
  /-- `logsize` of the buffer; 0 is `BUF_SIZE_NONE`. -/
  logsize : Nat → Nat
  state : State

/-- What a call is answered by the functions it calls. -/
structure World where
  /-- A reallocation to this number of bytes succeeds. -/
  realloc : Nat → Bool
  /-- `platform_cpu_set_interrupt` succeeds. -/
  interruptOk : Bool

/-- `buf_set`. The size is an 8-bit value there. -/
def bufSet (id log2size : Nat) (w : World) (u : Uarts) : Int × Uarts :=
  let logsize := log2size % 256
  let allocOk := w.realloc (2 ^ logsize)
  (if allocOk ∨ logsize = 0 then PLATFORM_OK else PLATFORM_ERR,
    { logsize := Function.update u.logsize id (if allocOk then logsize else 0)
      state := (Uart.bufSet u.state id log2size allocOk).2 })

/-- `platform_uart_set_buffer`. -/
def platformUartSetBuffer (b : Board) (id log2size : Nat) (w : World) (u : Uarts) : Int × Uarts :=
  if id = b.sermuxPhysId then (PLATFORM_ERR, u)
  else if !b.bufEnableUart then (PLATFORM_ERR, u)
  else if log2size = 0 then
    if id ≥ SERMUX_SERVICE_ID_FIRST then (PLATFORM_ERR, u)
    else
      let s := u.state
      let s := if s.interruptEnabled id then platformCpuSetInterrupt s id false w.interruptOk else s
      let s := restoreHandler s
      (PLATFORM_OK, (bufSet id 0 w { u with state := s }).2)
  else
    let (res, u) := bufSet id log2size w u
    if res = PLATFORM_ERR then (PLATFORM_ERR, u)
    else if id ≥ SERMUX_SERVICE_ID_FIRST then (PLATFORM_OK, u)
    else
      let s := platformCpuSetInterrupt (setupHandler u.state) id true w.interruptOk
      (if w.interruptOk then PLATFORM_OK else PLATFORM_ERR, { u with state := s })

/-- The error that a binding reports, and the UARTs. `call` is what it does for a size that it
accepts. -/
def setBufferBinding (b : Board) (id size : Nat) (call : Uarts → Bool × Uarts) (u : Uarts) :
    Option String × Uarts :=
  if !platformUartExists b.toConfig id then (some s!"uart {id} does not exist", u)
  else if size ≠ 0 ∧ size &&& (size - 1) ≠ 0 then
    (some "the buffer size must be a power of 2 or 0", u)
  else if size = 0 ∧ id ≥ SERMUX_SERVICE_ID_FIRST then
    (some "disabling buffers on virtual UARTs is not allowed", u)
  else
    let (failed, u) := call u
    (if failed then some "unable to set UART buffer" else none, u)

/-- `uart_set_buffer` for Lua. -/
def luaUartSetBuffer (b : Board) (id size : Nat) (w : World) : Uarts → Option String × Uarts :=
  setBufferBinding b id size fun u =>
    let (res, u) := platformUartSetBuffer b id (intlog2 size) w u
    (decide (res = PLATFORM_ERR), u)

/-- The call of the other two: the size is compared with `PLATFORM_ERR` inside the argument. -/
def comparedCall (b : Board) (id size : Nat) (w : World) (u : Uarts) : Bool × Uarts :=
  let (res, u) :=
    platformUartSetBuffer b id (if (intlog2 size : Int) = PLATFORM_ERR then 1 else 0) w u
  (decide (res ≠ 0), u)

/-- `plisp_uart_set_buffer`. -/
def plispUartSetBuffer (b : Board) (id size : Nat) (w : World) : Uarts → Option String × Uarts :=
  setBufferBinding b id size (comparedCall b id size w)

/-- `uart_set_buffer` for PicoC. -/
def picocUartSetBuffer (b : Board) (id size : Nat) (w : World) : Uarts → Option String × Uarts :=
  setBufferBinding b id size (comparedCall b id size w)

/-- Both leave the buffers in the same state, and report an error or not. -/
def SameEffect (r r' : Option String × Uarts) : Prop :=
  r.1.isSome = r'.1.isSome ∧ r.2.logsize = r'.2.logsize

/-- All three mean the same. -/
def SetsAsLua (b : Board) (id size : Nat) (w : World) (u : Uarts) : Prop :=
  SameEffect (plispUartSetBuffer b id size w u) (luaUartSetBuffer b id size w u) ∧
    SameEffect (picocUartSetBuffer b id size w u) (luaUartSetBuffer b id size w u)

/-- The condition. A virtual UART has a buffer of the size already, and a reallocation to it
succeeds; for a physical one it fails. Size 1 and, on a physical UART, 0 count as 2. -/
def SetsRight (b : Board) (id size : Nat) (w : World) (u : Uarts) : Prop :=
  (size = 0 ∧ id ≥ SERMUX_SERVICE_ID_FIRST) ∨
    (id ≠ b.sermuxPhysId ∧ b.bufEnableUart ∧
      if id ≥ SERMUX_SERVICE_ID_FIRST then w.realloc (max size 2) ∧ 2 ^ u.logsize id = max size 2
      else w.realloc (max size 2) = false)

end Alcor.Uart.Bindings
