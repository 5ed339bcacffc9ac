import Mathlib.Data.Fintype.Basic
import Alcor.Lib.Stream
import Alcor.Lib.Run

/-!
# `Alcor.Sermux.Ends`: the serial multiplexer

The two ends of the serial multiplexer, the board's in
`src/common_uart.c` and the host's in `mux_src/main.c`, and the line
between them.

* `cmnRxHandler`, `platformUartSend`: the board.
* `hostTransport`, `hostService`: the host.
* `hostLoop`, `Routes`: any bytes from the transport, with services that
  send in between.
* `Link`: both ends and the line to the board, with resets; `Faithful`
  is what the link is for.
-/

set_option autoImplicit false

/-!
## The two ends of the serial multiplexer

The board's end is `platform_uart_send` and `cmn_rx_handler` of
`src/common_uart.c`, the host's end the main loop of
`mux_src/main.c`. One serial line carries several services. A byte
from 0xD0 to 0xD7 selects the service of the bytes behind it, 0xFF
asks the other end to repeat its service id and its last byte, and a
payload byte that looks like one of these is sent behind the escape
byte 0xC0, with bit 5 flipped.

Both ends remember the last byte they sent in an `int`: −1 for none,
else the byte with `SERMUX_ESC_MASK` when it went out escaped. Here
this is an `Option LastSent`, and a service id that is −1 in the
source is `none`.
-/

namespace Alcor.Sermux

def SERMUX_SERVICE_ID_FIRST : UInt8 := 0xD0
def SERMUX_SERVICE_ID_LAST : UInt8 := 0xD7
/-- `SERMUX_SERVICE_ID_LAST - SERMUX_SERVICE_ID_FIRST + 1`. -/
def SERMUX_SERVICE_MAX : Nat := 8
def SERMUX_ESCAPE_CHAR : UInt8 := 0xC0
def SERMUX_FORCE_SID_CHAR : UInt8 := 0xFF
def SERMUX_ESCAPE_XOR_MASK : UInt8 := 0x20

/-- The last byte sent, and whether it went out behind an escape byte. -/
structure LastSent where
  /-- `SERMUX_ESC_MASK`. -/
  esc : Bool
  /-- The byte as it went out. -/
  data : UInt8
  deriving DecidableEq, Repr

/-- What an end does about a byte: send bytes on the line, or hand a byte to a service. -/
inductive Output (δ : Type) where
  | send (data : UInt8)
  | deliver (service : δ) (data : UInt8)
  deriving DecidableEq, Repr

/-- The condition of both encoders for an escape. -/
def needsEscape (data : UInt8) : Bool :=
  data == SERMUX_ESCAPE_CHAR || data == SERMUX_FORCE_SID_CHAR ||
    (SERMUX_SERVICE_ID_FIRST ≤ data && data ≤ SERMUX_SERVICE_ID_LAST)

/-- A payload byte on the line. -/
def payload (data : UInt8) : List UInt8 :=
  if needsEscape data then [SERMUX_ESCAPE_CHAR, data ^^^ SERMUX_ESCAPE_XOR_MASK] else [data]

/-- What the encoders remember of a payload byte. -/
def lastSentOf (data : UInt8) : LastSent :=
  if needsEscape data then ⟨true, data ^^^ SERMUX_ESCAPE_XOR_MASK⟩ else ⟨false, data⟩

/-- The answer to a request: the service id and the last byte again. -/
def retransmit (sid : UInt8) (last : LastSent) : List UInt8 :=
  sid :: if last.esc then [SERMUX_ESCAPE_CHAR, last.data] else [last.data]

/-! ### Configuration -/

/-- How the two ends are built and started. -/
structure Config where
  /-- `SERMUX_NUM_VUART` of the board. -/
  numVuart : Nat
  /-- Service ports given to the multiplexer. -/
  vportNum : Nat
  /-- Whether it runs in `rfsmux` mode. -/
  rfsmux : Bool
  /-- "This number can't be higher than 8" (doc/en/sermux.txt). -/
  numVuart_le : numVuart ≤ SERMUX_SERVICE_MAX
  /-- Checked at the start of the multiplexer. -/
  vportNum_le : vportNum ≤ SERMUX_SERVICE_MAX

/-- `service_offset`: in `rfsmux` mode the first service is the RFS server. -/
def Config.serviceOffset (cfg : Config) : Nat := if cfg.rfsmux then 1 else 0

/-- Whether a byte or an id is one of the board's virtual UARTs. -/
def isVuart (numVuart : Nat) (id : UInt8) : Bool :=
  SERMUX_SERVICE_ID_FIRST ≤ id && id.toNat < SERMUX_SERVICE_ID_FIRST.toNat + numVuart

/-! ### The board -/

/-- The board's variables. -/
structure Board where
  /-- `uart_service_id_in`. -/
  serviceIdIn : Option UInt8 := none
  /-- `uart_service_id_out`. -/
  serviceIdOut : Option UInt8 := none
  /-- `uart_got_esc`. -/
  gotEsc : Bool := false
  /-- `uart_last_sent`. -/
  lastSent : Option LastSent := none
  deriving DecidableEq, Repr

/-- `cmn_rx_handler`: the interrupt handler for a byte on the line. A byte is delivered by
`buf_write` to the buffer of the virtual UART. -/
def cmnRxHandler (numVuart : Nat) (b : Board) (data : UInt8) : Board × List (Output UInt8) :=
  if data ≠ SERMUX_ESCAPE_CHAR then
    if isVuart numVuart data then
      ({ b with serviceIdIn := some data }, [])
    else match decide (data = SERMUX_FORCE_SID_CHAR), b.lastSent with
      | true, some last =>
        -- inside the first `platform_uart_send` the service id is still −1, and goes out as 0xFF
        ({ b with lastSent := none },
          (retransmit (b.serviceIdOut.getD 0xFF) last).map .send)
      | _, _ =>
        -- a request lands here, too, when nothing is remembered
        let c := if b.gotEsc then data ^^^ SERMUX_ESCAPE_XOR_MASK else data
        let b := { b with gotEsc := false }
        match b.serviceIdIn with
        | none     => (b, [.send SERMUX_FORCE_SID_CHAR])
        | some sid => (b, [.deliver sid c])
  else
    ({ b with gotEsc := true }, [])

/-- The single steps of `platform_uart_send`, between which the handler may run. -/
inductive SendStep where
  | send (data : UInt8)
  | lastSent (last : LastSent)
  | serviceIdOut (id : UInt8)
  deriving DecidableEq, Repr

/-- `platform_uart_send` to a virtual UART. To any other unit it sends nothing on this line. -/
def platformUartSend (numVuart : Nat) (b : Board) (id data : UInt8) : List SendStep :=
  if isVuart numVuart id then
    (if b.serviceIdOut ≠ some id then [.send id] else []) ++
    [.lastSent ⟨false, data⟩] ++
    (payload data).map .send ++
    (if needsEscape data then [.lastSent ⟨true, data ^^^ SERMUX_ESCAPE_XOR_MASK⟩] else []) ++
    [.serviceIdOut id]
  else []

/-- One step of `platform_uart_send`. -/
def Board.sendStep (b : Board) : SendStep → Board × List UInt8
  | .send data       => (b, [data])
  | .lastSent last   => ({ b with lastSent := some last }, [])
  | .serviceIdOut id => ({ b with serviceIdOut := some id }, [])

/-- All steps of a `platform_uart_send` that nothing interrupts. -/
def Board.sendSteps : Board → List SendStep → Board × List UInt8
  | b, []      => (b, [])
  | b, s :: ss =>
    let (b₁, bs) := b.sendStep s
    let (b₂, rest) := b₁.sendSteps ss
    (b₂, bs ++ rest)

/-! ### The host -/

/-- Where the multiplexer takes a service's bytes from and where it puts them. -/
inductive Endpoint where
  | rfs
  | port (i : Nat)
  deriving DecidableEq, Repr

/-- The service id of an endpoint: `temp` in the main loop. -/
def serviceId (cfg : Config) : Endpoint → UInt8
  | .rfs    => SERMUX_SERVICE_ID_FIRST
  | .port i => UInt8.ofNat (SERMUX_SERVICE_ID_FIRST.toNat + i + cfg.serviceOffset)

/-- The endpoint of a service id: the RFS server if it is `rfs_service_id`, else the port at
`service_id_in - SERMUX_SERVICE_ID_FIRST - service_offset`. -/
def endpoint (cfg : Config) (sid : UInt8) : Endpoint :=
  if cfg.rfsmux ∧ sid = SERMUX_SERVICE_ID_FIRST then .rfs
  else .port (sid.toNat - SERMUX_SERVICE_ID_FIRST.toNat - cfg.serviceOffset)

/-- The host's variables. -/
structure Host where
  /-- `service_id_in`. -/
  serviceIdIn : Option UInt8 := none
  /-- `service_id_out`. -/
  serviceIdOut : Option UInt8 := none
  /-- `got_esc`. -/
  gotEsc : Bool := false
  /-- `prev_sent`. -/
  prevSent : Option LastSent := none
  deriving DecidableEq, Repr

/-- The main loop for a byte from the transport. A protocol error ends the program. -/
def hostTransport (cfg : Config) (h : Host) (c : UInt8) :
    Option (Host × List (Output Endpoint)) :=
  if c ≠ SERMUX_ESCAPE_CHAR then
    if SERMUX_SERVICE_ID_FIRST ≤ c ∧ c ≤ SERMUX_SERVICE_ID_LAST then
      some ({ h with serviceIdIn := some c }, [])
    else if c = SERMUX_FORCE_SID_CHAR then
      match h.prevSent with
      | none      => none
      | some last =>
        some ({ h with prevSent := none },
          (retransmit (h.serviceIdOut.getD 0xFF) last).map .send)
    else
      -- only a byte that needs an escape may stand behind one
      let c' := if h.gotEsc then c ^^^ SERMUX_ESCAPE_XOR_MASK else c
      if h.gotEsc ∧ ¬ needsEscape c' then none
      else
        let h := { h with gotEsc := false }
        match h.serviceIdIn with
        | none     => some (h, [.send SERMUX_FORCE_SID_CHAR])
        | some sid => some (h, [.deliver (endpoint cfg sid) c'])
  else
    some ({ h with gotEsc := true }, [])

/-- The main loop for a byte from a service. -/
def hostService (cfg : Config) (h : Host) (e : Endpoint) (c : UInt8) : Host × List UInt8 :=
  let temp := serviceId cfg e
  ({ h with prevSent := some (lastSentOf c), serviceIdOut := some temp },
    (if h.serviceIdOut ≠ some temp then [temp] else []) ++ payload c)

/-! ### The services both ends know -/

/-- A virtual service: the `index`-th virtual UART of the board, for which the multiplexer
has a port (or which is its RFS server). -/
structure Service (cfg : Config) where
  /-- Counted from the first service. -/
  index : Nat
  lt_vuart : index < cfg.numVuart
  lt_port : index < cfg.vportNum + cfg.serviceOffset
  deriving DecidableEq

/-- Its service id. -/
def Service.id {cfg : Config} (k : Service cfg) : UInt8 :=
  UInt8.ofNat (SERMUX_SERVICE_ID_FIRST.toNat + k.index)

/-- Its endpoint on the host. -/
def Service.endpoint {cfg : Config} (k : Service cfg) : Endpoint :=
  if cfg.rfsmux ∧ k.index = 0 then .rfs else .port (k.index - cfg.serviceOffset)

/-! ### The table of services of the multiplexer

The main loop of `mux_src/main.c` over the bytes that reach it, from
the transport and from the services in any order, and the table
`services` that it indexes with what it has read from the transport.
-/

section Services
open Lib.Stream

/-- A byte that reaches the main loop. -/
inductive Input where
  /-- From the transport. -/
  | transport (c : UInt8)
  /-- From a service. -/
  | service (e : Endpoint) (c : UInt8)
  deriving DecidableEq, Repr

/-- One pass of the main loop. -/
def hostLoop (cfg : Config) (h : Host) : Input → Option (Host × List (Output Endpoint))
  | .transport c => hostTransport cfg h c
  | .service e c =>
    let (h', bytes) := hostService cfg h e c
    some (h', bytes.map .send)

/-- The endpoint is the RFS server or an entry of `services`. -/
def InTable (cfg : Config) : Endpoint → Prop
  | .rfs    => cfg.rfsmux = true
  | .port i => i < cfg.vportNum

instance (cfg : Config) (e : Endpoint) : Decidable (InTable cfg e) := by
  cases e with
  | rfs => exact inferInstanceAs (Decidable (cfg.rfsmux = true))
  | port i => exact inferInstanceAs (Decidable (i < cfg.vportNum))

/-- What a pass does stays inside the table. -/
def Output.InTable (cfg : Config) : Output Endpoint → Prop
  | .send _      => True
  | .deliver e _ => Sermux.InTable cfg e

/-- A service id that the multiplexer has a service for. -/
def Known (cfg : Config) (sid : UInt8) : Prop :=
  SERMUX_SERVICE_ID_FIRST ≤ sid ∧ sid ≤ SERMUX_SERVICE_ID_LAST ∧ InTable cfg (endpoint cfg sid)

/-- The main loop over these inputs stays inside the table, and afterwards a known service id and a
byte behind it are routed to the service. -/
def Routes (cfg : Config) (h : Host) (inputs : List Input) : Prop :=
  ∃ h' outs, feed (hostLoop cfg) h inputs = some (h', outs) ∧ (∀ o ∈ outs, o.InTable cfg) ∧
    ∀ sid, Known cfg sid → ∀ c : UInt8, ∃ h'',
      feed (hostTransport cfg) h' (sid :: payload c) = some (h'', [.deliver (endpoint cfg sid) c])

/-! #### What goes wrong -/

/-- A pass that does no harm. A request finds a byte to repeat; a payload byte behind an escape byte
is one that had to be escaped; and a payload byte that is handed to a service finds the service in
the table. -/
def Sane (cfg : Config) (h : Host) : Input → Prop
  | .service _ _ => True
  | .transport c =>
    (c = SERMUX_FORCE_SID_CHAR → h.prevSent ≠ none) ∧
      (needsEscape c = false →
        (h.gotEsc = true → needsEscape (c ^^^ SERMUX_ESCAPE_XOR_MASK) = true) ∧
          ∀ sid, h.serviceIdIn = some sid → InTable cfg (endpoint cfg sid))

/-- No pass over the inputs does harm, and no escape is open at the end (or there is no service that
could miss the byte behind it). -/
def SaneRun (cfg : Config) : Host → List Input → Prop
  | h, []           => h.gotEsc = false ∨ ∀ sid, ¬ Known cfg sid
  | h, inp :: inputs =>
    Sane cfg h inp ∧ ∀ h' outs, hostLoop cfg h inp = some (h', outs) → SaneRun cfg h' inputs

end Services

end Alcor.Sermux

/-!
## The two ends on one line

The board and the host with the bytes under way between them. Each
direction is a queue. The host's main loop takes one byte after the
other. On the board `platform_uart_send` runs step by step, and the
interrupt handler may take a byte between any two of its steps.

Besides the traffic of a running system there are the events that make
the ends lose their common state: either end may start afresh (the
host then drains its input, the board loses some of the bytes that
reach it), and either end may ask for a retransmission at any time.

For what is delivered where it comes from, the model numbers the
payload bytes the host sends. A byte on the line that stands for the
payload of a send carries its number, and a delivery keeps the number
of the byte it comes from. The code does not see the numbers.
-/

namespace Alcor.Sermux

/-- A byte on its way to the board. -/
structure Item where
  /-- The byte. -/
  byte : UInt8
  /-- The send whose payload it completes. -/
  origin : Option Nat
  deriving DecidableEq, Repr

/-- A byte handed to the buffer of a virtual UART. -/
structure Delivery where
  /-- The virtual UART. -/
  service : UInt8
  /-- The byte. -/
  data : UInt8
  /-- The send it stands for. -/
  origin : Option Nat
  deriving DecidableEq, Repr

/-- Bytes of which the last completes the payload of `origin`. -/
def itemsOf (origin : Option Nat) : List UInt8 → List Item
  | []      => []
  | [c]     => [⟨c, origin⟩]
  | c :: cs => ⟨c, none⟩ :: itemsOf origin cs

/-- The two ends and the line. -/
structure Link where
  /-- The multiplexer, `none` after a protocol error. -/
  host : Option Host := some {}
  /-- The board. -/
  board : Board := {}
  /-- What is left of a running `platform_uart_send`. -/
  task : List SendStep := []
  /-- Bytes on their way to the board. -/
  toBoard : List Item := []
  /-- Bytes on their way to the host. -/
  toHost : List UInt8 := []
  /-- The payload bytes the host has sent, each with its service id. -/
  sent : List (UInt8 × UInt8) := []
  /-- The number of the send that `prev_sent` stands for. -/
  prevOrigin : Option Nat := none
  /-- What the board has delivered. -/
  delivered : List Delivery := []
  deriving DecidableEq

/-- What can happen next. -/
inductive Event (cfg : Config) where
  /-- The host sends a payload byte of a service. -/
  | hostSend (k : Service cfg) (c : UInt8)
  /-- The host asks for a retransmission. -/
  | hostRequest
  /-- The host takes a byte from the line. -/
  | toHost
  /-- The multiplexer is started again. -/
  | hostRestart
  /-- The board calls `platform_uart_send`. -/
  | boardCall (id data : UInt8)
  /-- The board goes on with the call. -/
  | boardStep
  /-- The board asks for a retransmission. -/
  | boardRequest
  /-- The handler takes a byte from the line. -/
  | toBoard
  /-- The board is reset, and loses the first bytes on the line. -/
  | boardReset (lost : Nat)

/-- The bytes an end sends in answer to a byte. -/
def sends {δ : Type} (outs : List (Output δ)) : List UInt8 :=
  outs.filterMap fun
    | .send c      => some c
    | .deliver _ _ => none

/-- The deliveries of the board in answer to a byte. -/
def deliveries (origin : Option Nat) (outs : List (Output UInt8)) : List Delivery :=
  outs.filterMap fun
    | .send _        => none
    | .deliver sid c => some ⟨sid, c, origin⟩

/-- One event; `none` if it cannot happen. -/
def Link.step (cfg : Config) (s : Link) : Event cfg → Option Link
  | .hostSend k c =>
    s.host.map fun h =>
      let (h', bytes) := hostService cfg h k.endpoint c
      { s with
        host := some h'
        toBoard := s.toBoard ++ itemsOf (some s.sent.length) bytes
        sent := s.sent ++ [(k.id, c)]
        prevOrigin := some s.sent.length }
  | .hostRequest =>
    s.host.map fun _ =>
      { s with toBoard := s.toBoard ++ itemsOf none [SERMUX_FORCE_SID_CHAR] }
  | .toHost =>
    match s.host, s.toHost with
    | some h, c :: rest =>
      match hostTransport cfg h c with
      | none            => some { s with host := none, toHost := rest }
      | some (h', outs) =>
        -- only the answer to a request repeats a payload byte
        let origin := if c = SERMUX_FORCE_SID_CHAR then s.prevOrigin else none
        some { s with
          host := some h'
          toHost := rest
          toBoard := s.toBoard ++ itemsOf origin (sends outs) }
    | _, _ => none
  | .hostRestart => some { s with host := some {}, toHost := [] }
  | .boardCall id data =>
    if s.task = [] then
      some { s with task := platformUartSend cfg.numVuart s.board id data }
    else none
  | .boardStep =>
    match s.task with
    | []         => none
    | op :: rest =>
      let (b', bytes) := s.board.sendStep op
      some { s with board := b', task := rest, toHost := s.toHost ++ bytes }
  | .boardRequest => some { s with toHost := s.toHost ++ [SERMUX_FORCE_SID_CHAR] }
  | .toBoard =>
    match s.toBoard with
    | []        => none
    | i :: rest =>
      let (b', outs) := cmnRxHandler cfg.numVuart s.board i.byte
      some { s with
        board := b'
        toBoard := rest
        toHost := s.toHost ++ sends outs
        delivered := s.delivered ++ deliveries i.origin outs }
  | .boardReset lost =>
    some { s with board := {}, task := [], toBoard := s.toBoard.drop lost }

/-! ### What the link is for -/

/-- A delivery is a byte the host sent to this virtual UART. -/
def Delivery.Genuine (sent : List (UInt8 × UInt8)) (d : Delivery) : Prop :=
  ∃ n, d.origin = some n ∧ sent[n]? = some (d.service, d.data)

instance (sent : List (UInt8 × UInt8)) (d : Delivery) : Decidable (d.Genuine sent) :=
  inferInstanceAs (Decidable (∃ n ∈ d.origin, sent[n]? = some (d.service, d.data)))

/-- No delivery is invented, and none repeats a send. -/
def Link.Faithful (s : Link) : Prop :=
  (∀ d ∈ s.delivered, d.Genuine s.sent) ∧ (s.delivered.map (·.origin)).Nodup

instance (s : Link) : Decidable s.Faithful :=
  inferInstanceAs (Decidable (_ ∧ _))

/-- The sends whose payload is on the line and will be taken: all, if the board knows the
service, else those behind a service id. -/
def awaited (numVuart : Nat) (serviceIdIn : Option UInt8) (line : List Item) : List Nat :=
  match serviceIdIn with
  | some _ => line.filterMap (·.origin)
  | none   => (line.dropWhile fun i => ! isVuart numVuart i.byte).filterMap (·.origin)

/-- The condition on a step under which a request does no harm. At the board: it remembers a
byte to answer with, or knows no service to deliver the request to. At the host: the byte it
will repeat has not been delivered, and no copy of it on the line will be. -/
def Link.Harmless {cfg : Config} (s : Link) : Event cfg → Prop
  | .toBoard =>
    s.toBoard.head?.map (·.byte) = some SERMUX_FORCE_SID_CHAR →
      s.board.lastSent ≠ none ∨ s.board.serviceIdIn = none
  | .toHost =>
    s.toHost.head? = some SERMUX_FORCE_SID_CHAR →
      ∀ h ∈ s.host, h.prevSent ≠ none → ∀ n ∈ s.prevOrigin,
        some n ∉ s.delivered.map (·.origin) ∧
          n ∉ awaited cfg.numVuart s.board.serviceIdIn s.toBoard
  | _ => True

instance {cfg : Config} (s : Link) (e : Event cfg) : Decidable (s.Harmless e) := by
  cases e <;> dsimp only [Link.Harmless] <;> infer_instance

end Alcor.Sermux
