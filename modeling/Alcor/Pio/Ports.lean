import Mathlib.Logic.Function.Basic

/-!
# `Alcor.Pio.Ports`: setting the value of a port

`src/modules/pio.c`. Lua has functions of its own; those of PicoC and
picoLisp are made by macros from one text. A port is named by a code, in
which the port number stands above the pin number. `platform_pio_op` writes
the mask as the whole value for `PLATFORM_IO_PORT_SET_VALUE`, and sets or clears the
pins of the mask for `PLATFORM_IO_PIN_SET` and `PLATFORM_IO_PIN_CLEAR`.
-/

set_option autoImplicit false

namespace Alcor.Pio

/-- `PLATFORM_IO_PORTS`. -/
def PLATFORM_IO_PORTS : Nat := 16

/-- `PLATFORM_IO_PINS_BITS`. -/
def PLATFORM_IO_PINS_BITS : Nat := 5

/-- `PLATFORM_IO_FULL_PORT_MASK`. -/
def PLATFORM_IO_FULL_PORT_MASK : Nat := 1 <<< 14

/-- `PLATFORM_IO_ALL_PINS`. -/
def PLATFORM_IO_ALL_PINS : BitVec 32 := 0xFFFFFFFF

/-- `PLATFORM_IO_ENCODE`. -/
def platformIoEncode (port pin : Nat) (full : Bool) : Nat :=
  port <<< PLATFORM_IO_PINS_BITS ||| pin ||| (if full then PLATFORM_IO_FULL_PORT_MASK else 0)

/-- `PLATFORM_IO_GET_PORT`. -/
def platformIoGetPort (code : Nat) : Nat := code >>> PLATFORM_IO_PINS_BITS &&& (1 <<< 4 - 1)

/-- `PLATFORM_IO_GET_PIN`. -/
def platformIoGetPin (code : Nat) : Nat := code &&& (1 <<< PLATFORM_IO_PINS_BITS - 1)

/-- `PLATFORM_IO_IS_PORT`. -/
def platformIoIsPort (code : Nat) : Bool := decide (code &&& PLATFORM_IO_FULL_PORT_MASK ≠ 0)

/-- The pins of a board. -/
structure Board where
  /-- `NUM_PIO`. -/
  numPio : Nat
  /-- The pins of each port. -/
  pins : Nat → Nat
  numPio_le : numPio ≤ PLATFORM_IO_PORTS

/-- `platform_pio_has_port`. -/
def platformPioHasPort (b : Board) (port : Nat) : Bool := decide (port < b.numPio)

/-- `platform_pio_has_pin`. -/
def platformPioHasPin (b : Board) (port pin : Nat) : Bool :=
  decide (port < b.numPio) && decide (pin < b.pins port)

/-- The operations that write. -/
inductive PioOp where
  | pinSet | pinClear | portSetValue
  deriving DecidableEq, Repr

/-- `PIO_PORT_OP` and `PIO_PIN_OP`. -/
inductive OpType where
  | port | pin
  deriving DecidableEq, Repr

/-- The output latches. -/
abbrev Latches := Nat → BitVec 32

/-- `platform_pio_op`. -/
def platformPioOp (port : Nat) (pinmask : BitVec 32) (op : PioOp) (l : Latches) : Latches :=
  Function.update l port
    (match op with
    | .pinSet       => l port ||| pinmask
    | .pinClear     => l port &&& ~~~pinmask
    | .portSetValue => pinmask)

/-! ### PicoC and picoLisp -/

/-- `emit_hfunc_set_pin`. -/
def piohSetPin (b : Board) (v : Nat) (op : PioOp) (l : Latches) : Except String Latches :=
  let port := platformIoGetPort v
  let pin := platformIoGetPin v
  if platformIoIsPort v || !platformPioHasPort b port || !platformPioHasPin b port pin then
    .error "invalid pin"
  else .ok (platformPioOp port (1#32 <<< pin) op l)

/-- `emit_hfunc_set_port`. The mask of ports has the one port. -/
def piohSetPort (b : Board) (v : Nat) (op : PioOp) (mask : BitVec 32) (l : Latches) :
    Except String Latches :=
  let port := platformIoGetPort v
  if !platformIoIsPort v || !platformPioHasPort b port then .error "invalid port"
  else .ok (platformPioOp port mask op l)

/-- `emit_hfunc_setval`. -/
def pioGenSetval (b : Board) (v : Nat) (optype : OpType) (val : BitVec 32) (l : Latches) :
    Except String Latches :=
  if optype = .pin ∧ val ≠ 1 ∧ val ≠ 0 then .error "invalid pin value"
  else
    let op := if val = 1 then .pinSet else .pinClear
    match optype with
    | .pin  => piohSetPin b v op l
    | .port => piohSetPort b v op val l

/-- `PIO_CHECK`, of what `pio_value_parse` gives for a name. -/
def pioCheck (ret : Nat) : Except String Unit :=
  if ret = 0 then .error "Invalid port/pin" else .ok ()

/-- `pio_port_setval` of PicoC and `plisp_pio_port_setval`. -/
def pioPortSetval (b : Board) (ret : Nat) (val : BitVec 32) (l : Latches) :
    Except String Latches := do
  pioCheck ret
  pioGenSetval b ret .port val l

/-- `pio_port_sethigh` of PicoC and `plisp_pio_port_sethigh`. -/
def pioPortSethigh (b : Board) (ret : Nat) (l : Latches) : Except String Latches := do
  pioCheck ret
  pioGenSetval b ret .port 1 l

/-- `pio_port_setlow` of PicoC and `plisp_pio_port_setlow`. -/
def pioPortSetlow (b : Board) (ret : Nat) (l : Latches) : Except String Latches := do
  pioCheck ret
  pioGenSetval b ret .port 0 l

namespace Lua

/-- The ports of the arguments of `pioh_set_ports`, as a mask. -/
def portMask (b : Board) : List Nat → Except String Nat
  | []      => .ok 0
  | v :: vs =>
    let port := platformIoGetPort v
    if !platformIoIsPort v || !platformPioHasPort b port then .error "invalid port"
    else (portMask b vs).map (1 <<< port ||| ·)

/-- `pioh_set_ports`. -/
def piohSetPorts (b : Board) (vs : List Nat) (op : PioOp) (mask : BitVec 32) (l : Latches) :
    Except String Latches := do
  let ports ← portMask b vs
  return (List.range PLATFORM_IO_PORTS).foldl
    (fun l i => if ports.testBit i then platformPioOp i mask op l else l) l

/-- `pio.port.setval`. -/
def pioPortSetval (b : Board) (val : BitVec 32) (vs : List Nat) (l : Latches) :
    Except String Latches :=
  piohSetPorts b vs .portSetValue val l

/-- `pio.port.sethigh`. -/
def pioPortSethigh (b : Board) (vs : List Nat) (l : Latches) : Except String Latches :=
  piohSetPorts b vs .portSetValue PLATFORM_IO_ALL_PINS l

/-- `pio.port.setlow`. -/
def pioPortSetlow (b : Board) (vs : List Nat) (l : Latches) : Except String Latches :=
  piohSetPorts b vs .portSetValue 0 l

end Lua

/-- What a program does to a port. -/
inductive PortOp where
  | setval (v : BitVec 32)
  | sethigh
  | setlow
  deriving DecidableEq, Repr

/-- By PicoC or picoLisp. -/
def PortOp.run (b : Board) (code : Nat) (l : Latches) : PortOp → Except String Latches
  | .setval v => pioPortSetval b code v l
  | .sethigh  => pioPortSethigh b code l
  | .setlow   => pioPortSetlow b code l

/-- By Lua. -/
def PortOp.runLua (b : Board) (code : Nat) (l : Latches) : PortOp → Except String Latches
  | .setval v => Lua.pioPortSetval b v [code] l
  | .sethigh  => Lua.pioPortSethigh b [code] l
  | .setlow   => Lua.pioPortSetlow b [code] l

/-- The value that the port should have. -/
def PortOp.value : PortOp → BitVec 32
  | .setval v => v
  | .sethigh  => BitVec.allOnes 32
  | .setlow   => 0

/-- Both leave the latches with this value at the port, and the others as they are. -/
def SetsAsLua (b : Board) (port : Nat) (op : PortOp) (l : Latches) : Prop :=
  let code := platformIoEncode port 0 true
  op.run b code l = op.runLua b code l ∧ op.runLua b code l = .ok (Function.update l port op.value)

/-- The condition on the operation and the latch. -/
def Settable (old : BitVec 32) : PortOp → Prop
  | .setval v => (v = 0 ∧ old = 0) ∨ (v = 1 ∧ (old = 0 ∨ old = 1))
  | .sethigh  => old = BitVec.allOnes 32 ∨ old = BitVec.allOnes 32 - 1
  | .setlow   => old = 0

end Alcor.Pio
