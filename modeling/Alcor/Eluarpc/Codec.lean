import Mathlib.Algebra.Ring.Nat
import Alcor.Lib.Cursor

/-!
# `Alcor.Eluarpc.Codec`: the packet codec

The functions of `src/eluarpc.c`, and the bytes of a packet.

* `eluarpcGenWrite`, `eluarpcGenRead`: a whole packet, with its start
  and its end.
* `wire`, `packetBody`: the bytes of items and of a packet, from what
  they are to say.
* `itemsOk`, `itemsValue`: the same from the other side, what bytes are
  read as.
-/

set_option autoImplicit false

/-!
## The packets of `src/eluarpc.c`

`eluarpc_gen_write` and `eluarpc_gen_read` interpret a format, a
string of specifiers, and take one or two arguments for each of them.
A specifier with the arguments it takes is an `Item` on the writing
side. On the reading side it is a `Specifier`, and `Specifier.Out` is
what is stored through its arguments.

The packet is an object of its own and pointers are offsets in it. An
access outside it is `none`. Nothing stops the reader at a wrong byte:
it sets `eluarpc_err_flag` and goes on. Words have 32 bits, pointers
too, as on every target of the code: the comparison with `~PACKET_SIG`
needs an `unsigned long` of 32 bits.
-/

namespace Alcor.Eluarpc

open Lib

/-! ### Constants -/

/-- The signature in the start of a packet; its complement is in the end. -/
def PACKET_SIG : UInt32 := 0x18AFC284

def TYPE_INT_8 : UInt8 := 0x01
def TYPE_INT_16 : UInt8 := 0x02
def TYPE_INT_32 : UInt8 := 0x03
def TYPE_PTR : UInt8 := 0x04
def TYPE_START : UInt8 := 0x05
def TYPE_END : UInt8 := 0x06
def TYPE_OP_ID : UInt8 := 0x07
def TYPE_SMALL_PTR : UInt8 := 0x08
def TYPE_PKT_SIZE : UInt8 := 0xA5

/-- The bit that makes an operation a response to it. -/
def ELUARPC_OP_RES_MOD : UInt8 := 0x80

def ELUARPC_START_OFFSET : Nat := 4
def ELUARPC_START_SIZE : Nat := 6
def ELUARPC_END_SIZE : Nat := 6
def ELUARPC_RESPONSE_SIZE : Nat := 1
def ELUARPC_PTR_HEADER_SIZE : Nat := 6
def ELUARPC_SMALL_PTR_HEADER_SIZE : Nat := 4
def ELUARPC_U32_SIZE : Nat := 5
def ELUARPC_OP_ID_SIZE : Nat := 2

/-- Where the data of a read response starts. -/
def ELUARPC_READ_BUF_OFFSET : Nat :=
  ELUARPC_START_OFFSET + ELUARPC_START_SIZE + ELUARPC_RESPONSE_SIZE + ELUARPC_PTR_HEADER_SIZE

/-- What a write request has besides its data. -/
def ELUARPC_WRITE_REQUEST_EXTRA : Nat :=
  ELUARPC_START_OFFSET + ELUARPC_START_SIZE + ELUARPC_OP_ID_SIZE + ELUARPC_U32_SIZE
    + ELUARPC_PTR_HEADER_SIZE + ELUARPC_END_SIZE

/-! ### Formats -/

/-- A specifier with its argument, as `eluarpc_gen_write` takes it. An integer is what the cast of
the specifier leaves of the argument. A pointer comes with the bytes that can be read behind it,
`none` for `NULL`. -/
inductive Item where
  | o (id : UInt8)
  | r (id : UInt8)
  | c (x : UInt8)
  | h (x : UInt16)
  | i (x : Int32)
  | l (x : UInt32)
  | L (x : Int32)
  | p (src : Option (List UInt8)) (len : UInt32)
  | P (src : Option (List UInt8)) (len : UInt16)
deriving DecidableEq

/-- A specifier as `eluarpc_gen_read` takes it, with the operation it expects. -/
inductive Specifier where
  | o (id : UInt8)
  | r (id : UInt8)
  | c | h | i | l | L | p | P
deriving DecidableEq

/-- What a specifier stores: a word, or a pointer into the packet (`none` for `NULL`) and a
length. -/
abbrev Specifier.Out : Specifier → Type
  | .o _ | .r _ => Unit
  | .c          => UInt8
  | .h          => UInt16
  | .l          => UInt32
  | .i | .L     => Int32
  | .p          => Option Nat × UInt32
  | .P          => Option Nat × UInt16

/-- What the specifiers of a format store. -/
abbrev Outs : List Specifier → Type
  | []        => Unit
  | s :: fmt  => s.Out × Outs fmt

/-- The matching specifier for reading. -/
def Item.specifier : Item → Specifier
  | .o id  => .o id
  | .r id  => .r id
  | .c _   => .c
  | .h _   => .h
  | .i _   => .i
  | .l _   => .l
  | .L _   => .L
  | .p _ _ => .p
  | .P _ _ => .P

/-! ### Serialization -/

def eluarpcWriteU8 (w : Writer) (fdata : UInt8) : Option Writer := w.put [TYPE_INT_8, fdata]

def eluarpcWriteOpId (w : Writer) (fdata : UInt8) : Option Writer := w.put [TYPE_OP_ID, fdata]

def eluarpcWriteU16 (w : Writer) (fdata : UInt16) : Option Writer :=
  w.put (TYPE_INT_16 :: leBytes 2 fdata.toNat)

def eluarpcWriteU32 (w : Writer) (fdata : UInt32) : Option Writer :=
  w.put (TYPE_INT_32 :: leBytes 4 fdata.toNat)

/-- `if( src ) memcpy( p, src, srclen ); return p + srclen;` It is `none` as well when fewer than
`srclen` bytes can be read at `src`. -/
def copyFrom (w : Writer) (src : Option (List UInt8)) (srclen : Nat) : Option Writer :=
  match src with
  | none    => some (w.skip srclen)
  | some bs => if srclen ≤ bs.length then w.put (bs.take srclen) else none

def eluarpcWritePtr (w : Writer) (src : Option (List UInt8)) (srclen : UInt32) : Option Writer := do
  let w ← w.put [TYPE_PTR]
  let w ← eluarpcWriteU32 w srclen
  copyFrom w src srclen.toNat

def eluarpcWriteSmallPtr (w : Writer) (src : Option (List UInt8)) (srclen : UInt16) :
    Option Writer := do
  let w ← w.put [TYPE_SMALL_PTR]
  let w ← eluarpcWriteU16 w srclen
  copyFrom w src srclen.toNat

/-- The start of a packet. The four bytes before it are left for the size. -/
def eluarpcStartPacket (buf : Buf) : Option Writer := do
  let w ← (Writer.mk buf ELUARPC_START_OFFSET).put [TYPE_START]
  eluarpcWriteU32 w PACKET_SIG

/-- The end of a packet, and the size in front of it. -/
def eluarpcEndPacket (w : Writer) : Option Buf := do
  let w ← w.put [TYPE_END]
  let w ← eluarpcWriteU32 w (~~~PACKET_SIG)
  let len := UInt16.ofNat w.p
  let w ← { w with p := 0 }.put [TYPE_PKT_SIZE]
  let w ← eluarpcWriteU16 w len
  return w.buf

/-- One round of the loop of `eluarpc_gen_write`. -/
def Item.write (w : Writer) : Item → Option Writer
  | .o id      => eluarpcWriteOpId w id
  | .r id      => w.put [ELUARPC_OP_RES_MOD ||| id]
  | .c x       => eluarpcWriteU8 w x
  | .h x       => eluarpcWriteU16 w x
  | .i x       => eluarpcWriteU32 w x.toUInt32
  | .l x       => eluarpcWriteU32 w x
  | .L x       => eluarpcWriteU32 w x.toUInt32
  | .p src len => eluarpcWritePtr w src len
  | .P src len => eluarpcWriteSmallPtr w src len

/-- The loop of `eluarpc_gen_write`. -/
def writeItems : List Item → Writer → Option Writer
  | [],          w => some w
  | it :: items, w => (it.write w).bind (writeItems items)

/-- Write a packet. -/
def eluarpcGenWrite (buf : Buf) (items : List Item) : Option Buf := do
  let w ← eluarpcStartPacket buf
  let w ← writeItems items w
  eluarpcEndPacket w

/-! ### Deserialization -/

def eluarpcReadU8 (b : Buf) (r : Reader) : Option (UInt8 × Reader) := do
  let r ← r.expect b TYPE_INT_8
  (r.take b 1).map fun (bs, r) => (UInt8.ofNat (leVal bs), r)

def eluarpcReadOpId (b : Buf) (r : Reader) : Option (UInt8 × Reader) := do
  let r ← r.expect b TYPE_OP_ID
  (r.take b 1).map fun (bs, r) => (UInt8.ofNat (leVal bs), r)

def eluarpcExpectOpId (b : Buf) (r : Reader) (id : UInt8) : Option Reader := do
  let r ← r.expect b TYPE_OP_ID
  r.expect b id

def eluarpcReadU16 (b : Buf) (r : Reader) : Option (UInt16 × Reader) := do
  let r ← r.expect b TYPE_INT_16
  (r.take b 2).map fun (bs, r) => (UInt16.ofNat (leVal bs), r)

def eluarpcReadU32 (b : Buf) (r : Reader) : Option (UInt32 × Reader) := do
  let r ← r.expect b TYPE_INT_32
  (r.take b 4).map fun (bs, r) => (UInt32.ofNat (leVal bs), r)

/-- `eluarpc_read_ptr`; its argument `src` is `NULL` in every call. -/
def eluarpcReadPtr (b : Buf) (r : Reader) : Option (UInt32 × Reader) := do
  let r ← r.expect b TYPE_PTR
  (eluarpcReadU32 b r).map fun (srclen, r) => (srclen, r.skip srclen.toNat)

/-- `eluarpc_read_small_ptr`; its argument `src` is `NULL` in every call. -/
def eluarpcReadSmallPtr (b : Buf) (r : Reader) : Option (UInt16 × Reader) := do
  let r ← r.expect b TYPE_SMALL_PTR
  (eluarpcReadU16 b r).map fun (srclen, r) => (srclen, r.skip srclen.toNat)

def eluarpcMatchPacketStart (b : Buf) (r : Reader) : Option Reader := do
  let r ← { r with p := r.p + ELUARPC_START_OFFSET }.expect b TYPE_START
  (eluarpcReadU32 b r).map fun (fdata, r) => { r with err := r.err || fdata != PACKET_SIG }

def eluarpcMatchPacketEnd (b : Buf) (r : Reader) : Option Reader := do
  let r ← r.expect b TYPE_END
  (eluarpcReadU32 b r).map fun (fdata, r) => { r with err := r.err || fdata != ~~~PACKET_SIG }

/-- One round of the loop of `eluarpc_gen_read`. A pointer is `NULL` when the reader has come no
further than the header. -/
def Specifier.read (b : Buf) (r : Reader) : (s : Specifier) → Option (s.Out × Reader)
  | .o id => (eluarpcExpectOpId b r id).map fun r => ((), r)
  | .r id => (r.expect b (ELUARPC_OP_RES_MOD ||| id)).map fun r => ((), r)
  | .c    => eluarpcReadU8 b r
  | .h    => eluarpcReadU16 b r
  | .l    => eluarpcReadU32 b r
  | .L    => (eluarpcReadU32 b r).map fun (temp32, r) => (temp32.toInt32, r)
  | .i    => (eluarpcReadU32 b r).map fun (temp32, r) => (temp32.toInt32, r)
  | .p    => (eluarpcReadPtr b r).map fun (temp32, r') =>
    let data := r.p + ELUARPC_PTR_HEADER_SIZE
    ((if r'.p = data then none else some data, temp32), r')
  | .P    => (eluarpcReadSmallPtr b r).map fun (temp16, r') =>
    let data := r.p + ELUARPC_SMALL_PTR_HEADER_SIZE
    ((if r'.p = data then none else some data, temp16), r')

/-- The loop of `eluarpc_gen_read`. -/
def readItems (b : Buf) : (fmt : List Specifier) → Reader → Option (Outs fmt × Reader)
  | [],       r => some ((), r)
  | s :: fmt, r => do
      let (v, r) ← s.read b r
      (readItems b fmt r).map fun (vs, r) => ((v, vs), r)

/-- `eluarpc_gen_read`, with the place where it stops. -/
def genReadTo (b : Buf) (fmt : List Specifier) : Option (Outs fmt × Reader) := do
  let r ← eluarpcMatchPacketStart b ⟨0, false⟩
  let (vs, r) ← readItems b fmt r
  (eluarpcMatchPacketEnd b r).map fun r => (vs, r)

/-- Read a packet: whether the result is `ELUARPC_ERR`, and what was stored. -/
def eluarpcGenRead (b : Buf) (fmt : List Specifier) : Option (Bool × Outs fmt) :=
  (genReadTo b fmt).map fun (vs, r) => (r.err, vs)

/-- Get the operation of a request: whether the result is `ELUARPC_ERR`, and the operation. -/
def eluarpcGetRequestId (b : Buf) : Option (Bool × UInt8) := do
  let r ← eluarpcMatchPacketStart b ⟨0, false⟩
  (eluarpcReadOpId b r).map fun (id, r) => (r.err, id)

/-- Get the size of a packet: whether the result is `ELUARPC_ERR`, and the size. -/
def eluarpcGetPacketSize (b : Buf) : Option (Bool × UInt16) := do
  let r ← Reader.expect b TYPE_PKT_SIZE ⟨0, false⟩
  (eluarpcReadU16 b r).map fun (psize, r) => (r.err, psize)

end Alcor.Eluarpc

/-!
## What a packet looks like

The layout of a packet as lists of bytes, without a writer or a
reader: four bytes with the size, the start, the items one after the
other, the end. `Item.wire` is the encoding of one item. An item whose
source is `NULL` leaves the bytes of its data as they are, so its
encoding depends on what is in the packet before.

For the reader there is the same layout seen from the bytes:
`Specifier.extent` is how far a specifier takes the reader from a
position, `Specifier.tagsOk` says that the bytes it checks are right,
and `Specifier.value` is what it stores.
-/

namespace Alcor.Eluarpc

open Lib

/-! ### From the items -/

/-- The bytes of a 32-bit word. -/
def wordBytes (x : UInt32) : List UInt8 := TYPE_INT_32 :: leBytes 4 x.toNat

/-- The bytes of a 16-bit word. -/
def halfBytes (x : UInt16) : List UInt8 := TYPE_INT_16 :: leBytes 2 x.toNat

/-- The start of a packet, behind the size. -/
def startBytes : List UInt8 := TYPE_START :: wordBytes PACKET_SIG

/-- The end of a packet. -/
def endBytes : List UInt8 := TYPE_END :: wordBytes (~~~PACKET_SIG)

/-- The size in front of a packet of `n` bytes. -/
def sizeBytes (n : Nat) : List UInt8 := TYPE_PKT_SIZE :: halfBytes (UInt16.ofNat n)

/-- The data of a pointer item: the bytes behind the source, or for `NULL` those at `a` in `m`. -/
def dataBytes (m : Mem) (a : Nat) (src : Option (List UInt8)) (n : Nat) : List UInt8 :=
  match src with
  | none    => m.read a n
  | some bs => bs.take n

/-- At least `n` bytes can be read behind a source that is not `NULL`. -/
def Readable (src : Option (List UInt8)) (n : Nat) : Prop := ∀ bs ∈ src, n ≤ bs.length

namespace Item

/-- The sources of the item can be read. -/
def Sourced : Item → Prop
  | .p src len => Readable src len.toNat
  | .P src len => Readable src len.toNat
  | _          => True

/-- The number of bytes of an item. -/
def size : Item → Nat
  | .r _               => 1
  | .o _ | .c _        => 2
  | .h _               => 3
  | .i _ | .l _ | .L _ => 5
  | .p _ len           => ELUARPC_PTR_HEADER_SIZE + len.toNat
  | .P _ len           => ELUARPC_SMALL_PTR_HEADER_SIZE + len.toNat

/-- The bytes of an item at `a`, over what is in `m`. -/
def wire (m : Mem) (a : Nat) : Item → List UInt8
  | .o id      => [TYPE_OP_ID, id]
  | .r id      => [ELUARPC_OP_RES_MOD ||| id]
  | .c x       => [TYPE_INT_8, x]
  | .h x       => halfBytes x
  | .i x       => wordBytes x.toUInt32
  | .l x       => wordBytes x
  | .L x       => wordBytes x.toUInt32
  | .p src len =>
    TYPE_PTR :: wordBytes len ++ dataBytes m (a + ELUARPC_PTR_HEADER_SIZE) src len.toNat
  | .P src len =>
    TYPE_SMALL_PTR :: halfBytes len
      ++ dataBytes m (a + ELUARPC_SMALL_PTR_HEADER_SIZE) src len.toNat

end Item

/-- The number of bytes of the items. -/
def itemsSize (items : List Item) : Nat := (items.map Item.size).sum

/-- The bytes of the items from `a` on. -/
def itemsWire (m : Mem) : Nat → List Item → List UInt8
  | _, []          => []
  | a, it :: items => it.wire m a ++ itemsWire m (a + it.size) items

/-- Where the first item starts. -/
def ITEMS_OFFSET : Nat := ELUARPC_START_OFFSET + ELUARPC_START_SIZE

/-- The number of bytes of a packet. -/
def packetSize (items : List Item) : Nat := ITEMS_OFFSET + itemsSize items + ELUARPC_END_SIZE

/-- The bytes of a packet behind the size. -/
def packetBody (m : Mem) (items : List Item) : List UInt8 :=
  startBytes ++ itemsWire m ITEMS_OFFSET items ++ endBytes

/-! ### From the bytes -/

namespace Specifier

/-- The number of bytes that are read in any case. -/
def header : Specifier → Nat
  | .r _         => 1
  | .o _ | .c    => 2
  | .h           => 3
  | .i | .l | .L => 5
  | .p           => ELUARPC_PTR_HEADER_SIZE
  | .P           => ELUARPC_SMALL_PTR_HEADER_SIZE

/-- The length in the header of a pointer at `a`. -/
def dataLength (m : Mem) (a : Nat) : Specifier → Nat
  | .p => leVal (m.read (a + 2) 4)
  | .P => leVal (m.read (a + 2) 2)
  | _  => 0

/-- How far the specifier takes the reader from `a`. -/
def extent (m : Mem) (a : Nat) (s : Specifier) : Nat := s.header + s.dataLength m a

/-- The bytes that are checked at `a` are right. -/
def tagsOk (m : Mem) (a : Nat) : Specifier → Bool
  | .o id        => m a == TYPE_OP_ID && m (a + 1) == id
  | .r id        => m a == ELUARPC_OP_RES_MOD ||| id
  | .c           => m a == TYPE_INT_8
  | .h           => m a == TYPE_INT_16
  | .i | .l | .L => m a == TYPE_INT_32
  | .p           => m a == TYPE_PTR && m (a + 1) == TYPE_INT_32
  | .P           => m a == TYPE_SMALL_PTR && m (a + 1) == TYPE_INT_16

/-- What is stored for the bytes at `a`. -/
def value (m : Mem) (a : Nat) : (s : Specifier) → s.Out
  | .o _ => ()
  | .r _ => ()
  | .c   => m (a + 1)
  | .h   => UInt16.ofNat (leVal (m.read (a + 1) 2))
  | .l   => UInt32.ofNat (leVal (m.read (a + 1) 4))
  | .i   => (UInt32.ofNat (leVal (m.read (a + 1) 4))).toInt32
  | .L   => (UInt32.ofNat (leVal (m.read (a + 1) 4))).toInt32
  | .p   =>
    let len := leVal (m.read (a + 2) 4)
    (if len = 0 then none else some (a + ELUARPC_PTR_HEADER_SIZE), UInt32.ofNat len)
  | .P   =>
    let len := leVal (m.read (a + 2) 2)
    (if len = 0 then none else some (a + ELUARPC_SMALL_PTR_HEADER_SIZE), UInt16.ofNat len)

end Specifier

/-- The bytes at `a` are those of the start of a packet, or of its end. -/
def markOk (m : Mem) (a : Nat) (tag : UInt8) (sig : UInt32) : Bool :=
  m a == tag && m (a + 1) == TYPE_INT_32 && UInt32.ofNat (leVal (m.read (a + 2) 4)) == sig

/-- The loop of the reader stays in the first `n` bytes. -/
def Inside (m : Mem) (n : Nat) : List Specifier → Nat → Prop
  | [],       a => a + ELUARPC_END_SIZE ≤ n
  | s :: fmt, a => a + s.header ≤ n ∧ Inside m n fmt (u32 (a + s.extent m a))

instance decidableInside (m : Mem) (n : Nat) :
    (fmt : List Specifier) → (a : Nat) → Decidable (Inside m n fmt a)
  | [],       a => inferInstanceAs (Decidable (a + ELUARPC_END_SIZE ≤ n))
  | s :: fmt, a =>
    have := decidableInside m n fmt (u32 (a + s.extent m a))
    inferInstanceAs (Decidable (a + s.header ≤ n ∧ Inside m n fmt (u32 (a + s.extent m a))))

/-- All bytes that the loop of the reader checks are right, those of the end included. -/
def itemsOk (m : Mem) : List Specifier → Nat → Bool
  | [],       a => markOk m a TYPE_END (~~~PACKET_SIG)
  | s :: fmt, a => s.tagsOk m a && itemsOk m fmt (u32 (a + s.extent m a))

/-- What the loop of the reader stores. -/
def itemsValue (m : Mem) : (fmt : List Specifier) → Nat → Outs fmt
  | [],       _ => ()
  | s :: fmt, a => (s.value m a, itemsValue m fmt (u32 (a + s.extent m a)))

/-- Where the loop of the reader ends, behind the end of the packet. -/
def itemsEnd (m : Mem) : List Specifier → Nat → Nat
  | [],       a => a + ELUARPC_END_SIZE
  | s :: fmt, a => itemsEnd m fmt (u32 (a + s.extent m a))

end Alcor.Eluarpc
