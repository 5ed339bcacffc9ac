import Alcor.Eluarpc.Codec

/-!
# `Alcor.Proofs.Eluarpc.Packets`: packets are read and written

Equations for the two interpreters of a format.

* `Specifier.read_eq` is one round of `eluarpc_gen_read` and
  `genReadTo_eq` a whole call: an access outside the object, or the
  values and the flag for an error. Neither has a test of the length of
  a pointer.
* `Item.write_eq` is one round of `eluarpc_gen_write`, and `genWrite_eq`
  a whole packet as one list of bytes.
* `genReadTo_congr` and `wire_congr` are the frame lemmas, and
  `packetSize_le_of_genWrite` says that a packet needs its room.
-/

set_option autoImplicit false

/-!
## What the reader does on any bytes

`Specifier.read_eq` describes one round of the loop of
`eluarpc_gen_read`: the reader needs the bytes of the header, stores
what they say, notes whether they are right, and goes on behind the
data. `genReadTo_eq` describes a whole call in the same way, and what
it needs.

Nothing here asks for a well-formed packet.
-/

namespace Alcor.Proofs.Eluarpc

open Lib
open Alcor.Eluarpc

/-! ### Words -/

theorem reads_u8 (b : Buf) : Reader.Reads b 2 (fun a => b.mem (a + 1))
    (fun a => b.mem a == TYPE_INT_8) (eluarpcReadU8 b) := by
  refine (((Reader.reads_take b 1).map fun bs => UInt8.ofNat (leVal bs)).expect
    TYPE_INT_8).congr (fun a => ?_) fun a => Bool.and_true _
  simp [Mem.read, leVal]

theorem reads_opId (b : Buf) : Reader.Reads b 2 (fun a => b.mem (a + 1))
    (fun a => b.mem a == TYPE_OP_ID) (eluarpcReadOpId b) := by
  refine (((Reader.reads_take b 1).map fun bs => UInt8.ofNat (leVal bs)).expect
    TYPE_OP_ID).congr (fun a => ?_) fun a => Bool.and_true _
  simp [Mem.read, leVal]

theorem reads_u16 (b : Buf) :
    Reader.Reads b 3 (fun a => UInt16.ofNat (leVal (b.mem.read (a + 1) 2)))
      (fun a => b.mem a == TYPE_INT_16) (eluarpcReadU16 b) :=
  (((Reader.reads_take b 2).map fun bs => UInt16.ofNat (leVal bs)).expect
    TYPE_INT_16).congr (fun _ => rfl) fun _ => Bool.and_true _

theorem reads_u32 (b : Buf) :
    Reader.Reads b 5 (fun a => UInt32.ofNat (leVal (b.mem.read (a + 1) 4)))
      (fun a => b.mem a == TYPE_INT_32) (eluarpcReadU32 b) :=
  (((Reader.reads_take b 4).map fun bs => UInt32.ofNat (leVal bs)).expect
    TYPE_INT_32).congr (fun _ => rfl) fun _ => Bool.and_true _

/-! ### The start and the end -/

theorem matchPacketStart_eq (b : Buf) (err : Bool) : eluarpcMatchPacketStart b ⟨0, err⟩
    = if ITEMS_OFFSET ≤ b.size then
        some ⟨ITEMS_OFFSET, err || !markOk b.mem ELUARPC_START_OFFSET TYPE_START PACKET_SIG⟩
      else none := by
  refine ((reads_u32 b).expect_map TYPE_START ⟨0 + ELUARPC_START_OFFSET, err⟩ _).trans ?_
  simp only [markOk, bne, Bool.not_and, Bool.or_assoc]
  rfl

theorem matchPacketEnd_eq (b : Buf) (r : Reader) : eluarpcMatchPacketEnd b r
    = if r.p + ELUARPC_END_SIZE ≤ b.size then
        some ⟨r.p + ELUARPC_END_SIZE, r.err || !markOk b.mem r.p TYPE_END (~~~PACKET_SIG)⟩
      else none := by
  refine ((reads_u32 b).expect_map TYPE_END r _).trans ?_
  simp only [markOk, bne, Bool.not_and, Bool.or_assoc]
  rfl

/-! ### One specifier -/

/-- The reader stops at the header of a pointer only when there is no data. -/
theorem u32_add_eq_iff {a n : Nat} (ha : a < 2 ^ 32) (hn : n < 2 ^ 32) :
    u32 (a + n) = a ↔ n = 0 := by
  unfold u32
  omega

theorem leVal_read_lt (m : Mem) (a n : Nat) : leVal (m.read a n) < 256 ^ n := by
  have h := leVal_lt (m.read a n)
  rwa [Mem.length_read] at h

theorem readPtr_eq (b : Buf) (r : Reader) : eluarpcReadPtr b r
    = if r.p + 6 ≤ b.size then
        some (UInt32.ofNat (leVal (b.mem.read (r.p + 2) 4)),
          ⟨u32 (r.p + 6 + leVal (b.mem.read (r.p + 2) 4)),
            r.err || !Specifier.tagsOk b.mem r.p .p⟩)
      else none := by
  have hlen := UInt32.toNat_ofNat_of_lt' (leVal_read_lt b.mem (r.p + 2) 4)
  refine ((reads_u32 b).expect_map TYPE_PTR r _).trans ?_
  simp only [Reader.skip, Nat.add_assoc, Nat.reduceAdd, hlen]
  rfl

theorem readSmallPtr_eq (b : Buf) (r : Reader) : eluarpcReadSmallPtr b r
    = if r.p + 4 ≤ b.size then
        some (UInt16.ofNat (leVal (b.mem.read (r.p + 2) 2)),
          ⟨u32 (r.p + 4 + leVal (b.mem.read (r.p + 2) 2)),
            r.err || !Specifier.tagsOk b.mem r.p .P⟩)
      else none := by
  have hlen := UInt16.toNat_ofNat_of_lt' (leVal_read_lt b.mem (r.p + 2) 2)
  refine ((reads_u16 b).expect_map TYPE_SMALL_PTR r _).trans ?_
  simp only [Reader.skip, Nat.add_assoc, Nat.reduceAdd, hlen]
  rfl

/-- One round of the loop of `eluarpc_gen_read`. -/
theorem Specifier.read_eq (b : Buf) (hsize : b.size < 2 ^ 32) (r : Reader) (s : Specifier) :
    s.read b r = if r.p + s.header ≤ b.size then
        some (s.value b.mem r.p,
          ⟨u32 (r.p + s.extent b.mem r.p), r.err || !s.tagsOk b.mem r.p⟩)
      else none := by
  cases s with
  | o id =>
    have h := ((Reader.reads_expect b id).expect TYPE_OP_ID).eq_u32 hsize r
    exact (Option.map_bind).trans h
  | r id => exact (Reader.reads_expect b (ELUARPC_OP_RES_MOD ||| id)).eq_u32 hsize r
  | c => exact (reads_u8 b).eq_u32 hsize r
  | h => exact (reads_u16 b).eq_u32 hsize r
  | l => exact (reads_u32 b).eq_u32 hsize r
  | L => exact ((reads_u32 b).map UInt32.toInt32).eq_u32 hsize r
  | i => exact ((reads_u32 b).map UInt32.toInt32).eq_u32 hsize r
  | p =>
    have hlen : leVal (b.mem.read (r.p + 2) 4) < 2 ^ 32 := leVal_read_lt b.mem (r.p + 2) 4
    show (eluarpcReadPtr b r).map _ = if r.p + 6 ≤ b.size then _ else none
    rw [readPtr_eq]
    split
    · rename_i hp
      have hnull := u32_add_eq_iff (show r.p + 6 < 2 ^ 32 by omega) hlen
      simp only [Option.map_some, ELUARPC_PTR_HEADER_SIZE, hnull]
      rw [Nat.add_assoc]
      rfl
    · rfl
  | P =>
    have hlen : leVal (b.mem.read (r.p + 2) 2) < 2 ^ 16 := leVal_read_lt b.mem (r.p + 2) 2
    show (eluarpcReadSmallPtr b r).map _ = if r.p + 4 ≤ b.size then _ else none
    rw [readSmallPtr_eq]
    split
    · rename_i hp
      have hnull := u32_add_eq_iff (show r.p + 4 < 2 ^ 32 by omega)
        (show leVal (b.mem.read (r.p + 2) 2) < 2 ^ 32 by omega)
      simp only [Option.map_some, ELUARPC_SMALL_PTR_HEADER_SIZE, hnull]
      rw [Nat.add_assoc]
      rfl
    · rfl

/-! ### Whole packets -/

/-- The loop of `eluarpc_gen_read` and the end of the packet: by induction on the format, with the
reader at any position. -/
theorem readItems_matchPacketEnd_eq (b : Buf) (hsize : b.size < 2 ^ 32) (fmt : List Specifier) :
    ∀ r : Reader, ((readItems b fmt r).bind fun v =>
        (eluarpcMatchPacketEnd b v.2).map fun r => (v.1, r))
      = if Inside b.mem b.size fmt r.p then
          some (itemsValue b.mem fmt r.p,
            ⟨itemsEnd b.mem fmt r.p, r.err || !itemsOk b.mem fmt r.p⟩)
        else none := by
  induction fmt with
  | nil =>
    intro r
    rw [readItems, Option.bind_some, matchPacketEnd_eq]
    show _ = if r.p + ELUARPC_END_SIZE ≤ b.size then _ else none
    split <;> rfl
  | cons s fmt ih =>
    intro r
    have hloop : readItems b (s :: fmt) r = (s.read b r).bind fun v =>
        (readItems b fmt v.2).map fun w => ((v.1, w.1), w.2) := rfl
    rw [hloop, Specifier.read_eq b hsize]
    by_cases hhead : r.p + s.header ≤ b.size
    · rw [if_pos hhead, Option.bind_some]
      -- The rest of the loop starts behind the data, with the error flag of this round.
      have hrest := ih ⟨u32 (r.p + s.extent b.mem r.p), r.err || !s.tagsOk b.mem r.p⟩
      have hvalue := congrArg (Option.map fun w => ((s.value b.mem r.p, w.1), w.2)) hrest
      rw [Option.map_bind] at hvalue
      rw [Option.bind_map]
      refine Eq.trans (congrArg _ (funext fun w => ?_)) (hvalue.trans ?_)
      · show (eluarpcMatchPacketEnd b w.2).map _ = ((eluarpcMatchPacketEnd b w.2).map _).map _
        cases eluarpcMatchPacketEnd b w.2 <;> rfl
      · by_cases hins : Inside b.mem b.size fmt (u32 (r.p + s.extent b.mem r.p))
        · have hinside : Inside b.mem b.size (s :: fmt) r.p := ⟨hhead, hins⟩
          rw [if_pos hins, if_pos hinside, Option.map_some, Bool.or_assoc, ← Bool.not_and]
          rfl
        · have hinside : ¬ Inside b.mem b.size (s :: fmt) r.p := fun h => hins h.2
          rw [if_neg hins, if_neg hinside, Option.map_none]
    · have hinside : ¬ Inside b.mem b.size (s :: fmt) r.p := fun h => hhead h.1
      rw [if_neg hhead, if_neg hinside]
      rfl

/-- A whole call of `eluarpc_gen_read`. -/
theorem genReadTo_eq (b : Buf) (hsize : b.size < 2 ^ 32) (fmt : List Specifier) :
    genReadTo b fmt
      = if ITEMS_OFFSET ≤ b.size ∧ Inside b.mem b.size fmt ITEMS_OFFSET then
          some (itemsValue b.mem fmt ITEMS_OFFSET,
            ⟨itemsEnd b.mem fmt ITEMS_OFFSET,
              !(markOk b.mem ELUARPC_START_OFFSET TYPE_START PACKET_SIG
                && itemsOk b.mem fmt ITEMS_OFFSET)⟩)
        else none := by
  have hloop : genReadTo b fmt = (eluarpcMatchPacketStart b ⟨0, false⟩).bind fun r =>
      (readItems b fmt r).bind fun v => (eluarpcMatchPacketEnd b v.2).map fun r => (v.1, r) := rfl
  rw [hloop, matchPacketStart_eq]
  by_cases hstart : ITEMS_OFFSET ≤ b.size
  · rw [if_pos hstart, Option.bind_some, readItems_matchPacketEnd_eq b hsize]
    simp only [hstart, true_and, Bool.false_or, Bool.not_and]
  · rw [if_neg hstart, Option.bind_none, if_neg fun h => hstart h.1]

section Congr
variable {b b' : Buf} (hsize : b.size = b'.size) (h : Mem.Agree b.mem b'.mem 0 b.size)
include hsize h

theorem read_congr (r : Reader) (s : Specifier) : s.read b r = s.read b' r := by
  have htake := Reader.take_congr hsize h
  have hexpect := Reader.expect_congr hsize h
  cases s <;>
    simp only [Specifier.read, eluarpcExpectOpId, eluarpcReadU8, eluarpcReadU16, eluarpcReadU32,
      eluarpcReadPtr, eluarpcReadSmallPtr, htake, hexpect]

theorem readItems_congr (fmt : List Specifier) (r : Reader) :
    readItems b fmt r = readItems b' fmt r := by
  induction fmt generalizing r with
  | nil => rfl
  | cons s fmt ih => simp only [readItems, read_congr hsize h, ih]

/-- What is decoded does not depend on what is outside the packet. -/
theorem genReadTo_congr (fmt : List Specifier) : genReadTo b fmt = genReadTo b' fmt := by
  have htake := Reader.take_congr hsize h
  have hexpect := Reader.expect_congr hsize h
  simp only [genReadTo, eluarpcMatchPacketStart, eluarpcMatchPacketEnd, eluarpcReadU32,
    readItems_congr hsize h, htake, hexpect]

end Congr

/-- What `eluarpc_get_request_id` does on any bytes. -/
theorem getRequestId_eq (b : Buf) : eluarpcGetRequestId b
    = if ITEMS_OFFSET + 2 ≤ b.size then
        some (!(markOk b.mem ELUARPC_START_OFFSET TYPE_START PACKET_SIG
          && b.mem ITEMS_OFFSET == TYPE_OP_ID), b.mem (ITEMS_OFFSET + 1))
      else none := by
  have hcall : eluarpcGetRequestId b = (eluarpcMatchPacketStart b ⟨0, false⟩).bind fun r =>
      (eluarpcReadOpId b r).map fun v => (v.2.err, v.1) := rfl
  rw [hcall, matchPacketStart_eq]
  by_cases hstart : ITEMS_OFFSET ≤ b.size
  · rw [if_pos hstart, Option.bind_some, reads_opId b]
    split
    · simp only [Option.map_some, Bool.false_or, Bool.not_and]
    · rfl
  · rw [if_neg hstart, Option.bind_none, if_neg (by omega)]

/-- What `eluarpc_get_packet_size` does on any bytes. -/
theorem getPacketSize_eq (b : Buf) : eluarpcGetPacketSize b
    = if ELUARPC_START_OFFSET ≤ b.size then
        some (!(b.mem 0 == TYPE_PKT_SIZE && b.mem 1 == TYPE_INT_16),
          UInt16.ofNat (leVal (b.mem.read 2 2)))
      else none := by
  refine ((reads_u16 b).expect_map TYPE_PKT_SIZE ⟨0, false⟩ _).trans ?_
  simp only [Bool.false_or]
  rfl

end Alcor.Proofs.Eluarpc

/-!
## What the writer leaves

Every function that writes comes to one run of bytes: `Item.write_eq`
for a specifier, `writeItems_eq` for the loop of `eluarpc_gen_write`,
`genWrite_eq` for the whole packet, with the size in front.

The bytes are those of `Alcor.Eluarpc.Codec`. An item whose source is
`NULL` has bytes that depend on what is in the packet behind the
writer, which the items before do not change (`itemsWire_congr`).
-/

namespace Alcor.Proofs.Eluarpc

open Lib
open Alcor.Eluarpc

variable {items : List Item} {src : Option (List UInt8)} {n : Nat} {w' : Writer}

/-! ### Lengths -/

theorem length_dataBytes (m : Mem) (a : Nat) (hsrc : Readable src n) :
    (dataBytes m a src n).length = n := by
  cases src with
  | none => exact Mem.length_read m a n
  | some bs =>
    have hn : n ≤ bs.length := hsrc bs rfl
    rw [dataBytes, List.length_take, Nat.min_eq_left hn]

theorem length_wire (m : Mem) (a : Nat) {it : Item} (hsrc : it.Sourced) :
    (it.wire m a).length = it.size := by
  cases it with
  | p src len =>
    have hdata := length_dataBytes m (a + ELUARPC_PTR_HEADER_SIZE) hsrc
    rw [Item.wire, List.length_append, hdata]
    rfl
  | P src len =>
    have hdata := length_dataBytes m (a + ELUARPC_SMALL_PTR_HEADER_SIZE) hsrc
    rw [Item.wire, List.length_append, hdata]
    rfl
  | _ => rfl

theorem length_itemsWire (m : Mem) (hsrc : ∀ it ∈ items, it.Sourced) :
    ∀ a, (itemsWire m a items).length = itemsSize items := by
  induction items with
  | nil => exact fun _ => rfl
  | cons it items ih =>
    obtain ⟨hit, hitems⟩ := List.forall_mem_cons.mp hsrc
    intro a
    rw [itemsWire, List.length_append, length_wire m a hit, ih hitems]
    rfl

/-! ### What is in the packet before -/

section Congr
variable {m m' : Mem} {a : Nat}

theorem dataBytes_congr (h : ∀ x, a ≤ x → m x = m' x) {b : Nat} (hb : a ≤ b)
    (src : Option (List UInt8)) (n : Nat) : dataBytes m b src n = dataBytes m' b src n := by
  cases src with
  | none =>
    have hagree : Mem.Agree m m' b (b + n) := fun x hlo _ => h x (Nat.le_trans hb hlo)
    exact hagree.read_eq b n (Nat.le_refl _) (Nat.le_refl _)
  | some bs => rfl

/-- Only what is in the packet from the item on matters. -/
theorem wire_congr (h : ∀ x, a ≤ x → m x = m' x) (it : Item) : it.wire m a = it.wire m' a := by
  cases it with
  | p src len => rw [Item.wire, Item.wire, dataBytes_congr h (Nat.le_add_right _ _)]
  | P src len => rw [Item.wire, Item.wire, dataBytes_congr h (Nat.le_add_right _ _)]
  | _ => rfl

theorem itemsWire_congr (items : List Item) :
    ∀ a, (∀ x, a ≤ x → m x = m' x) → itemsWire m a items = itemsWire m' a items := by
  induction items with
  | nil => exact fun _ _ => rfl
  | cons it items ih =>
    intro a h
    rw [itemsWire, itemsWire, wire_congr h it,
      ih (a + it.size) fun x hx => h x (Nat.le_trans (Nat.le_add_right _ _) hx)]

end Congr

/-! ### Items -/

section Write
variable {w : Writer}

theorem writeU32_eq (x : UInt32) (h : w.p + 5 ≤ w.buf.size) :
    eluarpcWriteU32 w x = some (w.wrote (wordBytes x)) := Writer.put_eq h

theorem writeU16_eq (x : UInt16) (h : w.p + 3 ≤ w.buf.size) :
    eluarpcWriteU16 w x = some (w.wrote (halfBytes x)) := Writer.put_eq h

/-- The data of a pointer. For `NULL`, the bytes that are there are as good as written. -/
theorem copyFrom_eq (hsize : w.buf.size < 2 ^ 32) (h : w.p + n ≤ w.buf.size)
    (hsrc : Readable src n) :
    copyFrom w src n = some (w.wrote (dataBytes w.buf.mem w.p src n)) := by
  cases src with
  | none => exact congrArg some (Writer.skip_eq h hsize)
  | some bs =>
    have hn : n ≤ bs.length := hsrc bs rfl
    rw [copyFrom, if_pos hn]
    exact Writer.put_eq (by rwa [List.length_take, Nat.min_eq_left hn])

/-- A header and the data behind it. -/
theorem copyFrom_wrote (hdr : List UInt8) (hsize : w.buf.size < 2 ^ 32)
    (h : w.p + hdr.length + n ≤ w.buf.size) (hsrc : Readable src n) :
    copyFrom (w.wrote hdr) src n =
      some (w.wrote (hdr ++ dataBytes w.buf.mem (w.p + hdr.length) src n)) := by
  have hbehind : ∀ x, w.p + hdr.length ≤ x → (w.wrote hdr).buf.mem x = w.buf.mem x :=
    fun x hx => Mem.store_of_ge _ _ _ hx
  rw [copyFrom_eq (w := w.wrote hdr) hsize h hsrc, Writer.wrote_wrote, Writer.wrote_p,
    dataBytes_congr hbehind (Nat.le_refl _)]

/-- One round of the loop of `eluarpc_gen_write`. -/
theorem Item.write_eq (it : Item) (hsize : w.buf.size < 2 ^ 32) (h : w.p + it.size ≤ w.buf.size)
    (hsrc : it.Sourced) : it.write w = some (w.wrote (it.wire w.buf.mem w.p)) := by
  cases it with
  | o id => exact Writer.put_eq h
  | r id => exact Writer.put_eq h
  | c x => exact Writer.put_eq h
  | h x => exact Writer.put_eq h
  | i x => exact Writer.put_eq h
  | l x => exact Writer.put_eq h
  | L x => exact Writer.put_eq h
  | p src len =>
    have hroom : w.p + 6 + len.toNat ≤ w.buf.size := by
      rw [Nat.add_assoc]
      exact h
    have hcopy := copyFrom_wrote (w := w) (TYPE_PTR :: wordBytes len) hsize hroom hsrc
    have htag : w.put [TYPE_PTR] = some (w.wrote [TYPE_PTR]) :=
      Writer.put_eq (show w.p + 1 ≤ w.buf.size by omega)
    show eluarpcWritePtr w src len = _
    rw [eluarpcWritePtr, htag, Option.bind_eq_bind, Option.bind_some,
      writeU32_eq len (show w.p + 1 + 5 ≤ w.buf.size by omega),
      Option.bind_some, Writer.wrote_wrote]
    exact hcopy
  | P src len =>
    have hroom : w.p + 4 + len.toNat ≤ w.buf.size := by
      rw [Nat.add_assoc]
      exact h
    have hcopy := copyFrom_wrote (w := w) (TYPE_SMALL_PTR :: halfBytes len) hsize hroom hsrc
    have htag : w.put [TYPE_SMALL_PTR] = some (w.wrote [TYPE_SMALL_PTR]) :=
      Writer.put_eq (show w.p + 1 ≤ w.buf.size by omega)
    show eluarpcWriteSmallPtr w src len = _
    rw [eluarpcWriteSmallPtr, htag, Option.bind_eq_bind, Option.bind_some,
      writeU16_eq len (show w.p + 1 + 3 ≤ w.buf.size by omega),
      Option.bind_some, Writer.wrote_wrote]
    exact hcopy

/-- The loop of `eluarpc_gen_write`: by induction on the items, with the writer at any position. -/
theorem writeItems_eq (hsrc : ∀ it ∈ items, it.Sourced) :
    ∀ w : Writer, w.buf.size < 2 ^ 32 → w.p + itemsSize items ≤ w.buf.size →
      writeItems items w = some (w.wrote (itemsWire w.buf.mem w.p items)) := by
  induction items with
  | nil =>
    intro w _ _
    rw [itemsWire, Writer.wrote_nil]
    rfl
  | cons it items ih =>
    obtain ⟨hit, hitems⟩ := List.forall_mem_cons.mp hsrc
    intro w hsize h
    have hsum : itemsSize (it :: items) = it.size + itemsSize items := rfl
    rw [hsum] at h
    have hlen := length_wire w.buf.mem w.p hit
    have hbehind : ∀ x, w.p + it.size ≤ x →
        (w.wrote (it.wire w.buf.mem w.p)).buf.mem x = w.buf.mem x :=
      fun x hx => Mem.store_of_ge _ _ _ (by rwa [hlen])
    have hrest := ih hitems (w.wrote (it.wire w.buf.mem w.p)) hsize (by
      rw [Writer.wrote_p, hlen, Writer.wrote_size]
      omega)
    rw [writeItems, Item.write_eq it hsize (by omega) hit, Option.bind_some, hrest,
      Writer.wrote_wrote, Writer.wrote_p, hlen, itemsWire_congr items _ hbehind, itemsWire]

end Write

/-! ### Packets -/

/-- The memory of a packet after `eluarpc_gen_write`. -/
def packetMem (m : Mem) (items : List Item) : Mem :=
  (m.store ELUARPC_START_OFFSET (packetBody m items)).store 0 (sizeBytes (packetSize items))

theorem length_packetBody (m : Mem) (hsrc : ∀ it ∈ items, it.Sourced) :
    ELUARPC_START_OFFSET + (packetBody m items).length = packetSize items := by
  rw [packetBody, List.length_append, List.length_append, length_itemsWire m hsrc, packetSize,
    ITEMS_OFFSET, ← Nat.add_assoc, ← Nat.add_assoc]
  rfl

theorem startPacket_eq (buf : Buf) (h : ITEMS_OFFSET ≤ buf.size) :
    eluarpcStartPacket buf = some ((Writer.mk buf ELUARPC_START_OFFSET).wrote startBytes) := by
  rw [ITEMS_OFFSET, ELUARPC_START_OFFSET, ELUARPC_START_SIZE] at h
  have htag : (Writer.mk buf ELUARPC_START_OFFSET).put [TYPE_START] =
      some ((Writer.mk buf ELUARPC_START_OFFSET).wrote [TYPE_START]) :=
    Writer.put_eq (show 4 + 1 ≤ buf.size by omega)
  rw [eluarpcStartPacket, htag, Option.bind_eq_bind, Option.bind_some,
    writeU32_eq PACKET_SIG (show 4 + 1 + 5 ≤ buf.size by omega), Writer.wrote_wrote]
  rfl

/-- The end of a packet, and the size in front of it. -/
theorem endPacket_eq (w : Writer) (h : w.p + ELUARPC_END_SIZE ≤ w.buf.size) :
    eluarpcEndPacket w = some { w.buf with
      mem := (w.buf.mem.store w.p endBytes).store 0 (sizeBytes (w.p + ELUARPC_END_SIZE)) } := by
  rw [ELUARPC_END_SIZE] at h ⊢
  have htag : w.put [TYPE_END] = some (w.wrote [TYPE_END]) :=
    Writer.put_eq (show w.p + 1 ≤ w.buf.size by omega)
  obtain ⟨w', hw'⟩ : ∃ w', w' = w.wrote endBytes := ⟨_, rfl⟩
  have hend : (w.wrote [TYPE_END]).wrote (wordBytes (~~~PACKET_SIG)) = w' := by
    rw [Writer.wrote_wrote, hw']
    rfl
  have hp : w'.p = w.p + 6 := by
    rw [hw', Writer.wrote_p]
    rfl
  have hsize : w'.buf.size = w.buf.size := by rw [hw', Writer.wrote_size]
  -- the size is written from the front again
  have hfront : ({ w' with p := 0 } : Writer).put [TYPE_PKT_SIZE] =
      some (({ w' with p := 0 } : Writer).wrote [TYPE_PKT_SIZE]) :=
    Writer.put_eq (show 0 + 1 ≤ w'.buf.size by omega)
  rw [eluarpcEndPacket, htag, Option.bind_eq_bind, Option.bind_some,
    writeU32_eq (~~~PACKET_SIG) (show w.p + 1 + 5 ≤ w.buf.size by omega), Option.bind_some, hend,
    hfront, Option.bind_some,
    writeU16_eq (UInt16.ofNat w'.p) (show 0 + 1 + 3 ≤ w'.buf.size by omega), Option.bind_some,
    Writer.wrote_wrote, hp, hw']
  rfl

/-- A whole call of `eluarpc_gen_write`: with room for the packet, the
object holds its bytes, and everything behind them is as it was. -/
theorem genWrite_eq (buf : Buf) (hsize : buf.size < 2 ^ 32) (hsrc : ∀ it ∈ items, it.Sourced)
    (h : packetSize items ≤ buf.size) :
    eluarpcGenWrite buf items = some { buf with mem := packetMem buf.mem items } := by
  rw [packetSize, ITEMS_OFFSET, ELUARPC_START_OFFSET, ELUARPC_START_SIZE, ELUARPC_END_SIZE] at h
  have hstart := startPacket_eq buf (show 4 + 6 ≤ buf.size by omega)
  obtain ⟨w, hw⟩ : ∃ w, w = (Writer.mk buf ELUARPC_START_OFFSET).wrote startBytes := ⟨_, rfl⟩
  rw [← hw] at hstart
  have hp : w.p = ITEMS_OFFSET := by
    rw [hw]
    rfl
  have hwsize : w.buf.size = buf.size := by rw [hw, Writer.wrote_size]
  have hitems := writeItems_eq hsrc w (by omega) (by
    rw [hp, hwsize, ITEMS_OFFSET, ELUARPC_START_OFFSET, ELUARPC_START_SIZE]
    omega)
  -- the start does not reach the items
  have hbehind : ∀ x, w.p ≤ x → w.buf.mem x = buf.mem x := by
    intro x hx
    rw [hw]
    exact Mem.store_of_ge _ _ _ (by rw [hp] at hx; exact hx)
  rw [itemsWire_congr items w.p hbehind, hp] at hitems
  have hlen := length_itemsWire buf.mem hsrc ITEMS_OFFSET
  have hend := endPacket_eq (w.wrote (itemsWire buf.mem ITEMS_OFFSET items)) (by
    rw [Writer.wrote_p, Writer.wrote_size, hp, hlen, hwsize, ITEMS_OFFSET, ELUARPC_START_OFFSET,
      ELUARPC_START_SIZE, ELUARPC_END_SIZE]
    omega)
  rw [eluarpcGenWrite, hstart, Option.bind_eq_bind, Option.bind_some, hitems, Option.bind_some,
    hend]
  have hbody : ((w.wrote (itemsWire buf.mem ITEMS_OFFSET items)).buf.mem.store
      (w.wrote (itemsWire buf.mem ITEMS_OFFSET items)).p endBytes) =
      buf.mem.store ELUARPC_START_OFFSET (packetBody buf.mem items) := by
    have hjoin := congrArg (fun w => w.buf.mem) (Writer.wrote_wrote
      (Writer.mk buf ELUARPC_START_OFFSET) (startBytes ++ itemsWire buf.mem ITEMS_OFFSET items)
      endBytes)
    rw [← Writer.wrote_wrote, ← hw] at hjoin
    exact hjoin
  rw [hbody, Writer.wrote_p, hp, hlen]
  exact congrArg (fun n => some (Buf.mk (packetMem buf.mem items) n)) hwsize

/-! ### Room -/

/-- The pointers of the item are not `NULL`. -/
def HasSource : Item → Prop
  | .p src _ => src.isSome = true
  | .P src _ => src.isSome = true
  | _        => True

theorem put_room {w : Writer} {bs : List UInt8} (h : w.put bs = some w') :
    w'.p = w.p + bs.length ∧ w'.buf.size = w.buf.size ∧ w.p + bs.length ≤ w.buf.size := by
  rw [Writer.put, Option.map_eq_some_iff] at h
  obtain ⟨buf, hput, rfl⟩ := h
  rw [Buf.put?] at hput
  split at hput
  · next hle =>
      rw [Option.some.injEq] at hput
      subst hput
      exact ⟨rfl, rfl, hle⟩
  · cases hput

theorem copyFrom_room {w : Writer} (hsrc : src.isSome = true) (h : copyFrom w src n = some w') :
    w'.p = w.p + n ∧ w'.buf.size = w.buf.size := by
  obtain ⟨bs, rfl⟩ := Option.isSome_iff_exists.mp hsrc
  rw [copyFrom] at h
  split at h
  · next hn =>
      obtain ⟨hp, hsize, -⟩ := put_room h
      rw [List.length_take, Nat.min_eq_left hn] at hp
      exact ⟨hp, hsize⟩
  · cases h

/-- An item takes the writer as far as its size says. -/
theorem item_room {it : Item} (hsrc : HasSource it) {w : Writer} (h : it.write w = some w') :
    w'.p = w.p + it.size ∧ w'.buf.size = w.buf.size := by
  cases it with
  | p src len =>
    rw [show Item.write w (.p src len) = eluarpcWritePtr w src len from rfl, eluarpcWritePtr] at h
    simp only [Option.bind_eq_bind, Option.bind_eq_some_iff] at h
    obtain ⟨w1, h1, w2, h2, h3⟩ := h
    obtain ⟨hp1, hs1, -⟩ := put_room h1
    obtain ⟨hp2, hs2, -⟩ := put_room h2
    obtain ⟨hp3, hs3⟩ := copyFrom_room hsrc h3
    simp only [List.length_cons, List.length_nil, length_leBytes] at hp1 hp2
    refine ⟨?_, by rw [hs3, hs2, hs1]⟩
    rw [hp3, hp2, hp1, Item.size, ELUARPC_PTR_HEADER_SIZE]
    omega
  | P src len =>
    rw [show Item.write w (.P src len) = eluarpcWriteSmallPtr w src len from rfl,
      eluarpcWriteSmallPtr] at h
    simp only [Option.bind_eq_bind, Option.bind_eq_some_iff] at h
    obtain ⟨w1, h1, w2, h2, h3⟩ := h
    obtain ⟨hp1, hs1, -⟩ := put_room h1
    obtain ⟨hp2, hs2, -⟩ := put_room h2
    obtain ⟨hp3, hs3⟩ := copyFrom_room hsrc h3
    simp only [List.length_cons, List.length_nil, length_leBytes] at hp1 hp2
    refine ⟨?_, by rw [hs3, hs2, hs1]⟩
    rw [hp3, hp2, hp1, Item.size, ELUARPC_SMALL_PTR_HEADER_SIZE]
    omega
  | _ => exact ⟨(put_room h).1, (put_room h).2.1⟩

/-- The items take the writer as far as their sizes say. -/
theorem items_room (hsrc : ∀ it ∈ items, HasSource it) :
    ∀ {w w' : Writer}, writeItems items w = some w' →
      w'.p = w.p + itemsSize items ∧ w'.buf.size = w.buf.size := by
  induction items with
  | nil =>
    intro w w' h
    rw [writeItems, Option.some.injEq] at h
    subst h
    exact ⟨rfl, rfl⟩
  | cons it items ih =>
    obtain ⟨hit, hitems⟩ := List.forall_mem_cons.mp hsrc
    intro w w' h
    rw [writeItems, Option.bind_eq_some_iff] at h
    obtain ⟨w1, h1, h2⟩ := h
    obtain ⟨hp1, hs1⟩ := item_room hit h1
    obtain ⟨hp2, hs2⟩ := ih hitems h2
    have hsum : itemsSize (it :: items) = it.size + itemsSize items := rfl
    exact ⟨by rw [hp2, hp1, hsum, Nat.add_assoc], hs2.trans hs1⟩

/-- A packet without `NULL` can only be written where it fits. -/
theorem packetSize_le_of_genWrite (hsrc : ∀ it ∈ items, HasSource it) {buf buf' : Buf}
    (h : eluarpcGenWrite buf items = some buf') : packetSize items ≤ buf.size := by
  rw [eluarpcGenWrite] at h
  simp only [Option.bind_eq_bind, Option.bind_eq_some_iff] at h
  obtain ⟨w1, h1, w2, h2, h3⟩ := h
  rw [eluarpcStartPacket] at h1
  simp only [Option.bind_eq_bind, Option.bind_eq_some_iff] at h1
  obtain ⟨w0, h0, h1⟩ := h1
  obtain ⟨hp0, hs0, -⟩ := put_room h0
  obtain ⟨hp1, hs1, -⟩ := put_room h1
  obtain ⟨hp2, hs2⟩ := items_room hsrc h2
  rw [eluarpcEndPacket] at h3
  simp only [Option.bind_eq_bind, Option.bind_eq_some_iff] at h3
  obtain ⟨w3, h3, w4, h4, -⟩ := h3
  obtain ⟨hp3, hs3, -⟩ := put_room h3
  obtain ⟨-, -, hle⟩ := put_room h4
  simp only [List.length_cons, List.length_nil, length_leBytes, ELUARPC_START_OFFSET]
    at hp0 hp1 hp3 hle
  have hsize : w3.buf.size = buf.size := by rw [hs3, hs2, hs1, hs0]
  rw [packetSize, ITEMS_OFFSET, ELUARPC_START_OFFSET, ELUARPC_START_SIZE, ELUARPC_END_SIZE]
  omega

end Alcor.Proofs.Eluarpc
