import Alcor.Proofs.Eluarpc.Packets

/-!
# `Alcor.Proofs.Eluarpc.Strict`: what is read can be written again

The reader checks every byte between the size and the end of a packet,
or returns it. So what it decoded without an error, written again, is
what it read, unless a length takes its pointer around the address
space: nothing in `eluarpc_read_ptr` asks whether the data behind a
header is in the packet, and the end of the packet may as well be found
before it.

* `itemOf_spec` and `itemsOf_spec`: where all bytes are right and no
  length goes around, the packet holds the items for the values.
* `itemOf_not_sourced` and `itemsOf_not_sourced`: where a length goes
  around, an item has no data that could be written.
* `strict_iff` says that this is the only exception, and `not_strict`
  that it is one.
-/

set_option autoImplicit false

namespace Alcor.Proofs.Eluarpc

open Lib
open Alcor.Eluarpc

/-! ### The decoded values as items -/

/-- The bytes behind a pointer of the reader, as far as they are in the packet. -/
def sourceOf (b : Buf) (ptr : Option Nat) (len : Nat) : Option (List UInt8) :=
  ptr.map fun a => b.mem.read a (min len (b.size - a))

/-- The item for what a specifier stored. -/
def itemOf (b : Buf) : (s : Specifier) → s.Out → Item
  | .o id, _ => .o id
  | .r id, _ => .r id
  | .c, v    => .c v
  | .h, v    => .h v
  | .i, v    => .i v
  | .l, v    => .l v
  | .L, v    => .L v
  | .p, v    =>
    have v : Option Nat × UInt32 := v
    .p (sourceOf b v.1 v.2.toNat) v.2
  | .P, v    =>
    have v : Option Nat × UInt16 := v
    .P (sourceOf b v.1 v.2.toNat) v.2

/-- The items for what a format stored. -/
def itemsOf (b : Buf) : (fmt : List Specifier) → Outs fmt → List Item
  | [], _       => []
  | s :: fmt, v => itemOf b s v.1 :: itemsOf b fmt v.2

/-- Written into any packet with room for them, the decoded values give the bytes that were read,
from behind the size to `stop`. -/
def Reproduces (b : Buf) (fmt : List Specifier) (vs : Outs fmt) (stop : Nat) : Prop :=
  ∀ target : Buf, target.size < 2 ^ 32 → stop ≤ target.size →
    ∃ buf', eluarpcGenWrite target (itemsOf b fmt vs) = some buf' ∧
      Mem.Agree b.mem buf'.mem ELUARPC_START_OFFSET stop

/-- No length takes the reader around the address space. -/
def LengthsFit (m : Mem) : List Specifier → Nat → Prop
  | [], _       => True
  | s :: fmt, a => a + s.extent m a < 2 ^ 32 ∧ LengthsFit m fmt (a + s.extent m a)

/-! ### Words -/

section Words
variable {m : Mem} {a : Nat}

theorem holds_word (m : Mem) (a : Nat) :
    m.Holds a (leBytes 4 (UInt32.ofNat (leVal (m.read a 4))).toNat) := by
  have hlen := UInt32.toNat_ofNat_of_lt' (leVal_read_lt m a 4)
  have hbytes := leBytes_leVal (m.read a 4)
  rw [Mem.length_read] at hbytes
  rw [hlen, hbytes, Mem.Holds, Mem.length_read]

theorem holds_half (m : Mem) (a : Nat) :
    m.Holds a (leBytes 2 (UInt16.ofNat (leVal (m.read a 2))).toNat) := by
  have hlen := UInt16.toNat_ofNat_of_lt' (leVal_read_lt m a 2)
  have hbytes := leBytes_leVal (m.read a 2)
  rw [Mem.length_read] at hbytes
  rw [hlen, hbytes, Mem.Holds, Mem.length_read]

/-- A mark that is right holds its bytes. -/
theorem holds_of_markOk {tag : UInt8} {sig : UInt32} (h : markOk m a tag sig = true) :
    m.Holds a (tag :: wordBytes sig) := by
  simp only [markOk, Bool.and_eq_true, beq_iff_eq] at h
  obtain ⟨⟨htag, hint⟩, hsig⟩ := h
  rw [wordBytes, Mem.holds_cons, Mem.holds_cons]
  exact ⟨htag, hint, hsig ▸ holds_word m (a + 1 + 1)⟩

end Words

/-! ### Items -/

section Items
variable {b : Buf} {a : Nat}

/-- The data of a pointer is in the packet, or there is none. -/
theorem sourceOf_spec {len : Nat} (hroom : a + len ≤ b.size) :
    Readable (sourceOf b (if len = 0 then none else some a) len) len ∧
      ∀ m₀ a₀, b.mem.Holds a
        (dataBytes m₀ a₀ (sourceOf b (if len = 0 then none else some a) len) len) := by
  by_cases hzero : len = 0
  · subst hzero
    exact ⟨fun bs hbs => Nat.zero_le _, fun m₀ a₀ => Mem.holds_nil b.mem a⟩
  · rw [if_neg hzero, sourceOf, Option.map_some, Nat.min_eq_left (by omega)]
    constructor
    · intro bs hbs
      rw [← Option.mem_some.mp hbs, Mem.length_read]
    · intro m₀ a₀
      rw [dataBytes, List.take_of_length_le (Nat.le_of_eq (Mem.length_read b.mem a len)),
        Mem.Holds, Mem.length_read]

/-- A specifier whose bytes are right and in the packet: the item for its value is written with
the same bytes. -/
theorem itemOf_spec (s : Specifier) (hok : s.tagsOk b.mem a = true)
    (hroom : a + s.extent b.mem a ≤ b.size) :
    (itemOf b s (s.value b.mem a)).Sourced ∧
      (itemOf b s (s.value b.mem a)).size = s.extent b.mem a ∧
      ∀ m₀ a₀, b.mem.Holds a ((itemOf b s (s.value b.mem a)).wire m₀ a₀) := by
  cases s with
  | o id =>
    simp only [Specifier.tagsOk, Bool.and_eq_true, beq_iff_eq] at hok
    refine ⟨trivial, rfl, fun m₀ a₀ => ?_⟩
    rw [itemOf, Item.wire, Mem.holds_cons, Mem.holds_cons]
    exact ⟨hok.1, hok.2, Mem.holds_nil _ _⟩
  | r id =>
    simp only [Specifier.tagsOk, beq_iff_eq] at hok
    refine ⟨trivial, rfl, fun m₀ a₀ => ?_⟩
    rw [itemOf, Item.wire, Mem.holds_cons]
    exact ⟨hok, Mem.holds_nil _ _⟩
  | c =>
    simp only [Specifier.tagsOk, beq_iff_eq] at hok
    refine ⟨trivial, rfl, fun m₀ a₀ => ?_⟩
    rw [itemOf, Item.wire, Mem.holds_cons, Mem.holds_cons]
    exact ⟨hok, rfl, Mem.holds_nil _ _⟩
  | h =>
    simp only [Specifier.tagsOk, beq_iff_eq] at hok
    refine ⟨trivial, rfl, fun m₀ a₀ => ?_⟩
    rw [itemOf, Item.wire, halfBytes, Mem.holds_cons]
    exact ⟨hok, holds_half b.mem (a + 1)⟩
  | l =>
    simp only [Specifier.tagsOk, beq_iff_eq] at hok
    refine ⟨trivial, rfl, fun m₀ a₀ => ?_⟩
    rw [itemOf, Item.wire, wordBytes, Mem.holds_cons]
    exact ⟨hok, holds_word b.mem (a + 1)⟩
  | i =>
    simp only [Specifier.tagsOk, beq_iff_eq] at hok
    refine ⟨trivial, rfl, fun m₀ a₀ => ?_⟩
    rw [itemOf, Item.wire, wordBytes, Mem.holds_cons]
    exact ⟨hok, holds_word b.mem (a + 1)⟩
  | L =>
    simp only [Specifier.tagsOk, beq_iff_eq] at hok
    refine ⟨trivial, rfl, fun m₀ a₀ => ?_⟩
    rw [itemOf, Item.wire, wordBytes, Mem.holds_cons]
    exact ⟨hok, holds_word b.mem (a + 1)⟩
  | p =>
    simp only [Specifier.tagsOk, Bool.and_eq_true, beq_iff_eq] at hok
    obtain ⟨htag, hint⟩ := hok
    obtain ⟨len, hlen⟩ : ∃ len, len = leVal (b.mem.read (a + 2) 4) := ⟨_, rfl⟩
    have hval : (UInt32.ofNat len).toNat = len :=
      hlen ▸ UInt32.toNat_ofNat_of_lt' (leVal_read_lt b.mem (a + 2) 4)
    have hdata : a + 6 + len ≤ b.size := by
      rw [hlen, Nat.add_assoc]
      exact hroom
    obtain ⟨hreadable, hholds⟩ := sourceOf_spec hdata
    have hitem : itemOf b .p (Specifier.value b.mem a .p) =
        .p (sourceOf b (if len = 0 then none else some (a + 6)) len) (UInt32.ofNat len) := by
      rw [hlen] at hval ⊢
      show Item.p (sourceOf b _ (UInt32.ofNat _).toNat) _ = _
      rw [hval]
      rfl
    rw [hitem, Item.Sourced, Item.size, hval]
    refine ⟨hreadable, ?_, fun m₀ a₀ => ?_⟩
    · rw [hlen]
      rfl
    · rw [Item.wire, hval, wordBytes, List.cons_append, List.cons_append, Mem.holds_cons,
        Mem.holds_cons, Mem.holds_append, length_leBytes]
      refine ⟨htag, hint, ?_, hholds _ _⟩
      rw [hlen]
      exact holds_word b.mem (a + 1 + 1)
  | P =>
    simp only [Specifier.tagsOk, Bool.and_eq_true, beq_iff_eq] at hok
    obtain ⟨htag, hint⟩ := hok
    obtain ⟨len, hlen⟩ : ∃ len, len = leVal (b.mem.read (a + 2) 2) := ⟨_, rfl⟩
    have hval : (UInt16.ofNat len).toNat = len :=
      hlen ▸ UInt16.toNat_ofNat_of_lt' (leVal_read_lt b.mem (a + 2) 2)
    have hdata : a + 4 + len ≤ b.size := by
      rw [hlen, Nat.add_assoc]
      exact hroom
    obtain ⟨hreadable, hholds⟩ := sourceOf_spec hdata
    have hitem : itemOf b .P (Specifier.value b.mem a .P) =
        .P (sourceOf b (if len = 0 then none else some (a + 4)) len) (UInt16.ofNat len) := by
      rw [hlen] at hval ⊢
      show Item.P (sourceOf b _ (UInt16.ofNat _).toNat) _ = _
      rw [hval]
      rfl
    rw [hitem, Item.Sourced, Item.size, hval]
    refine ⟨hreadable, ?_, fun m₀ a₀ => ?_⟩
    · rw [hlen]
      rfl
    · rw [Item.wire, hval, halfBytes, List.cons_append, List.cons_append, Mem.holds_cons,
        Mem.holds_cons, Mem.holds_append, length_leBytes]
      refine ⟨htag, hint, ?_, hholds _ _⟩
      rw [hlen]
      exact holds_half b.mem (a + 1 + 1)

/-- A data that goes around the address space is not in the packet. -/
theorem itemOf_not_sourced (hsize : b.size < 2 ^ 32) (s : Specifier) (hhead : a + s.header ≤ b.size)
    (hwrap : 2 ^ 32 ≤ a + s.extent b.mem a) : ¬ (itemOf b s (s.value b.mem a)).Sourced := by
  cases s with
  | p =>
    obtain ⟨len, hlen⟩ : ∃ len, len = leVal (b.mem.read (a + 2) 4) := ⟨_, rfl⟩
    have hval : (UInt32.ofNat len).toNat = len :=
      hlen ▸ UInt32.toNat_ofNat_of_lt' (leVal_read_lt b.mem (a + 2) 4)
    have hhead' : a + 6 ≤ b.size := hhead
    have hwrap' : 2 ^ 32 ≤ a + (6 + len) := by
      rw [hlen]
      exact hwrap
    intro hsrc
    have hsrc : Readable (sourceOf b (if len = 0 then none else some (a + 6))
        (UInt32.ofNat len).toNat) (UInt32.ofNat len).toNat := by
      rw [hlen]
      exact hsrc
    rw [hval, if_neg (by omega), sourceOf, Option.map_some] at hsrc
    have hle := hsrc _ rfl
    rw [Mem.length_read] at hle
    omega
  | P =>
    obtain ⟨len, hlen⟩ : ∃ len, len = leVal (b.mem.read (a + 2) 2) := ⟨_, rfl⟩
    have hval : (UInt16.ofNat len).toNat = len :=
      hlen ▸ UInt16.toNat_ofNat_of_lt' (leVal_read_lt b.mem (a + 2) 2)
    have hhead' : a + 4 ≤ b.size := hhead
    have hwrap' : 2 ^ 32 ≤ a + (4 + len) := by
      rw [hlen]
      exact hwrap
    intro hsrc
    have hsrc : Readable (sourceOf b (if len = 0 then none else some (a + 4))
        (UInt16.ofNat len).toNat) (UInt16.ofNat len).toNat := by
      rw [hlen]
      exact hsrc
    rw [hval, if_neg (by omega), sourceOf, Option.map_some] at hsrc
    have hle := hsrc _ rfl
    rw [Mem.length_read] at hle
    omega
  | _ =>
    have hle : 2 ^ 32 ≤ b.size := Nat.le_trans hwrap hhead
    omega

/-! ### The loop -/

/-- Where a loop stops, the items before are in the packet. -/
theorem end_le_of_inside {n : Nat} (m : Mem) (fmt : List Specifier) :
    ∀ a, Inside m n fmt a → LengthsFit m fmt a → a + ELUARPC_END_SIZE ≤ n := by
  induction fmt with
  | nil => exact fun a h _ => h
  | cons s fmt ih =>
    intro a h hfit
    have hnext := h.2
    rw [u32_of_lt hfit.1] at hnext
    have hrest := ih _ hnext hfit.2
    omega

/-- The loop stops in the packet. -/
theorem itemsEnd_le {n : Nat} (m : Mem) (fmt : List Specifier) :
    ∀ a, Inside m n fmt a → itemsEnd m fmt a ≤ n := by
  induction fmt with
  | nil => exact fun a h => h
  | cons s fmt ih => exact fun a h => ih _ h.2

/-- Where all bytes are right and no length goes around, the packet holds the items for the
values. -/
theorem itemsOf_spec (fmt : List Specifier) :
    ∀ a, Inside b.mem b.size fmt a → itemsOk b.mem fmt a = true → LengthsFit b.mem fmt a →
      (∀ it ∈ itemsOf b fmt (itemsValue b.mem fmt a), it.Sourced) ∧
        itemsEnd b.mem fmt a =
          a + itemsSize (itemsOf b fmt (itemsValue b.mem fmt a)) + ELUARPC_END_SIZE ∧
        ∀ m₀ a₀, b.mem.Holds a
          (itemsWire m₀ a₀ (itemsOf b fmt (itemsValue b.mem fmt a)) ++ endBytes) := by
  induction fmt with
  | nil =>
    intro a _ hok _
    exact ⟨fun it hit => absurd hit List.not_mem_nil, rfl, fun _ _ => holds_of_markOk hok⟩
  | cons s fmt ih =>
    intro a hinside hok hfit
    rw [itemsOk, Bool.and_eq_true] at hok
    obtain ⟨htags, hok⟩ := hok
    obtain ⟨-, hinside⟩ := hinside
    obtain ⟨hlt, hfit⟩ := hfit
    rw [u32_of_lt hlt] at hok hinside
    have hroom := end_le_of_inside b.mem fmt _ hinside hfit
    obtain ⟨hsrc, hitemsize, hholds⟩ := itemOf_spec s htags (by omega)
    obtain ⟨hsrcs, hend, hrest⟩ := ih _ hinside hok hfit
    have hvalue : itemsOf b (s :: fmt) (itemsValue b.mem (s :: fmt) a) =
        itemOf b s (s.value b.mem a) ::
          itemsOf b fmt (itemsValue b.mem fmt (a + s.extent b.mem a)) := by
      show itemOf b s (s.value b.mem a) :: itemsOf b fmt (itemsValue b.mem fmt (u32 _)) = _
      rw [u32_of_lt hlt]
    rw [hvalue]
    refine ⟨List.forall_mem_cons.mpr ⟨hsrc, hsrcs⟩, ?_, fun m₀ a₀ => ?_⟩
    · have hsum : ∀ it items, itemsSize (it :: items) = it.size + itemsSize items :=
        fun _ _ => rfl
      rw [itemsEnd, u32_of_lt hlt, hend, hsum, hitemsize]
      omega
    · rw [itemsWire, List.append_assoc, Mem.holds_append, length_wire m₀ a₀ hsrc, hitemsize]
      exact ⟨hholds m₀ a₀, hrest m₀ _⟩

/-- Where a length goes around, an item cannot be written. -/
theorem itemsOf_not_sourced (hsize : b.size < 2 ^ 32) (fmt : List Specifier) :
    ∀ a, Inside b.mem b.size fmt a → ¬ LengthsFit b.mem fmt a →
      ∃ it ∈ itemsOf b fmt (itemsValue b.mem fmt a), ¬ it.Sourced := by
  induction fmt with
  | nil => exact fun a _ hfit => absurd trivial hfit
  | cons s fmt ih =>
    intro a hinside hfit
    by_cases hlt : a + s.extent b.mem a < 2 ^ 32
    · obtain ⟨-, hinside⟩ := hinside
      rw [u32_of_lt hlt] at hinside
      obtain ⟨it, hit, hsrc⟩ := ih _ hinside fun h => hfit ⟨hlt, h⟩
      refine ⟨it, ?_, hsrc⟩
      show it ∈ itemOf b s (s.value b.mem a) :: itemsOf b fmt (itemsValue b.mem fmt (u32 _))
      rw [u32_of_lt hlt]
      exact List.mem_cons_of_mem _ hit
    · exact ⟨_, List.mem_cons_self, itemOf_not_sourced hsize s hinside.1 (Nat.le_of_not_lt hlt)⟩

end Items

/-! ### Writing without a source -/

/-- A pointer whose data is not there cannot be written. -/
theorem write_eq_none {it : Item} (hsrc : ¬ it.Sourced) (w : Writer) : it.write w = none := by
  have hcopy : ∀ (src : Option (List UInt8)) (n : Nat) (w : Writer), ¬ Readable src n →
      copyFrom w src n = none := by
    intro src n w hread
    cases src with
    | none => exact absurd (fun bs hbs => absurd hbs (by simp)) hread
    | some bs =>
      have hlt : ¬ n ≤ bs.length := fun hle => hread fun bs' hbs' =>
        Option.mem_some.mp hbs' ▸ hle
      exact if_neg hlt
  cases it with
  | p src len =>
    show eluarpcWritePtr w src len = none
    rw [eluarpcWritePtr]
    simp only [Option.bind_eq_bind, hcopy src len.toNat _ hsrc, Option.bind_fun_none]
  | P src len =>
    show eluarpcWriteSmallPtr w src len = none
    rw [eluarpcWriteSmallPtr]
    simp only [Option.bind_eq_bind, hcopy src len.toNat _ hsrc, Option.bind_fun_none]
  | _ => exact absurd trivial hsrc

/-- Nor can a packet with such a pointer. -/
theorem writeItems_eq_none {items : List Item} (h : ∃ it ∈ items, ¬ it.Sourced) :
    ∀ w, writeItems items w = none := by
  induction items with
  | nil =>
    obtain ⟨it, hit, -⟩ := h
    exact absurd hit List.not_mem_nil
  | cons it items ih =>
    intro w
    by_cases hsrc : it.Sourced
    · have hrest : ∃ it ∈ items, ¬ it.Sourced := by
        obtain ⟨it', hit', hsrc'⟩ := h
        rcases List.mem_cons.mp hit' with rfl | hit'
        · exact absurd hsrc hsrc'
        · exact ⟨it', hit', hsrc'⟩
      have hnone : writeItems items = fun _ => none := funext (ih hrest)
      rw [writeItems, hnone, Option.bind_fun_none]
    · rw [writeItems, write_eq_none hsrc, Option.bind_none]

/-! ### Packets -/

section Packets
variable {b : Buf} {fmt : List Specifier} {vs : Outs fmt} {stop : Nat}

/-- What a decoding without an error says about the bytes. -/
theorem decoded (hsize : b.size < 2 ^ 32) (h : genReadTo b fmt = some (vs, ⟨stop, false⟩)) :
    Inside b.mem b.size fmt ITEMS_OFFSET ∧ itemsOk b.mem fmt ITEMS_OFFSET = true ∧
      b.mem.Holds ELUARPC_START_OFFSET startBytes ∧ vs = itemsValue b.mem fmt ITEMS_OFFSET ∧
      stop = itemsEnd b.mem fmt ITEMS_OFFSET ∧ ITEMS_OFFSET ≤ b.size := by
  rw [genReadTo_eq b hsize] at h
  split at h
  · next hinside =>
      rw [Option.some.injEq, Prod.mk.injEq, Reader.mk.injEq, Bool.not_eq_false',
        Bool.and_eq_true] at h
      obtain ⟨hvs, hstop, hstart, hok⟩ := h
      exact ⟨hinside.2, hok, holds_of_markOk hstart, hvs.symm, hstop.symm, hinside.1⟩
  · cases h

/-- Where the lengths fit, the packet has the body that the decoded values are written with. -/
theorem body_of_lengthsFit (hsize : b.size < 2 ^ 32)
    (h : genReadTo b fmt = some (vs, ⟨stop, false⟩)) (hfit : LengthsFit b.mem fmt ITEMS_OFFSET) :
    (∀ it ∈ itemsOf b fmt vs, it.Sourced) ∧ stop = packetSize (itemsOf b fmt vs) ∧
      ∀ m₀, b.mem.Holds ELUARPC_START_OFFSET (packetBody m₀ (itemsOf b fmt vs)) := by
  obtain ⟨hinside, hok, hstart, rfl, hstop, -⟩ := decoded hsize h
  obtain ⟨hsrc, hend, hholds⟩ := itemsOf_spec fmt ITEMS_OFFSET hinside hok hfit
  refine ⟨hsrc, hstop.trans hend, fun m₀ => ?_⟩
  rw [packetBody, List.append_assoc, Mem.holds_append]
  exact ⟨hstart, hholds m₀ ITEMS_OFFSET⟩

/-- Two memories that hold the same bytes agree on them. -/
theorem agree_of_holds {m m' : Mem} {a : Nat} {bs : List UInt8} (h : m.Holds a bs)
    (h' : m'.Holds a bs) : Mem.Agree m m' a (a + bs.length) := by
  rw [Mem.holds_iff_getElem] at h h'
  intro x hlo hhi
  have hk : x - a < bs.length := by omega
  have hx := h (x - a) hk
  have hx' := h' (x - a) hk
  rw [Nat.add_sub_cancel' hlo] at hx hx'
  rw [hx, hx']

theorem reproduces_of_lengthsFit (hsize : b.size < 2 ^ 32)
    (h : genReadTo b fmt = some (vs, ⟨stop, false⟩)) (hfit : LengthsFit b.mem fmt ITEMS_OFFSET) :
    Reproduces b fmt vs stop := by
  obtain ⟨hsrc, hstop, hbody⟩ := body_of_lengthsFit hsize h hfit
  intro target htarget hroom
  have hwrite := genWrite_eq target htarget hsrc (hstop ▸ hroom)
  refine ⟨_, hwrite, ?_⟩
  have hlen := length_packetBody target.mem hsrc
  rw [← hstop] at hlen
  have hagree := agree_of_holds (hbody target.mem)
    (Mem.holds_store_self target.mem ELUARPC_START_OFFSET _)
  rw [hlen] at hagree
  -- the size in front does not reach the body
  intro x hlo hhi
  rw [hagree x hlo hhi]
  exact (Mem.store_of_ge _ 0 _ hlo).symm

theorem lengthsFit_of_reproduces (hsize : b.size < 2 ^ 32)
    (h : genReadTo b fmt = some (vs, ⟨stop, false⟩)) (hrep : Reproduces b fmt vs stop) :
    LengthsFit b.mem fmt ITEMS_OFFSET := by
  obtain ⟨hinside, -, -, rfl, rfl, -⟩ := decoded hsize h
  by_contra hfit
  have hnone := writeItems_eq_none (itemsOf_not_sourced hsize fmt ITEMS_OFFSET hinside hfit)
  -- there is no source to write from, whatever packet is written
  obtain ⟨buf', hwrite, -⟩ := hrep b hsize (itemsEnd_le b.mem fmt _ hinside)
  rw [eluarpcGenWrite] at hwrite
  simp only [hnone, Option.bind_eq_bind, Option.bind_none, Option.bind_fun_none] at hwrite
  cases hwrite

/-- What is decoded without an error gives the same bytes again if and only if no length goes
around the address space. Then another packet that decodes to the same values has the same
bytes. -/
theorem strict_iff (b : Buf) (fmt : List Specifier) (vs : Outs fmt) (stop : Nat)
    (hsize : b.size < 2 ^ 32) (h : genReadTo b fmt = some (vs, ⟨stop, false⟩)) :
    (Reproduces b fmt vs stop ↔ LengthsFit b.mem fmt ITEMS_OFFSET) ∧
      (LengthsFit b.mem fmt ITEMS_OFFSET → ∀ b' vs' stop', b'.size < 2 ^ 32 →
        genReadTo b' fmt = some (vs', ⟨stop', false⟩) → LengthsFit b'.mem fmt ITEMS_OFFSET →
        itemsOf b' fmt vs' = itemsOf b fmt vs →
        stop' = stop ∧ Mem.Agree b.mem b'.mem ELUARPC_START_OFFSET stop) := by
  refine ⟨⟨lengthsFit_of_reproduces hsize h, reproduces_of_lengthsFit hsize h⟩, ?_⟩
  intro hfit b' vs' stop' hsize' h' hfit' hsame
  obtain ⟨hsrc, hstop, hbody⟩ := body_of_lengthsFit hsize h hfit
  obtain ⟨-, hstop', hbody'⟩ := body_of_lengthsFit hsize' h' hfit'
  rw [hsame] at hstop' hbody'
  refine ⟨hstop'.trans hstop.symm, ?_⟩
  have hagree := agree_of_holds (hbody b.mem) (hbody' b.mem)
  rwa [length_packetBody b.mem hsrc, ← hstop] at hagree

end Packets

/-! #### A length that goes around -/

/-- Two words and a pointer. The last byte of the first word and the second word are the end of a
packet, and the length of the pointer goes around the address space to it. -/
def loopPacket : List UInt8 :=
  [0xA5, 0x02, 26, 0, 0x05, 0x03, 0x84, 0xC2, 0xAF, 0x18,
    0x03, 0, 0, 0, 0x06, 0x03, 0x7B, 0x3D, 0x50, 0xE7,
    0x04, 0x03, 0xF4, 0xFF, 0xFF, 0xFF]

def loopBuf : Buf := ⟨fun a => loopPacket.getD a 0, 26⟩

/-- It is decoded without an error. -/
theorem loopBuf_decoded : ∃ vs, genReadTo loopBuf [.l, .l, .p] = some (vs, ⟨20, false⟩) := by
  have hinside : ITEMS_OFFSET ≤ loopBuf.size ∧
      Inside loopBuf.mem loopBuf.size [.l, .l, .p] ITEMS_OFFSET := by decide +kernel
  have hstop : itemsEnd loopBuf.mem [.l, .l, .p] ITEMS_OFFSET = 20 := by decide +kernel
  have hok : (markOk loopBuf.mem ELUARPC_START_OFFSET TYPE_START PACKET_SIG &&
      itemsOk loopBuf.mem [.l, .l, .p] ITEMS_OFFSET) = true := by decide +kernel
  refine ⟨itemsValue loopBuf.mem [.l, .l, .p] ITEMS_OFFSET, ?_⟩
  rw [genReadTo_eq loopBuf (by decide), if_pos hinside, hstop, hok]
  rfl

/-- A packet is decoded without an error whose length leads from its
last item back to the end mark. -/
theorem not_strict : ¬ ∀ (b : Buf) (fmt : List Specifier) (vs : Outs fmt) (stop : Nat),
    b.size < 2 ^ 32 → genReadTo b fmt = some (vs, ⟨stop, false⟩) → Reproduces b fmt vs stop := by
  intro h
  obtain ⟨vs, hread⟩ := loopBuf_decoded
  have hfit := lengthsFit_of_reproduces (by decide) hread (h _ _ _ _ (by decide) hread)
  have hlt : 20 + (6 + leVal (loopBuf.mem.read 22 4)) < 2 ^ 32 := hfit.2.2.1
  exact absurd hlt (by decide +kernel)

/-- For that packet neither side of the equivalence holds. -/
theorem strict_iff_loopBuf : ∃ vs : Outs [.l, .l, .p],
    (Reproduces loopBuf [.l, .l, .p] vs 20 ↔ LengthsFit loopBuf.mem [.l, .l, .p] ITEMS_OFFSET) ∧
      (LengthsFit loopBuf.mem [.l, .l, .p] ITEMS_OFFSET → ∀ b' vs' stop', b'.size < 2 ^ 32 →
        genReadTo b' [.l, .l, .p] = some (vs', ⟨stop', false⟩) →
        LengthsFit b'.mem [.l, .l, .p] ITEMS_OFFSET →
        itemsOf b' [.l, .l, .p] vs' = itemsOf loopBuf [.l, .l, .p] vs →
        stop' = 20 ∧ Mem.Agree loopBuf.mem b'.mem ELUARPC_START_OFFSET 20) := by
  obtain ⟨vs, hread⟩ := loopBuf_decoded
  exact ⟨vs, strict_iff loopBuf [.l, .l, .p] vs 20 (by decide) hread⟩

end Alcor.Proofs.Eluarpc
