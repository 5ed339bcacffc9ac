import Alcor.Proofs.Eluarpc.Packets

/-!
# `Alcor.Proofs.Eluarpc.RoundTrip`: what is written is read

`eluarpc_gen_read` on a packet of `eluarpc_gen_write` stores the values
that were written. The induction is on the items, with the reader where
the writer was.

* `wire_read`: an item takes the reader and the writer by the same number
  of bytes, and its value is read back.
* `itemsWire_read`: the same for a list of items.
* `packetMem_holds`: what stands in the object behind a call of the
  writer.
* `round_trip` puts both ends together, with the size in the packet and
  the frame.
-/

set_option autoImplicit false

namespace Alcor.Proofs.Eluarpc

open Lib
open Alcor.Eluarpc

/-! ### Delivery -/

/-- A pointer of the reader is `NULL` for no bytes. Else it points to as many bytes before `lim`,
that are those of the source unless this was `NULL`. -/
def DataDelivered (m : Mem) (lim : Nat) (ptr : Option Nat) (src : Option (List UInt8))
    (len : Nat) : Prop :=
  if len = 0 then ptr = none
  else ∃ a, ptr = some a ∧ a + len ≤ lim ∧ ∀ bs ∈ src, m.read a len = bs.take len

/-- What is stored for an item. -/
def Delivered (m : Mem) (lim : Nat) : (it : Item) → it.specifier.Out → Prop
  | .o _, _       => True
  | .r _, _       => True
  | .c x, v       => (v : UInt8) = x
  | .h x, v       => (v : UInt16) = x
  | .i x, v       => (v : Int32) = x
  | .l x, v       => (v : UInt32) = x
  | .L x, v       => (v : Int32) = x
  | .p src len, v =>
    have v : Option Nat × UInt32 := v
    v.2 = len ∧ DataDelivered m lim v.1 src len.toNat
  | .P src len, v =>
    have v : Option Nat × UInt16 := v
    v.2 = len ∧ DataDelivered m lim v.1 src len.toNat

/-- What is stored for the items of a packet. -/
def AllDelivered (m : Mem) (lim : Nat) :
    (items : List Item) → Outs (items.map Item.specifier) → Prop
  | [], _          => True
  | it :: items, v => Delivered m lim it v.1 ∧ AllDelivered m lim items v.2

/-! ### Words -/

section Words
variable {m : Mem} {a : Nat}

theorem half_of_holds {x : UInt16} (h : m.Holds a (leBytes 2 x.toNat)) :
    UInt16.ofNat (leVal (m.read a 2)) = x := by
  have hread : m.read a 2 = leBytes 2 x.toNat := h
  have hlt : x.toNat < 256 ^ 2 := x.toNat_lt
  rw [hread, leVal_leBytes, Nat.mod_eq_of_lt hlt, UInt16.ofNat_toNat]

theorem word_of_holds {x : UInt32} (h : m.Holds a (leBytes 4 x.toNat)) :
    UInt32.ofNat (leVal (m.read a 4)) = x ∧ leVal (m.read a 4) = x.toNat := by
  have hread : m.read a 4 = leBytes 4 x.toNat := h
  have hlt : x.toNat < 256 ^ 4 := x.toNat_lt
  rw [hread, leVal_leBytes, Nat.mod_eq_of_lt hlt, UInt32.ofNat_toNat]
  exact ⟨rfl, rfl⟩

theorem markOk_of_holds {tag : UInt8} {sig : UInt32} (h : m.Holds a (tag :: wordBytes sig)) :
    markOk m a tag sig = true := by
  rw [wordBytes, Mem.holds_cons, Mem.holds_cons] at h
  obtain ⟨htag, hint, hsig⟩ := h
  rw [markOk, htag, hint, (word_of_holds hsig).1]
  simp

end Words

/-! ### Items -/

section Items
variable {m m₀ : Mem} {a a₀ lim : Nat}

/-- The data behind the header of a pointer. -/
theorem data_of_holds {src : Option (List UInt8)} {len : Nat} (hsrc : Readable src len)
    (hdata : m.Holds a (dataBytes m₀ a₀ src len)) (hlim : a + len ≤ lim) :
    DataDelivered m lim (if len = 0 then none else some a) src len := by
  have hlength := length_dataBytes m₀ a₀ hsrc
  rw [DataDelivered]
  split
  · rfl
  · refine ⟨a, rfl, hlim, fun bs hbs => ?_⟩
    rw [Option.mem_def.mp hbs, dataBytes] at hdata hlength
    rw [Mem.Holds, hlength] at hdata
    exact hdata

/-- What the reader finds where an item was written. -/
theorem wire_read {it : Item} (hsrc : it.Sourced) (h : m.Holds a (it.wire m₀ a₀))
    (hlim : a + it.size ≤ lim) :
    it.specifier.extent m a = it.size ∧ it.specifier.tagsOk m a = true ∧
      Delivered m lim it (it.specifier.value m a) := by
  cases it with
  | o id =>
    rw [Item.wire, Mem.holds_cons, Mem.holds_cons] at h
    refine ⟨rfl, ?_, trivial⟩
    rw [Item.specifier, Specifier.tagsOk, h.1, h.2.1]
    simp
  | r id =>
    rw [Item.wire, Mem.holds_cons] at h
    refine ⟨rfl, ?_, trivial⟩
    rw [Item.specifier, Specifier.tagsOk, h.1]
    simp
  | c x =>
    rw [Item.wire, Mem.holds_cons, Mem.holds_cons] at h
    refine ⟨rfl, ?_, h.2.1⟩
    rw [Item.specifier, Specifier.tagsOk, h.1]
    rfl
  | h x =>
    rw [Item.wire, halfBytes, Mem.holds_cons] at h
    refine ⟨rfl, ?_, half_of_holds h.2⟩
    rw [Item.specifier, Specifier.tagsOk, h.1]
    rfl
  | i x =>
    rw [Item.wire, wordBytes, Mem.holds_cons] at h
    refine ⟨rfl, ?_, congrArg UInt32.toInt32 (word_of_holds h.2).1⟩
    rw [Item.specifier, Specifier.tagsOk, h.1]
    rfl
  | l x =>
    rw [Item.wire, wordBytes, Mem.holds_cons] at h
    refine ⟨rfl, ?_, (word_of_holds h.2).1⟩
    rw [Item.specifier, Specifier.tagsOk, h.1]
    rfl
  | L x =>
    rw [Item.wire, wordBytes, Mem.holds_cons] at h
    refine ⟨rfl, ?_, congrArg UInt32.toInt32 (word_of_holds h.2).1⟩
    rw [Item.specifier, Specifier.tagsOk, h.1]
    rfl
  | p src len =>
    rw [Item.wire, wordBytes, List.cons_append, List.cons_append, Mem.holds_cons,
      Mem.holds_cons, Mem.holds_append, length_leBytes] at h
    obtain ⟨htag, hint, hlen, hdata⟩ := h
    obtain ⟨hword, hval⟩ := word_of_holds hlen
    refine ⟨?_, ?_, ?_, ?_⟩
    · exact congrArg (ELUARPC_PTR_HEADER_SIZE + ·) hval
    · rw [Item.specifier, Specifier.tagsOk, htag, hint]
      rfl
    · exact hword
    · have hroom : a + 6 + len.toNat ≤ lim := by
        rw [Nat.add_assoc]
        exact hlim
      have hdelivered := data_of_holds hsrc hdata hroom
      rw [← hval] at hdelivered ⊢
      exact hdelivered
  | P src len =>
    rw [Item.wire, halfBytes, List.cons_append, List.cons_append, Mem.holds_cons,
      Mem.holds_cons, Mem.holds_append, length_leBytes] at h
    obtain ⟨htag, hint, hlen, hdata⟩ := h
    have hval : leVal (m.read (a + 2) 2) = len.toNat := by
      have hread : m.read (a + 2) 2 = leBytes 2 len.toNat := hlen
      have hlt : len.toNat < 256 ^ 2 := len.toNat_lt
      rw [hread, leVal_leBytes, Nat.mod_eq_of_lt hlt]
    refine ⟨?_, ?_, ?_, ?_⟩
    · exact congrArg (ELUARPC_SMALL_PTR_HEADER_SIZE + ·) hval
    · rw [Item.specifier, Specifier.tagsOk, htag, hint]
      rfl
    · exact half_of_holds hlen
    · have hroom : a + 4 + len.toNat ≤ lim := by
        rw [Nat.add_assoc]
        exact hlim
      have hdelivered := data_of_holds hsrc hdata hroom
      rw [← hval] at hdelivered ⊢
      exact hdelivered

/-- The loop of the reader where the items were written: by induction on the items, with both at
any position. -/
theorem itemsWire_read {n : Nat} (lim : Nat) (hn : n < 2 ^ 32) {items : List Item}
    (hsrc : ∀ it ∈ items, it.Sourced) :
    ∀ a a₀, m.Holds a (itemsWire m₀ a₀ items ++ endBytes) →
      a + itemsSize items + ELUARPC_END_SIZE ≤ n → a + itemsSize items ≤ lim →
      Inside m n (items.map Item.specifier) a ∧
        itemsOk m (items.map Item.specifier) a = true ∧
        itemsEnd m (items.map Item.specifier) a = a + itemsSize items + ELUARPC_END_SIZE ∧
        AllDelivered m lim items (itemsValue m (items.map Item.specifier) a) := by
  induction items with
  | nil =>
    intro a a₀ h hend _
    exact ⟨hend, markOk_of_holds h, rfl, trivial⟩
  | cons it items ih =>
    obtain ⟨hit, hitems⟩ := List.forall_mem_cons.mp hsrc
    intro a a₀ h hend hlim
    have hsum : itemsSize (it :: items) = it.size + itemsSize items := rfl
    rw [hsum] at hend hlim
    rw [itemsWire, List.append_assoc, Mem.holds_append, length_wire m₀ a₀ hit] at h
    obtain ⟨hextent, htags, hdelivered⟩ := wire_read hit h.1 (show a + it.size ≤ lim by omega)
    obtain ⟨hinside, hok, hstop, hrest⟩ := ih hitems (a + it.size) (a₀ + it.size) h.2
      (by omega) (by omega)
    have hnext : u32 (a + it.specifier.extent m a) = a + it.size := by
      rw [hextent]
      exact u32_of_lt (by omega)
    have hheader : it.specifier.header ≤ it.size := hextent ▸ Nat.le_add_right _ _
    refine ⟨⟨by omega, ?_⟩, ?_, ?_, hdelivered, ?_⟩
    · rwa [hnext]
    · rw [List.map_cons, itemsOk, htags, hnext, hok]
      rfl
    · rw [List.map_cons, itemsEnd, hnext, hstop]
      omega
    · show AllDelivered m lim items (itemsValue m _ (u32 (a + it.specifier.extent m a)))
      rwa [hnext]

end Items

/-! ### Packets -/

/-- A packet holds its body, and the size in front. -/
theorem packetMem_holds (m : Mem) (items : List Item) :
    (packetMem m items).Holds 0 (sizeBytes (packetSize items)) ∧
      (packetMem m items).Holds ELUARPC_START_OFFSET (packetBody m items) := by
  refine ⟨Mem.holds_store_self _ _ _, ?_⟩
  have hagree := Mem.agree_store_above (m.store ELUARPC_START_OFFSET (packetBody m items)) 0
    (ELUARPC_START_OFFSET + (packetBody m items).length) (sizeBytes (packetSize items))
  exact hagree.holds (Nat.le_refl 4) (Nat.le_refl _) (Mem.holds_store_self _ _ _)

/-- A packet that was written is read. -/
theorem genRead_genWrite (buf : Buf) (items : List Item) (hsize : buf.size < 2 ^ 32)
    (hsrc : ∀ it ∈ items, it.Sourced) (hfits : packetSize items ≤ buf.size)
    (hlen : packetSize items < 65536) :
    ∃ buf' vs, eluarpcGenWrite buf items = some buf' ∧
      eluarpcGenRead buf' (items.map Item.specifier) = some (false, vs) ∧
      AllDelivered buf'.mem (packetSize items) items vs ∧
      genReadTo buf' (items.map Item.specifier) = some (vs, ⟨packetSize items, false⟩) ∧
      (∃ psize, eluarpcGetPacketSize buf' = some (false, psize) ∧
        psize.toNat = packetSize items) ∧
      ∀ a, packetSize items ≤ a → buf'.mem a = buf.mem a := by
  have hwrite := genWrite_eq buf hsize hsrc hfits
  obtain ⟨hfront, hbody⟩ := packetMem_holds buf.mem items
  have hbodylen := length_packetBody buf.mem hsrc
  have htotal : packetSize items = ITEMS_OFFSET + itemsSize items + ELUARPC_END_SIZE := rfl
  rw [packetBody, List.append_assoc, Mem.holds_append] at hbody
  obtain ⟨hstart, hitems⟩ := hbody
  obtain ⟨hinside, hok, hstop, hdelivered⟩ := itemsWire_read (packetSize items) hsize hsrc
    ITEMS_OFFSET ITEMS_OFFSET hitems (by omega) (by omega)
  have hstartok : markOk (packetMem buf.mem items) ELUARPC_START_OFFSET TYPE_START PACKET_SIG =
      true := markOk_of_holds hstart
  have hoffset : ITEMS_OFFSET ≤ buf.size := by omega
  have hfour : 4 ≤ packetSize items := by
    rw [htotal, ITEMS_OFFSET, ELUARPC_START_OFFSET, ELUARPC_START_SIZE]
    omega
  have hread := genReadTo_eq { buf with mem := packetMem buf.mem items } hsize
    (items.map Item.specifier)
  rw [if_pos ⟨hoffset, hinside⟩, hstop, hstartok, hok, ← htotal] at hread
  rw [sizeBytes, halfBytes, Mem.holds_cons, Mem.holds_cons] at hfront
  obtain ⟨hpkt, hint, hpsize⟩ := hfront
  have hsizeok := getPacketSize_eq { buf with mem := packetMem buf.mem items }
  rw [if_pos (show ELUARPC_START_OFFSET ≤ buf.size from Nat.le_trans hfour hfits)] at hsizeok
  refine ⟨_, _, hwrite, ?_, hdelivered, hread, ⟨UInt16.ofNat (packetSize items), ?_, ?_⟩, ?_⟩
  · rw [eluarpcGenRead, hread]
    rfl
  · rw [hsizeok, half_of_holds hpsize]
    show some (!(packetMem buf.mem items 0 == TYPE_PKT_SIZE &&
      packetMem buf.mem items (0 + 1) == TYPE_INT_16), _) = _
    rw [hpkt, hint]
    rfl
  · exact UInt16.toNat_ofNat_of_lt' hlen
  · intro a ha
    have hbehind : ELUARPC_START_OFFSET + (packetBody buf.mem items).length ≤ a := by omega
    exact (Mem.store_of_ge _ 0 _ (show 0 + 4 ≤ a by omega)).trans
      (Mem.store_of_ge _ _ _ hbehind)

/-- What is written is read: the reader ends where the writer did, without an error, and stores
the values. The size in the packet is the number of bytes that the two went through, and no byte
behind them is changed. -/
theorem round_trip (buf : Buf) (items : List Item) (hsize : buf.size < 2 ^ 32)
    (hsrc : ∀ it ∈ items, it.Sourced) (hfits : packetSize items ≤ buf.size)
    (hlen : packetSize items < 65536) :
    ∃ buf' vs, eluarpcGenWrite buf items = some buf' ∧
      eluarpcGenRead buf' (items.map Item.specifier) = some (false, vs) ∧
      AllDelivered buf'.mem (packetSize items) items vs ∧
      genReadTo buf' (items.map Item.specifier) = some (vs, ⟨packetSize items, false⟩) ∧
      (∃ psize, eluarpcGetPacketSize buf' = some (false, psize) ∧
        psize.toNat = packetSize items) ∧
      ∀ a, packetSize items ≤ a → buf'.mem a = buf.mem a :=
  genRead_genWrite buf items hsize hsrc hfits hlen

/-- A request with two pointers, one of them without data. -/
def request : List Item := [.o 3, .p (some [1, 2, 3]) 3, .l 70000, .L (-5), .P none 0]

/-- A request with two words and two pointers, one of them without
data, in an object that is larger than the packet. -/
theorem round_trip_request :
    ∃ buf' vs, eluarpcGenWrite ⟨fun _ => 0, 64⟩ request = some buf' ∧
      eluarpcGenRead buf' (request.map Item.specifier) = some (false, vs) ∧
      AllDelivered buf'.mem (packetSize request) request vs ∧
      genReadTo buf' (request.map Item.specifier) = some (vs, ⟨packetSize request, false⟩) ∧
      (∃ psize, eluarpcGetPacketSize buf' = some (false, psize) ∧
        psize.toNat = packetSize request) ∧
      ∀ a, packetSize request ≤ a → buf'.mem a = (fun _ => 0 : Mem) a := by
  refine round_trip ⟨fun _ => 0, 64⟩ request (by decide) ?_ (by decide) (by decide)
  simp only [request, List.forall_mem_cons, Item.Sourced, Readable, true_and]
  exact ⟨fun bs hbs => Option.mem_some.mp hbs ▸ by decide, fun bs hbs => absurd hbs (by simp),
    fun it hit => absurd hit List.not_mem_nil⟩

end Alcor.Proofs.Eluarpc
