import Alcor.Luarpc.Values
import Alcor.Proofs.Luarpc.Numbers

/-!
# `Alcor.Proofs.Luarpc.RoundTrip`: values that come back

What is written of a value is read as the value that is `delivered`, if
the value is `Transmissible` and both stacks have the slots for it:
`writeSlots` above the value that is written, `readSlots` above the stack
of the reader.

* `sent_value` is about a value, `sent_entries` about a table that is
  read into another; both are one induction. `delivered_data`: data with
  short strings is delivered as it is.
* `breaks_value`: a string of `2 ^ 31` bytes or more breaks the reader,
  because `transport_read_buffer` has an `int` for the length, and so
  does a nesting for which the stack has no slots.
* `roundTrips_iff`: so a value comes back just when its strings are short
  and its nesting fits. `nested_roundTrips_iff` says how deep that is in
  a function of C.
-/

set_option autoImplicit false

namespace Alcor.Proofs.Luarpc

open Lib (bytesIn valIn)
open Alcor.Luarpc

variable {bs s : List UInt8} {k n c : Nat} {h : Helper}

/-! ### Data -/

section Data
variable {N : Type} (numEq : N → N → Bool)

/-- The keys of a table. -/
def keys : Entries N → List (Value N)
  | .done            => []
  | .entry key _ rest => key :: keys rest

/-- The entries of one table and then those of another. -/
def append (other : Entries N) : Entries N → Entries N
  | .done                 => other
  | .entry key value rest => .entry key value (append other rest)

mutual

/-- A value built from `nil`, booleans, numbers, strings and tables. The keys of a table are keys,
and different ones, and its values are not `nil`. -/
def IsData : Value N → Prop
  | .string s      => s.length < 2 ^ 32
  | .table entries => AreData entries
  | .object _      => False
  | _              => True

def AreData : Entries N → Prop
  | .done                 => True
  | .entry key value rest => IsData key ∧ IsData value ∧ isKey numEq key = true ∧
      value.isNil = false ∧ (∀ k ∈ keys rest, sameKey numEq key k = false) ∧ AreData rest

end

mutual

/-- All strings of a value, in keys and values. -/
def AllStrings (P : List UInt8 → Prop) : Value N → Prop
  | .string s      => P s
  | .table entries => AllEntries P entries
  | _              => True

def AllEntries (P : List UInt8 → Prop) : Entries N → Prop
  | .done                 => True
  | .entry key value rest => AllStrings P key ∧ AllStrings P value ∧ AllEntries P rest

end

/-- All strings of the value are shorter than `2 ^ 31` bytes. -/
abbrev ShortStrings (v : Value N) : Prop := AllStrings (fun s => s.length < 2 ^ 31) v

/-- A new key goes to the end. -/
theorem set_new {key value : Value N} (hvalue : value.isNil = false) :
    ∀ e : Entries N, (∀ k ∈ keys e, sameKey numEq k key = false) →
      e.set numEq key value = append (.entry key value .done) e
  | .done, _ => by rw [Entries.set, hvalue, append]; rfl
  | .entry k v rest, h => by
    rw [Entries.set, h k (List.mem_cons_self ..), append, set_new hvalue rest
      (fun k' hk' => h k' (List.mem_cons_of_mem _ hk'))]
    rfl

theorem keys_append (other : Entries N) :
    ∀ e : Entries N, keys (append other e) = keys e ++ keys other
  | .done => rfl
  | .entry k v rest => by rw [append, keys, keys, keys_append other rest, List.cons_append]

theorem append_done : ∀ e : Entries N, append .done e = e
  | .done => rfl
  | .entry k v rest => by rw [append, append_done rest]

theorem append_append (third other : Entries N) :
    ∀ e : Entries N, append third (append other e) = append (append third other) e
  | .done => rfl
  | .entry k v rest => by rw [append, append, append, append_append third other rest]

end Data

/-! ### Slots of the stack -/

section Slots
variable {N : Type} (dump : Nat → Option Written)

mutual

/-- The slots that `write_variable` takes above a value: two for each level of tables, but only one
for a table without entries. -/
def writeSlots : Value N → Nat
  | .table entries => max 1 (writeSlotsTable entries)
  | .object id     =>
    match dump id with
    | none                    => 0
    | some (.function _ slots) => slots
    | some (.helper _ _)       => 2
  | _              => 0

def writeSlotsTable : Entries N → Nat
  | .done                 => 0
  | .entry key value rest =>
    max (2 + max (writeSlots key) (writeSlots value)) (writeSlotsTable rest)

end

mutual

/-- The slots that `read_variable` takes for a value: the key of a table stands above the table, and
its value above the key. -/
def readSlots : Value N → Nat
  | .table entries => 1 + readSlotsTable entries
  | .object id     =>
    match dump id with
    | none                 => 0
    | some (.function _ _) => 3
    | some (.helper _ h)   => indexSlots (tokens h.path)
  | _              => 1

def readSlotsTable : Entries N → Nat
  | .done                 => 0
  | .entry key value rest =>
    max (max (readSlots key) (1 + readSlots value)) (readSlotsTable rest)

end

/-- The slots that the reader takes for some values. -/
def argSlots : List (Value N) → Nat
  | []      => 0
  | v :: vs => max (readSlots dump v) (1 + argSlots vs)

/-- The stack has slots for so many values, all the time. -/
def HasRoom (lua : LuaState N) (k : Nat) : Prop := ∀ m, k ≤ lua.slots m ∧ k ≤ lua.slotsLoaded m

theorem HasRoom.mono {lua : LuaState N} {k' : Nat} (h : HasRoom lua k) (hle : k' ≤ k) :
    HasRoom lua k' :=
  fun m => ⟨Nat.le_trans hle (h m).1, Nat.le_trans hle (h m).2⟩

end Slots

/-! ### Strings and paths on the line -/

section Lines
variable {tpt : Transport}

/-- A word that was written. -/
theorem readU32_write (h : n < 2 ^ 32) (rest : List UInt8) :
    transportReadU32 tpt (transportWriteU32 tpt n ++ rest) = some (n, rest) := by
  have hlen := Lib.length_bytesIn tpt.netLittle 4 n
  rw [transportWriteU32, swapBytes_bytesIn, transportReadU32,
    if_neg (by rw [List.length_append]; omega), List.take_left' hlen, List.drop_left' hlen,
    swapBytes_line, Lib.valIn_bytesIn, Nat.mod_eq_of_lt (show n < 256 ^ 4 from h)]

theorem readString_write (h : s.length < 2 ^ 31) (rest : List UInt8) :
    readString tpt (transportWriteU32 tpt s.length ++ s ++ rest) = some (some (s, rest)) := by
  rw [readString, List.append_assoc, readU32_write (Nat.lt_trans h (by decide))]
  dsimp only
  rw [if_neg (Nat.not_le_of_lt h), if_neg (by rw [List.length_append]; omega), List.take_left,
    List.drop_left]

/-- Of a long string only the length is on the line, and what is read is not the string. -/
theorem readString_long (hlong : 2 ^ 31 ≤ n) (h : n < 2 ^ 32) (rest : List UInt8) :
    readString tpt (transportWriteU32 tpt n ++ rest) = none := by
  rw [readString, readU32_write h]
  exact if_pos hlong

theorem take_loopLength (h : s.length < 2 ^ 31) : s.take (loopLength s.length) = s := by
  rw [loopLength, if_pos h, List.take_length]

theorem length_dotted_le (funcname : FuncName) :
    ∀ parents : List FuncName, (dotted parents funcname).length ≤ 20 * (parents.length + 1)
  | []             => by
    have := funcname.length_lt
    rw [NUM_FUNCNAME_CHARS] at this
    simp only [dotted, List.flatMap_nil, List.nil_append, List.length_nil]
    omega
  | name :: parents => by
    have := name.length_lt
    have ih := length_dotted_le funcname parents
    rw [NUM_FUNCNAME_CHARS] at this
    rw [dotted] at ih ⊢
    simp only [List.flatMap_cons, List.length_append, List.length_cons, List.length_nil] at ih ⊢
    omega

/-- The names of fewer than `2 ^ 8` parents are all sent. -/
theorem Helper.sentPath_eq (hlen : h.parents.length < 2 ^ 8) : h.sentPath = h.path := by
  rw [Helper.sentPath, Helper.nparents, Nat.mod_eq_of_lt hlen, Nat.sub_self, List.drop_zero,
    Helper.path]

theorem Helper.length_sentPath (h : Helper) : h.sentPath.length < 2 ^ 31 := by
  have hle := length_dotted_le h.funcname (h.parents.drop (h.parents.length - h.nparents))
  have hcount : (h.parents.drop (h.parents.length - h.nparents)).length < 2 ^ 8 := by
    have hn : h.nparents < 2 ^ 8 := Nat.mod_lt _ (by decide)
    rw [List.length_drop]
    omega
  rw [Helper.sentPath]
  omega

/-- A path that was sent. -/
theorem readString_path (hlen : h.parents.length < 2 ^ 8) (rest : List UInt8) :
    readString tpt (helperRemoteIndex tpt h ++ rest) = some (some (h.path, rest)) := by
  rw [helperRemoteIndex, readString_write (Helper.length_sentPath h), Helper.sentPath_eq hlen]

end Lines

/-! ### What is made of a value -/

section Values
variable {N : Type} (lua : LuaState N) (dump : Nat → Option Written)

mutual

/-- What is made of a value on the other end. A function is loaded there, and a helper is what its
path leads to. -/
def delivered : Value N → Value N
  | .object id     =>
    match dump id with
    | none                    => .nil
    | some (.function code _) => lua.loadbuffer code
    | some (.helper _ h)      => (lua.fields (tokens h.path)).getD .nil
  | .table entries => .table (deliveredInto .done entries)
  | v              => v

def deliveredInto (acc : Entries N) : Entries N → Entries N
  | .done                 => acc
  | .entry key value rest =>
    deliveredInto (acc.set lua.numEq (delivered key) (delivered value)) rest

end

mutual

/-- A value that can be sent: its strings are short, its functions have code, its helpers are of
this connection and lead to something, and the keys of its tables are keys on the other end. -/
def Transmissible : Value N → Prop
  | .string s      => s.length < 2 ^ 31
  | .table entries => AllTransmissible entries
  | .object id     =>
    match dump id with
    | none                    => False
    | some (.function code _) => code.length < 2 ^ 31
    | some (.helper here h)   => here = true ∧ h.parents.length < 2 ^ 8 ∧ tokens h.path ≠ [] ∧
        (lua.fields (tokens h.path)).isSome = true
  | _              => True

def AllTransmissible : Entries N → Prop
  | .done                 => True
  | .entry key value rest => Transmissible key ∧ Transmissible value ∧
      isKey lua.numEq (delivered lua dump key) = true ∧ AllTransmissible rest

end

mutual

/-- Data with short strings is delivered as it is. -/
theorem delivered_data : ∀ v : Value N, IsData lua.numEq v → ShortStrings v →
    Transmissible lua dump v ∧ delivered lua dump v = v
  | .nil, _, _                  => ⟨trivial, rfl⟩
  | .boolean _, _, _            => ⟨trivial, rfl⟩
  | .number _, _, _             => ⟨trivial, rfl⟩
  | .string _, _, hshort        => ⟨hshort, rfl⟩
  | .table entries, hdata, hshort => by
    obtain ⟨hsent, hinto⟩ := delivered_entries entries hdata hshort
    refine ⟨hsent, ?_⟩
    rw [delivered, hinto .done (fun k hk => absurd hk List.not_mem_nil)]
    rfl
  | .object _, hdata, _         => hdata.elim

/-- The entries are added behind those of a table with other keys. -/
theorem delivered_entries : ∀ entries : Entries N, AreData lua.numEq entries →
    AllEntries (fun s => s.length < 2 ^ 31) entries →
    AllTransmissible lua dump entries ∧
      ∀ acc, (∀ k ∈ keys acc, ∀ k' ∈ keys entries, sameKey lua.numEq k k' = false) →
        deliveredInto lua dump acc entries = append entries acc
  | .done, _, _                       => ⟨trivial, fun acc _ => (append_done acc).symm⟩
  | .entry key value rest, hdata, hshort => by
    obtain ⟨hkey, hvalue, hiskey, hnil, hnew, hrest⟩ := hdata
    obtain ⟨hksent, hkeq⟩ := delivered_data key hkey hshort.1
    obtain ⟨hvsent, hveq⟩ := delivered_data value hvalue hshort.2.1
    obtain ⟨hrsent, hinto⟩ := delivered_entries rest hrest hshort.2.2
    refine ⟨⟨hksent, hvsent, hkeq.symm ▸ hiskey, hrsent⟩, fun acc happart => ?_⟩
    have hset : acc.set lua.numEq key value = append (.entry key value .done) acc :=
      set_new lua.numEq hnil acc fun k hk => happart k hk key (List.mem_cons_self ..)
    rw [deliveredInto, hkeq, hveq, hset, hinto, append_append]
    · rfl
    · intro k hk k' hk'
      rw [keys_append, List.mem_append] at hk
      rcases hk with hold | hlast
      · exact happart k hold k' (List.mem_cons_of_mem _ hk')
      · rw [List.mem_singleton.mp hlast]
        exact hnew k' hk'

end

end Values

/-! ### Reading what was written -/

section Reading
variable {T : NumberType} {tpt : Transport} {lua : LuaState T.Carrier}
  {dump : Nat → Option Written}
variable {stack : List (Value T.Carrier)} {v : Value T.Carrier}

/-- A key and a value for the table below them. -/
theorem rawset_top {key value : Value T.Carrier} {entries : Entries T.Carrier}
    (hkey : isKey lua.numEq key = true) :
    rawset lua.numEq (stack.length + 1) (value :: key :: .table entries :: stack) =
      some (some (.table (entries.set lua.numEq key value) :: stack)) := by
  rw [rawset, if_neg (by rw [List.length_cons]; omega), hkey]
  simp

/-- A call that returns with this value if the stack has so many slots, for bytes of a value. -/
def ReadsValue (tpt : Transport) (lua : LuaState T.Carrier) (w : Value T.Carrier) (k : Nat)
    (bs : List UInt8) : Prop :=
  ∀ n rest stack, 2 * bs.length ≤ n → HasRoom lua (stack.length + k) →
    readVariable tpt lua n (bs ++ rest) stack = .ok true rest (w :: stack)

/-- A call that finds one value pushed. -/
theorem checked_push {w : Value T.Carrier} :
    Outcome.checked stack (.ok true bs (w :: stack)) = .ok true bs (w :: stack) := if_pos rfl

/-- A value that has a slot. -/
theorem push_eq (h : stack.length + 1 ≤ lua.slots bs.length) :
    push lua bs v stack = .ok true bs (v :: stack) := if_pos h

/-- A value that has a slot, at the end of a call. -/
theorem checked_pushed (h : HasRoom lua (stack.length + 1)) :
    Outcome.checked stack (push lua bs v stack) = .ok true bs (v :: stack) := by
  rw [push_eq (h _).1, checked_push]

/-- A marker. -/
theorem read_end (n : Nat) (rest : List UInt8) (stack : List (Value T.Carrier)) :
    readVariable tpt lua (n + 1) (RPC_TABLE_END :: rest) stack = .ok false rest stack := by
  rw [readVariable.eq_def]
  exact if_pos rfl

/-- The marker of a function. -/
theorem read_function_end (n : Nat) (rest : List UInt8) (stack : List (Value T.Carrier)) :
    readVariable tpt lua (n + 1) (RPC_FUNCTION_END :: rest) stack = .ok false rest stack := by
  rw [readVariable.eq_def]
  exact if_pos rfl

theorem sent_string (tpt : Transport) (lua : LuaState T.Carrier) (h : s.length < 2 ^ 31) :
    ReadsValue tpt lua (.string s) 1 (writeString tpt s) := by
  intro n rest stack hn hroom
  rw [writeString, take_loopLength h, List.cons_append] at *
  obtain ⟨n, rfl⟩ : ∃ m, n = m + 1 := ⟨n - 1, by rw [List.length_cons] at hn; omega⟩
  rw [List.cons_append, readVariable.eq_def]
  simp only [RPC_NIL, RPC_BOOLEAN, RPC_NUMBER, RPC_STRING, readString_write h]
  exact checked_pushed hroom

/-- The code of a function needs three slots of the reader. -/
theorem sent_function (lua : LuaState T.Carrier) {code : List UInt8}
    (hcode : code.length < 2 ^ 31) :
    ReadsValue tpt lua (lua.loadbuffer code) 3
      (RPC_FUNCTION :: writeString tpt code ++ [RPC_FUNCTION_END]) := by
  intro n rest stack hn hroom
  have hread := sent_string tpt lua hcode
  simp only [List.cons_append, List.length_cons, List.length_append, List.length_nil] at hn
  obtain ⟨n, rfl⟩ : ∃ m, n = m + 1 + 1 + 1 + 1 := ⟨n - 4, by omega⟩
  have hload (bs : List UInt8) : loadTop lua stack.length bs (.string code :: stack) =
      some (some (lua.loadbuffer code :: stack)) := by
    have hcan : lua.canLoad bs stack.length := by
      obtain ⟨hslots, hloaded⟩ := hroom bs.length
      exact ⟨by omega, by omega⟩
    rw [loadTop, if_neg (Nat.lt_irrefl _)]
    exact if_pos hcan
  rw [readVariable.eq_def]
  simp only [List.cons_append, List.append_assoc, List.nil_append, RPC_NIL, RPC_BOOLEAN,
    RPC_NUMBER, RPC_STRING, RPC_TABLE, RPC_TABLE_END, RPC_FUNCTION]
  rw [readFunction.eq_def]
  simp only [hread (n + 1 + 1) _ stack
    (show 2 * (writeString tpt code).length ≤ n + 1 + 1 by omega) (hroom.mono (by omega)), hload]
  rw [readFunction.eq_def]
  simp only [read_function_end]
  exact checked_push

theorem sent_helper (hlen : h.parents.length < 2 ^ 8) (hpath : tokens h.path ≠ [])
    (hv : lua.fields (tokens h.path) = some v) :
    ReadsValue tpt lua v (indexSlots (tokens h.path))
      (RPC_REMOTE :: helperRemoteIndex tpt h) := by
  intro n rest stack hn hroom
  rw [List.length_cons] at hn
  obtain ⟨n, rfl⟩ : ∃ m, n = m + 1 := ⟨n - 1, by omega⟩
  have hfits : ¬ (tokens h.path = [] ∨
      lua.slots rest.length < stack.length + indexSlots (tokens h.path)) := by
    rintro (hnil | hlt)
    · exact hpath hnil
    · exact Nat.not_le_of_lt hlt (hroom _).1
  rw [readVariable.eq_def]
  simp only [List.cons_append, RPC_NIL, RPC_BOOLEAN, RPC_NUMBER, RPC_STRING, RPC_TABLE,
    RPC_TABLE_END, RPC_FUNCTION, RPC_FUNCTION_END, RPC_REMOTE, readIndex, readString_path hlen,
    if_neg hfits, hv]
  exact checked_push

/-- The loop of a table, for bytes of entries. -/
def ReadsEntries (tpt : Transport) (lua : LuaState T.Carrier) (dump : Nat → Option Written)
    (entries : Entries T.Carrier) (bs : List UInt8) : Prop :=
  ∀ acc n rest stack, 2 * bs.length + 2 ≤ n →
    HasRoom lua (stack.length + 1 + readSlotsTable dump entries) →
    readTable tpt lua n (stack.length + 1) (bs ++ RPC_TABLE_END :: rest) (.table acc :: stack) =
      .ok true rest (.table (deliveredInto lua dump acc entries) :: stack)

theorem sent_table {entries : Entries T.Carrier} (h : ReadsEntries tpt lua dump entries bs) :
    ReadsValue tpt lua (delivered lua dump (.table entries)) (1 + readSlotsTable dump entries)
      (RPC_TABLE :: bs ++ [RPC_TABLE_END]) := by
  intro n rest stack hn hroom
  simp only [List.cons_append, List.length_cons, List.length_append, List.length_nil] at hn
  obtain ⟨n, rfl⟩ : ∃ m, n = m + 1 := ⟨n - 1, by omega⟩
  have hslot (m : Nat) : stack.length < lua.slots m := by
    have := (hroom m).1
    omega
  rw [readVariable.eq_def]
  simp only [List.cons_append, List.append_assoc, List.nil_append, RPC_NIL, RPC_BOOLEAN,
    RPC_NUMBER, RPC_STRING, RPC_TABLE, if_pos (hslot _),
    h .done n rest stack (by omega) (hroom.mono (by omega))]
  exact checked_push

/-- A value is written, if there are slots for it, and read. -/
def Sends (tpt : Transport) (lua : LuaState T.Carrier) (dump : Nat → Option Written)
    (v : Value T.Carrier) : Prop :=
  ∃ bs, (∀ room, writeSlots dump v ≤ room → writeVariable tpt dump room v = some bs) ∧
    ReadsValue tpt lua (delivered lua dump v) (readSlots dump v) bs

/-- A value of one tag and some bytes. -/
theorem sends_simple (hwrite : ∀ room, writeVariable tpt dump room v = some bs)
    (hdelivered : delivered lua dump v = v) (hslots : readSlots dump v = 1)
    (hread : ReadsValue tpt lua v 1 bs) : Sends tpt lua dump v := by
  refine ⟨bs, fun room _ => hwrite room, ?_⟩
  rw [hdelivered, hslots]
  exact hread

/-- Some byte is written of every value. -/
theorem ReadsValue.pos {w : Value T.Carrier} (h : ReadsValue tpt lua w k bs) {m : Nat}
    (hroom : HasRoom lua (m + k)) : 0 < bs.length := by
  rcases Nat.eq_zero_or_pos bs.length with hzero | hpos
  · obtain rfl := List.length_eq_zero_iff.mp hzero
    have hread := h 0 [] [] le_rfl (hroom.mono (by rw [List.length_nil]; omega))
    rw [readVariable.eq_def] at hread
    cases hread
  · exact hpos

mutual

/-- What is written of a value is delivered. -/
theorem sent_value (lua : LuaState T.Carrier) (dump : Nat → Option Written)
    (hformat : SameFormat tpt T) : ∀ v : Value T.Carrier, Transmissible lua dump v →
    Sends tpt lua dump v
  | .nil, _           => by
    refine sends_simple (fun _ => rfl) rfl rfl fun n rest stack hn hroom => ?_
    obtain ⟨n, rfl⟩ : ∃ m, n = m + 1 := ⟨n - 1, by rw [List.length_singleton] at hn; omega⟩
    rw [readVariable.eq_def]
    exact checked_pushed hroom
  | .boolean b, _     => by
    refine sends_simple (fun _ => rfl) rfl rfl fun n rest stack hn hroom => ?_
    obtain ⟨n, rfl⟩ : ∃ m, n = m + 1 := ⟨n - 1, by simp only [List.length_cons] at hn; omega⟩
    have hback : ((if b then 1 else 0 : UInt8) != 0) = b := by cases b <;> rfl
    rw [readVariable.eq_def]
    simp only [List.cons_append, List.nil_append, RPC_NIL, RPC_BOOLEAN, hback]
    exact checked_pushed hroom
  | .number x, _      => by
    obtain ⟨num, hwrite, hread⟩ := number_round_trip hformat x
    refine sends_simple (v := .number x) (fun _ => by rw [writeVariable, hwrite]; rfl)
      rfl rfl fun n rest stack hn hroom => ?_
    obtain ⟨n, rfl⟩ : ∃ m, n = m + 1 := ⟨n - 1, by rw [List.length_cons] at hn; omega⟩
    rw [readVariable.eq_def]
    simp only [List.cons_append, RPC_NIL, RPC_BOOLEAN, RPC_NUMBER, hread]
    exact checked_pushed hroom
  | .string s, h      => sends_simple (fun _ => rfl) rfl rfl (sent_string tpt lua h)
  | .table entries, h => by
    obtain ⟨bs, hwrite, hread⟩ := sent_entries lua dump hformat entries h
    refine ⟨RPC_TABLE :: bs ++ [RPC_TABLE_END], fun room hroom => ?_, sent_table hread⟩
    rw [writeSlots] at hroom
    rw [writeVariable, if_neg (by omega), hwrite room (by omega)]
    rfl
  | .object id, h     => by
    rw [Transmissible] at h
    rw [Sends, delivered, readSlots, writeSlots]
    simp only [writeVariable]
    cases hdump : dump id with
    | none =>
      rw [hdump] at h
      exact h.elim
    | some written =>
      rw [hdump] at h
      cases written with
      | function code slots =>
        refine ⟨_, fun room hroom => ?_, sent_function lua h⟩
        exact if_neg (Nat.not_lt_of_le hroom)
      | helper here helper =>
        obtain ⟨rfl, hlen, hpath, hsome⟩ := h
        obtain ⟨v, hv⟩ := Option.isSome_iff_exists.mp hsome
        refine ⟨_, fun room hroom => if_neg (Nat.not_lt_of_le hroom), ?_⟩
        simp only [hv, Option.getD_some]
        exact sent_helper hlen hpath hv

/-- What is written of the entries of a table is read into a table. -/
theorem sent_entries (lua : LuaState T.Carrier) (dump : Nat → Option Written)
    (hformat : SameFormat tpt T) : ∀ entries : Entries T.Carrier,
    AllTransmissible lua dump entries →
    ∃ bs, (∀ room, writeSlotsTable dump entries ≤ room →
      writeTable tpt dump room entries = some bs) ∧ ReadsEntries tpt lua dump entries bs
  | .done, _                 => by
    refine ⟨[], fun _ _ => rfl, fun acc n rest stack hn _ => ?_⟩
    obtain ⟨n, rfl⟩ : ∃ m, n = m + 1 + 1 := ⟨n - 2, by omega⟩
    rw [readTable.eq_def]
    simp only [List.nil_append, read_end]
    rfl
  | .entry key value more, h => by
    obtain ⟨hkey, hvalue, hiskey, hmore⟩ := h
    obtain ⟨kb, hkw, hkread⟩ := sent_value lua dump hformat key hkey
    obtain ⟨vb, hvw, hvread⟩ := sent_value lua dump hformat value hvalue
    obtain ⟨mb, hmw, hmread⟩ := sent_entries lua dump hformat more hmore
    refine ⟨kb ++ vb ++ mb, fun room hroom => ?_, fun acc n rest stack hn hroom => ?_⟩
    · rw [writeSlotsTable] at hroom
      rw [writeTable, if_neg (by omega), hkw _ (by omega), hvw _ (by omega), hmw _ (by omega)]
      rfl
    · rw [readSlotsTable] at hroom
      rw [List.length_append, List.length_append] at hn
      have hkroom : HasRoom lua (stack.length + 1 + readSlots dump key) := hroom.mono (by omega)
      have hpos := hkread.pos hkroom
      obtain ⟨n, rfl⟩ : ∃ m, n = m + 1 := ⟨n - 1, by omega⟩
      rw [readTable.eq_def]
      simp only [List.append_assoc,
        hkread n _ (.table acc :: stack) (show 2 * kb.length ≤ n by omega) hkroom,
        hvread n _ (_ :: .table acc :: stack) (show 2 * vb.length ≤ n by omega)
          (hroom.mono (by simp only [List.length_cons]; omega)), rawset_top hiskey]
      exact hmread _ n rest stack (by omega) (hroom.mono (by omega))

end

end Reading

/-! ### Writing and reading without the slots -/

section Overruns
variable {T : NumberType} {tpt : Transport} {lua : LuaState T.Carrier}
  {dump : Nat → Option Written}
variable {v : Value T.Carrier}

mutual

/-- The writer has no other slots. -/
theorem write_overrun : ∀ (v : Value T.Carrier) {room : Nat}, room < writeSlots dump v →
    writeVariable tpt dump room v = none
  | .nil, _, h            => absurd h (Nat.not_lt_zero _)
  | .boolean _, _, h      => absurd h (Nat.not_lt_zero _)
  | .number _, _, h       => absurd h (Nat.not_lt_zero _)
  | .string _, _, h       => absurd h (Nat.not_lt_zero _)
  | .table entries, room, h => by
    rw [writeSlots] at h
    rw [writeVariable]
    split
    · rfl
    · rw [write_overrun_table entries (by omega)]
      rfl
  | .object id, room, h   => by
    rw [writeSlots] at h
    rw [writeVariable]
    cases hdump : dump id with
    | none => rfl
    | some written =>
      rw [hdump] at h
      cases written <;> exact if_pos h

/-- The writer has no other slots for the entries either. -/
theorem write_overrun_table : ∀ (entries : Entries T.Carrier) {room : Nat},
    room < writeSlotsTable dump entries → writeTable tpt dump room entries = none
  | .done, _, h                    => absurd h (Nat.not_lt_zero _)
  | .entry key value rest, room, h => by
    rw [writeSlotsTable] at h
    rw [writeTable]
    split
    · rfl
    · -- the key, the value or the entries behind them
      rcases Nat.lt_or_ge (room - 2) (writeSlots dump key) with hkey | hkey
      · rw [write_overrun key hkey]
        rfl
      cases writeVariable tpt dump (room - 2) key with
      | none => rfl
      | some kb =>
        rcases Nat.lt_or_ge (room - 2) (writeSlots dump value) with hvalue | hvalue
        · rw [write_overrun value hvalue]
          rfl
        cases writeVariable tpt dump (room - 2) value with
        | none => rfl
        | some vb =>
          rw [write_overrun_table rest (by omega)]
          rfl

end

/-- What was written is what can be read. -/
theorem Sends.read {room : Nat} (h : Sends tpt lua dump v)
    (hwrite : writeVariable tpt dump room v = some bs) :
    ReadsValue tpt lua (delivered lua dump v) (readSlots dump v) bs := by
  obtain ⟨bs', hwrite', hread⟩ := h
  rcases Nat.lt_or_ge room (writeSlots dump v) with hlt | hge
  · rw [write_overrun v hlt] at hwrite
    cases hwrite
  · rwa [Option.some.inj (hwrite.symm.trans (hwrite' room hge))]

/-- The stack has just so many slots, all the time. -/
def HasSlots (lua : LuaState T.Carrier) (c : Nat) : Prop :=
  ∀ m, lua.slots m = c ∧ lua.slotsLoaded m = c

theorem HasSlots.room (h : HasSlots lua c) (hle : k ≤ c) : HasRoom lua k :=
  fun m => ⟨(h m).1.symm ▸ hle, (h m).2.symm ▸ hle⟩

/-- Data that is read, if its strings are short and there are slots for it. -/
theorem read_data (hformat : SameFormat tpt T) (hslots : HasSlots lua c)
    (hdata : IsData lua.numEq v) {room : Nat} (hwrite : writeVariable tpt dump room v = some bs)
    (hn : 2 * bs.length ≤ n) (rest : List UInt8) (stack : List (Value T.Carrier))
    (hfits : ¬ (¬ ShortStrings v ∨ c < stack.length + readSlots dump v)) :
    readVariable tpt lua n (bs ++ rest) stack = .ok true rest (v :: stack) := by
  rw [not_or, not_not, Nat.not_lt] at hfits
  obtain ⟨hsent, hsame⟩ := delivered_data lua dump v hdata hfits.1
  have hread := (sent_value lua dump hformat v hsent).read hwrite
  rw [hsame] at hread
  exact hread n rest stack hn (hslots.room hfits.2)

/-- A value without a slot, at the end of a call. -/
theorem checked_overrun (hslots : HasSlots lua c) {stack : List (Value T.Carrier)}
    (h : c < stack.length + 1) : Outcome.checked stack (push lua bs v stack) = .broken := by
  rw [push, (hslots _).1, if_neg (by omega)]
  rfl

mutual

/-- A long string, or a slot too many, breaks the reader. -/
theorem breaks_value (hformat : SameFormat tpt T) {c : Nat} (hslots : HasSlots lua c) :
    ∀ v : Value T.Carrier, IsData lua.numEq v → ∀ {room : Nat} {bs : List UInt8},
      writeVariable tpt dump room v = some bs → ∀ n rest stack, 2 * bs.length ≤ n →
      ¬ ShortStrings v ∨ c < stack.length + readSlots dump v →
      readVariable tpt lua n (bs ++ rest) stack = .broken
  | .nil, _, room, bs, hwrite, n, rest, stack, hn, h => by
    obtain rfl := Option.some.inj hwrite
    obtain ⟨n, rfl⟩ : ∃ m, n = m + 1 := ⟨n - 1, by rw [List.length_singleton] at hn; omega⟩
    rw [readVariable.eq_def]
    exact checked_overrun hslots (h.resolve_left (not_not_intro trivial))
  | .boolean b, _, room, bs, hwrite, n, rest, stack, hn, h => by
    obtain rfl := Option.some.inj hwrite
    obtain ⟨n, rfl⟩ : ∃ m, n = m + 1 := ⟨n - 1, by simp only [List.length_cons] at hn; omega⟩
    rw [readVariable.eq_def]
    exact checked_overrun hslots (h.resolve_left (not_not_intro trivial))
  | .number x, _, room, bs, hwrite, n, rest, stack, hn, h => by
    obtain ⟨num, hnum, hread⟩ := number_round_trip hformat x
    rw [writeVariable, hnum] at hwrite
    obtain rfl := Option.some.inj hwrite
    obtain ⟨n, rfl⟩ : ∃ m, n = m + 1 := ⟨n - 1, by rw [List.length_cons] at hn; omega⟩
    rw [readVariable.eq_def]
    simp only [List.cons_append, RPC_NIL, RPC_BOOLEAN, RPC_NUMBER, hread]
    exact checked_overrun hslots (h.resolve_left (not_not_intro trivial))
  | .string s, hdata, room, bs, hwrite, n, rest, stack, hn, h => by
    obtain rfl := Option.some.inj hwrite
    rw [writeString] at hn ⊢
    obtain ⟨n, rfl⟩ : ∃ m, n = m + 1 := ⟨n - 1, by
      simp only [List.cons_append, List.length_cons] at hn
      omega⟩
    rw [List.cons_append, List.cons_append, readVariable.eq_def]
    rcases Nat.lt_or_ge s.length (2 ^ 31) with hshort | hlong
    · simp only [RPC_NIL, RPC_BOOLEAN, RPC_NUMBER, RPC_STRING, take_loopLength hshort,
        readString_write hshort]
      exact checked_overrun hslots (h.resolve_left (not_not_intro hshort))
    · simp only [RPC_NIL, RPC_BOOLEAN, RPC_NUMBER, RPC_STRING, List.append_assoc,
        readString_long hlong hdata]
      rfl
  | .table entries, hdata, room, bs, hwrite, n, rest, stack, hn, h => by
    rw [writeVariable] at hwrite
    obtain ⟨-, hwrite⟩ := Option.ite_none_left_eq_some.mp hwrite
    obtain ⟨tb, htable, rfl⟩ := Option.map_eq_some_iff.mp hwrite
    simp only [List.cons_append, List.length_cons, List.length_append, List.length_nil] at hn
    obtain ⟨n, rfl⟩ : ∃ m, n = m + 1 := ⟨n - 1, by omega⟩
    rw [readVariable.eq_def]
    simp only [List.cons_append, List.append_assoc, List.nil_append, RPC_NIL, RPC_BOOLEAN,
      RPC_NUMBER, RPC_STRING, RPC_TABLE, (hslots _).1]
    by_cases hslot : stack.length < c
    · rw [readSlots, ← Nat.add_assoc] at h
      simp only [if_pos hslot, breaks_entries hformat hslots entries hdata htable .done n rest
        stack (by omega) hslot h]
      rfl
    · simp only [if_neg hslot]
      rfl
  | .object _, hdata, _, _, _, _, _, _, _, _ => hdata.elim

/-- The first entry that is too much breaks the loop. -/
theorem breaks_entries (hformat : SameFormat tpt T) {c : Nat} (hslots : HasSlots lua c) :
    ∀ entries : Entries T.Carrier, AreData lua.numEq entries → ∀ {room : Nat} {bs : List UInt8},
      writeTable tpt dump room entries = some bs → ∀ acc n rest stack, 2 * bs.length + 2 ≤ n →
      stack.length < c →
      ¬ AllEntries (fun s => s.length < 2 ^ 31) entries ∨
        c < stack.length + 1 + readSlotsTable dump entries →
      readTable tpt lua n (stack.length + 1) (bs ++ RPC_TABLE_END :: rest) (.table acc :: stack) =
        .broken
  | .done, _, room, bs, _, acc, n, rest, stack, _, hslot, h => by
    rcases h with h | h
    · exact absurd trivial h
    · rw [readSlotsTable] at h
      omega
  | .entry key value more, hdata, room, bs, hwrite, acc, n, rest, stack, hn, hslot, h => by
    obtain ⟨hkey, hvalue, hiskey, -, -, hmore⟩ := hdata
    rw [writeTable] at hwrite
    obtain ⟨-, hwrite⟩ := Option.ite_none_left_eq_some.mp hwrite
    obtain ⟨kb, hkw, hwrite⟩ := Option.bind_eq_some_iff.mp hwrite
    obtain ⟨vb, hvw, hwrite⟩ := Option.bind_eq_some_iff.mp hwrite
    obtain ⟨mb, hmw, rfl⟩ := Option.map_eq_some_iff.mp hwrite
    rw [List.length_append, List.length_append] at hn
    rw [readSlotsTable] at h
    obtain ⟨n, rfl⟩ : ∃ m, n = m + 1 := ⟨n - 1, by omega⟩
    rw [readTable.eq_def]
    simp only [List.append_assoc]
    by_cases hk : ¬ ShortStrings key ∨
        c < (Value.table acc :: stack).length + readSlots dump key
    · simp only [breaks_value hformat hslots key hkey hkw n _ (.table acc :: stack) (by omega) hk]
    have hkread := read_data hformat hslots hkey hkw (show 2 * kb.length ≤ n by omega)
      (vb ++ (mb ++ RPC_TABLE_END :: rest)) (.table acc :: stack) hk
    simp only [hkread]
    by_cases hv : ¬ ShortStrings value ∨
        c < (key :: Value.table acc :: stack).length + readSlots dump value
    · simp only [breaks_value hformat hslots value hvalue hvw n _ (key :: .table acc :: stack)
        (by omega) hv]
    have hvread := read_data hformat hslots hvalue hvw (show 2 * vb.length ≤ n by omega)
      (mb ++ RPC_TABLE_END :: rest) (key :: .table acc :: stack) hv
    have hkpos : 0 < kb.length :=
      ((sent_value lua dump hformat key (delivered_data lua dump key hkey
        (not_not.mp (not_or.mp hk).1)).1).read hkw).pos
        (hslots.room (Nat.le_of_not_lt (not_or.mp hk).2))
    simp only [hvread, rawset_top hiskey]
    -- what is too much comes behind this entry
    refine breaks_entries hformat hslots more hmore hmw _ n rest stack (by omega) hslot ?_
    rw [not_or, not_not, Nat.not_lt] at hk hv
    simp only [List.length_cons] at hk hv
    rcases h with h | h
    · exact .inl fun hshort => h ⟨hk.1, hv.1, hshort⟩
    · exact .inr (by omega)

end

end Overruns

/-! ### Round trips -/

section RoundTrips
variable {T : NumberType}

/-- Lua with a stack of these sizes. -/
def withSlots (lua : LuaState T.Carrier) (slots : Nat → Nat) : LuaState T.Carrier :=
  { lua with slots := slots, slotsLoaded := slots }

/-- What is written of the value, with so many slots above it, is read as the value, with so many
slots or more above the stack: one value is pushed, and just the bytes of the value are read. -/
def RoundTrips (tpt : Transport) (dump : Nat → Option Written) (lua : LuaState T.Carrier)
    (writeRoom readRoom : Nat) (v : Value T.Carrier) : Prop :=
  ∃ bs, writeVariable tpt dump writeRoom v = some bs ∧ ∀ slots rest stack,
    (∀ m, stack.length + readRoom ≤ slots m) →
    readVariableAll tpt (withSlots lua slots) (bs ++ rest) stack = .ok true rest (v :: stack)

variable {tpt : Transport} {dump : Nat → Option Written} {lua : LuaState T.Carrier}
  {writeRoom readRoom : Nat} {v : Value T.Carrier}

/-- A stack with no slot more would break the reader of a value that does not fit. -/
theorem fits_of_roundTrips (hformat : SameFormat tpt T) (hdata : IsData lua.numEq v)
    (h : RoundTrips tpt dump lua writeRoom readRoom v) :
    ShortStrings v ∧ writeSlots dump v ≤ writeRoom ∧ readSlots dump v ≤ readRoom := by
  obtain ⟨bs, hwrite, hread⟩ := h
  have hwroom : writeSlots dump v ≤ writeRoom := by
    by_contra hlt
    rw [write_overrun v (Nat.lt_of_not_le hlt)] at hwrite
    cases hwrite
  have hback := hread (fun _ => readRoom) [] [] (fun _ => by rw [List.length_nil]; omega)
  by_contra hnot
  have htoo : ¬ ShortStrings v ∨
      readRoom < ([] : List (Value T.Carrier)).length + readSlots dump v := by
    rw [List.length_nil, Nat.zero_add]
    by_contra hgood
    rw [not_or, not_not, Nat.not_lt] at hgood
    exact hnot ⟨hgood.1, hwroom, hgood.2⟩
  have hbreaks := breaks_value hformat
    (show HasSlots (withSlots lua fun _ => readRoom) readRoom from fun _ => ⟨rfl, rfl⟩) v hdata
    hwrite (2 * (bs ++ []).length + 2) [] []
    (by rw [List.length_append]; omega) htoo
  rw [readVariableAll, hbreaks] at hback
  cases hback

theorem roundTrips_of_fits (hformat : SameFormat tpt T) (hdata : IsData lua.numEq v)
    (hshort : ShortStrings v) (hwroom : writeSlots dump v ≤ writeRoom)
    (hrroom : readSlots dump v ≤ readRoom) : RoundTrips tpt dump lua writeRoom readRoom v := by
  obtain ⟨bs, hwrite, -⟩ :=
    sent_value lua dump hformat v (delivered_data lua dump v hdata hshort).1
  refine ⟨bs, hwrite _ hwroom, fun slots rest stack hslots => ?_⟩
  obtain ⟨hsent, hsame⟩ := delivered_data (withSlots lua slots) dump v hdata hshort
  have hread := (sent_value (withSlots lua slots) dump hformat v hsent).read (hwrite _ hwroom)
  rw [hsame] at hread
  refine hread _ rest stack (by rw [List.length_append]; omega) fun m => ?_
  have hle : stack.length + readSlots dump v ≤ slots m :=
    Nat.le_trans (Nat.add_le_add_left hrroom _) (hslots m)
  exact ⟨hle, hle⟩

/-- **Values over the line**: a value comes back just when its strings
are shorter than `2 ^ 31` bytes and both stacks have slots for its
nesting. By induction on the value; both sides keep two slots for each
table they are inside of. -/
theorem roundTrips_iff {tpt : Transport} (hformat : SameFormat tpt T)
    (dump : Nat → Option Written) (lua : LuaState T.Carrier) (writeRoom readRoom : Nat)
    (v : Value T.Carrier) (hdata : IsData lua.numEq v) :
    RoundTrips tpt dump lua writeRoom readRoom v ↔
      ShortStrings v ∧ writeSlots dump v ≤ writeRoom ∧ readSlots dump v ≤ readRoom :=
  ⟨fits_of_roundTrips hformat hdata, fun ⟨hshort, hwroom, hrroom⟩ =>
    roundTrips_of_fits hformat hdata hshort hwroom hrroom⟩

end RoundTrips

/-! ### A table, and a long string -/

/-- Both ends have integers of four bytes, and the order of the line is not theirs. -/
def intTransport : Transport := ⟨true, false, 4, true, true⟩

theorem sameFormat_int : SameFormat intTransport (intType 4) := .inl ⟨rfl, rfl, .inl rfl, rfl⟩

/-- A Lua without functions, with `LUA_MINSTACK` slots. -/
def plainLua : LuaState (intType 4).Carrier where
  numEq a b := a.val == b.val
  loadbuffer _ := .nil
  tostring _ := []
  fields _ := none
  slots _ := 20
  slotsLoaded _ := 20

/-- The number 7. -/
def seven : (intType 4).Carrier := (intType 4).ofInt 7

/-- `{ [ true ] = "ab", [ {} ] = 7 }` -/
def sampleTable : Value (intType 4).Carrier :=
  .table (.entry (.boolean true) (.string [97, 98])
    (.entry (.table .done) (.number seven) .done))

/-- A table with a nested one, over 20 slots at both ends. -/
theorem roundTrips_sample :
    RoundTrips intTransport (fun _ => none) plainLua 20 20 sampleTable := by
  refine (roundTrips_iff sameFormat_int _ _ _ _ _ ?_).mpr ⟨?_, by decide, by decide⟩
  · refine ⟨trivial, show 2 < 2 ^ 32 by decide, rfl, rfl, ?_, trivial, trivial, rfl, rfl, ?_,
      trivial⟩
    · intro k hk
      rw [List.mem_singleton.mp hk]
      rfl
    · exact fun k hk => absurd hk List.not_mem_nil
  · exact ⟨trivial, show 2 < 2 ^ 31 by decide, trivial, trivial, trivial⟩

/-- Of a string of `2 ^ 31` bytes only the length is on the line, whatever the stacks have. -/
theorem long_string_lost :
    ¬ ∃ writeRoom readRoom, RoundTrips intTransport (fun _ => none) plainLua writeRoom readRoom
      (.string (List.replicate (2 ^ 31) 97) : Value (intType 4).Carrier) := by
  rintro ⟨writeRoom, readRoom, h⟩
  have hdata : IsData plainLua.numEq
      (.string (List.replicate (2 ^ 31) 97) : Value (intType 4).Carrier) := by
    show (List.replicate (2 ^ 31) (97 : UInt8)).length < 2 ^ 32
    rw [List.length_replicate]
    decide
  have hshort : (List.replicate (2 ^ 31) (97 : UInt8)).length < 2 ^ 31 :=
    (fits_of_roundTrips sameFormat_int hdata h).1
  rw [List.length_replicate] at hshort
  omega

/-- A table in a table, so many times. -/
def nested : Nat → Value (intType 4).Carrier
  | 0     => .table .done
  | n + 1 => .table (.entry (.boolean true) (nested n) .done)

/-- Two slots for each level, and one for the innermost table. -/
theorem slots_nested (dump : Nat → Option Written) (n : Nat) :
    writeSlots dump (nested n) = 2 * n + 1 ∧ readSlots dump (nested n) = 2 * n + 1 := by
  induction n with
  | zero => exact ⟨rfl, rfl⟩
  | succ n ih =>
    obtain ⟨hwrite, hread⟩ := ih
    simp only [nested, writeSlots, writeSlotsTable, readSlots, readSlotsTable, hwrite, hread]
    omega

/-- A function of C is promised `LUA_MINSTACK` slots, which are 20: a table that is nested ten deep
is too much. -/
theorem nested_roundTrips_iff (dump : Nat → Option Written) (writeRoom readRoom n : Nat) :
    RoundTrips intTransport dump plainLua writeRoom readRoom (nested n) ↔
      2 * n + 1 ≤ writeRoom ∧ 2 * n + 1 ≤ readRoom := by
  have hdata : IsData plainLua.numEq (nested n) ∧ ShortStrings (nested n) := by
    induction n with
    | zero => exact ⟨trivial, trivial⟩
    | succ n ih =>
      have hnil : (nested n).isNil = false := by cases n <;> rfl
      exact ⟨⟨trivial, ih.1, rfl, hnil, fun _ hk => absurd hk List.not_mem_nil, trivial⟩,
        trivial, ih.2, trivial⟩
  obtain ⟨hwrite, hread⟩ := slots_nested dump n
  constructor
  · intro h
    obtain ⟨-, hw, hr⟩ := fits_of_roundTrips sameFormat_int hdata.1 h
    exact ⟨hwrite ▸ hw, hread ▸ hr⟩
  · rintro ⟨hw, hr⟩
    exact roundTrips_of_fits sameFormat_int hdata.1 hdata.2 (hwrite.symm ▸ hw) (hread.symm ▸ hr)

end Alcor.Proofs.Luarpc
