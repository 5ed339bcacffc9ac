import Alcor.Luarpc.Values

/-!
# `Alcor.Proofs.Luarpc.Numbers`: which machines understand each other

* `negotiate_eq`: after the negotiation both ends have the same byte
  order, size and kind of numbers.
* `swapBytes_bytesIn` and `swapBytes_line`: on the line an integer stands
  in the byte order that was settled, and comes back as long as it fits.
* `arrives_of_compatible` and `compatible_of_arrives`: numbers arrive
  just when the machines are `Compatible`. A floating number is always
  sent with eight bytes, and an integer of eight bytes is read from a
  buffer of the size that was settled.
* `understand_iff` is the result, `not_understood` a pair of machines.
-/

set_option autoImplicit false

namespace Alcor.Proofs.Luarpc

open Lib (leBytes leVal bytesIn valIn)
open Alcor.Luarpc

variable {n : Int}

/-! ### Negotiation -/

/-- The transport of one end, when these are the two machines. -/
def settled (m other : Machine) : Transport where
  locLittle := m.little
  netLittle := m.little && other.little
  lnumBytes := min m.number.size other.number.size
  locIntnum := m.number.integral
  netIntnum := m.number.integral || other.number.integral

theorem settled_little (m other : Machine) :
    (settled m other).netLittle = (settled other m).netLittle := Bool.and_comm _ _

theorem settled_lnumBytes (m other : Machine) :
    (settled m other).lnumBytes = (settled other m).lnumBytes := Nat.min_comm _ _

theorem settled_intnum (m other : Machine) :
    (settled m other).netIntnum = (settled other m).netIntnum := Bool.or_comm _ _

/-- What client and server have settled. -/
theorem negotiate_eq (client server : Machine) :
    negotiate client server = (settled client server, settled server client) := by
  obtain ⟨cl, C⟩ := client
  obtain ⟨sl, S⟩ := server
  have hmin := Nat.min_comm C.size S.size
  cases cl <;> cases sl <;> cases hC : C.integral <;> cases hS : S.integral <;>
    simp [negotiate, serverNegotiate, clientNegotiate, clientHeader, settled, hC, hS, hmin]

/-! ### Byte order -/

/-- On the line, the bytes stand in the order of the line. -/
theorem swapBytes_bytesIn (tpt : Transport) (w n : Nat) :
    swapBytes tpt (bytesIn tpt.locLittle w n) = bytesIn tpt.netLittle w n := by
  obtain ⟨locLittle, netLittle, _, _, _⟩ := tpt
  cases locLittle <;> cases netLittle <;> simp [swapBytes, bytesIn]

/-- And in memory they stand in the order of the machine. -/
theorem swapBytes_line (tpt : Transport) (w n : Nat) :
    swapBytes tpt (bytesIn tpt.netLittle w n) = bytesIn tpt.locLittle w n := by
  obtain ⟨locLittle, netLittle, _, _, _⟩ := tpt
  cases locLittle <;> cases netLittle <;> simp [swapBytes, bytesIn]

theorem inMemory_eq (little : Bool) (bs : List UInt8) :
    inMemory little bs = bytesIn little bs.length (leVal bs) := by
  rw [inMemory, bytesIn, Lib.leBytes_leVal]

theorem inMemory_bytesIn (little : Bool) (w n : Nat) :
    inMemory little (bytesIn little w n) = leBytes w n := by
  cases little <;> simp [inMemory, bytesIn]

/-! ### Integers -/

/-- An integer type has the integers that are not changed when they are cut. -/
theorem represents_intType {w : Nat} : (intType w).Represents n ↔ wrap w n = n := Iff.rfl

section Line
variable {tpt : Transport} {T : NumberType}

/-- What is sent of an integer. -/
theorem write_int (x : T.Carrier) (hnet : tpt.netIntnum = true)
    (hsize : tpt.lnumBytes = 4 ∨ tpt.lnumBytes = 8) :
    transportWriteNumber tpt T x =
      some (bytesIn tpt.netLittle tpt.lnumBytes (bits tpt.lnumBytes (T.toInt x))) := by
  rw [transportWriteNumber, if_pos hnet, if_neg (by omega), if_pos (.inr hsize), swapBytes_bytesIn]

/-- A floating type reads it back. -/
theorem read_int_float (rest : List UInt8) (hnet : tpt.netIntnum = true)
    (hloc : tpt.locIntnum = false) (hsize : tpt.lnumBytes = 4 ∨ tpt.lnumBytes = 8)
    (hfits : wrap tpt.lnumBytes n = n) :
    transportReadNumber tpt T
        (bytesIn tpt.netLittle tpt.lnumBytes (bits tpt.lnumBytes n) ++ rest) =
      some (some (T.ofInt n, rest)) := by
  have hlen := Lib.length_bytesIn tpt.netLittle tpt.lnumBytes (bits tpt.lnumBytes n)
  rw [transportReadNumber, if_neg (by rw [List.length_append]; omega), List.take_left' hlen,
    List.drop_left' hlen, swapBytes_line]
  simp only
  rw [if_pos (by rw [hnet, hloc]; decide), if_pos (.inr (.inr hsize)), Lib.valIn_bytesIn,
    Nat.mod_eq_of_lt (bits_lt _ _), wrap_bits, hfits]

/-- Bytes that are those of a number come back as the number, when both ends have its type. -/
theorem read_native {x : T.Carrier} {v : Nat} (rest : List UInt8)
    (hkind : tpt.netIntnum = tpt.locIntnum) (hsize : T.size = tpt.lnumBytes)
    (hpattern : T.pattern x = leBytes tpt.lnumBytes v) :
    transportReadNumber tpt T (bytesIn tpt.netLittle tpt.lnumBytes v ++ rest) =
      some (some (x, rest)) := by
  have hlen := Lib.length_bytesIn tpt.netLittle tpt.lnumBytes v
  have hlen' := Lib.length_bytesIn tpt.locLittle tpt.lnumBytes v
  rw [transportReadNumber, if_neg (by rw [List.length_append]; omega), List.take_left' hlen,
    List.drop_left' hlen, swapBytes_line]
  simp only
  rw [if_neg (not_not_intro hkind), if_neg (by omega), List.take_of_length_le (by omega),
    inMemory_bytesIn, ← hpattern, T.ofPattern_pattern]

/-- What is sent of a floating number of eight bytes. -/
theorem write_float (x : T.Carrier) (hnet : tpt.netIntnum = false) (hsize : T.size = 8) :
    transportWriteNumber tpt T x = some (bytesIn tpt.netLittle 8 (leVal (T.pattern x))) := by
  have hlen : (T.pattern x).length = 8 := (T.length_pattern x).trans hsize
  have hlen' := Lib.length_bytesIn tpt.locLittle 8 (leVal (T.pattern x))
  rw [transportWriteNumber, hnet, if_neg (by decide), if_neg (by omega), inMemory_eq, hlen,
    List.take_of_length_le (by omega), swapBytes_bytesIn]

/-- Both ends have the same type of numbers: integers, or floating numbers of eight bytes. -/
def SameFormat (tpt : Transport) (T : NumberType) : Prop :=
  (tpt.netIntnum = true ∧ tpt.locIntnum = true ∧ (tpt.lnumBytes = 4 ∨ tpt.lnumBytes = 8) ∧
    T = intType tpt.lnumBytes) ∨
  (tpt.netIntnum = false ∧ tpt.locIntnum = false ∧ tpt.lnumBytes = 8 ∧ T.size = 8)

/-- Then every number comes back. -/
theorem number_round_trip (h : SameFormat tpt T) (x : T.Carrier) :
    ∃ bs, transportWriteNumber tpt T x = some bs ∧
      ∀ rest, transportReadNumber tpt T (bs ++ rest) = some (some (x, rest)) := by
  rcases h with ⟨hnet, hloc, hsize, htype⟩ | ⟨hnet, hloc, hbytes, hsize⟩
  · refine ⟨_, write_int x hnet hsize, fun rest =>
      read_native rest (hnet.trans hloc.symm) ?_ ?_⟩
    · rw [htype]
      rfl
    · subst htype
      rfl
  · have hpattern : T.pattern x = leBytes tpt.lnumBytes (leVal (T.pattern x)) := by
      have hlen : (T.pattern x).length = 8 := (T.length_pattern x).trans hsize
      rw [hbytes, ← hlen, Lib.leBytes_leVal]
    have hread := fun rest =>
      read_native rest (hnet.trans hloc.symm) (hsize.trans hbytes.symm) hpattern
    rw [hbytes] at hread
    exact ⟨_, write_float x hnet hsize, hread⟩

end Line

/-! ### Machines -/

/-- An integer sent by one end is read by the other, with nothing left over. -/
def Arrives (tptA tptB : Transport) (A B : NumberType) (n : Int) : Prop :=
  ∃ bs y, transportWriteNumber tptA A (A.ofInt n) = some bs ∧
    transportReadNumber tptB B bs = some (some (y, [])) ∧ B.toInt y = n

/-- Both ends hold the same configuration, and the integers of both types arrive in both
directions. -/
def Understand (client server : Machine) : Prop :=
  let tpts := negotiate client server
  (tpts.1.netLittle = tpts.2.netLittle ∧ tpts.1.lnumBytes = tpts.2.lnumBytes ∧
    tpts.1.netIntnum = tpts.2.netIntnum) ∧
  ∀ n, client.number.Represents n → server.number.Represents n →
    Arrives tpts.1 tpts.2 client.number server.number n ∧
      Arrives tpts.2 tpts.1 server.number client.number n

/-- Two floating types have eight bytes each, and an integer type of eight bytes is with a type of
eight bytes. -/
def Compatible (A B : NumberType) : Prop :=
  (A.integral = false → B.integral = false → A.size = 8 ∧ B.size = 8) ∧
    (A.integral = true → A.size = 8 → B.size = 8) ∧ (B.integral = true → B.size = 8 → A.size = 8)

section Machines
variable {float double : NumberType}

/-- The number types of the machines: integers and floating numbers of 4 and 8 bytes. -/
def Supported (float double T : NumberType) : Prop :=
  T = intType 4 ∨ T = intType 8 ∨ T = float ∨ T = double

/-- What is used of the floating types. -/
structure Floating (T : NumberType) (size : Nat) : Prop where
  size_eq : T.size = size
  integral_eq : T.integral = false
  zero : T.Represents 0

variable (hfloat : Floating float 4) (hdouble : Floating double 8)
include hfloat hdouble

theorem Supported.size_eq {T : NumberType} (h : Supported float double T) :
    T.size = 4 ∨ T.size = 8 := by
  rcases h with rfl | rfl | rfl | rfl
  · exact .inl rfl
  · exact .inr rfl
  · exact .inl hfloat.size_eq
  · exact .inr hdouble.size_eq

theorem Supported.zero {T : NumberType} (h : Supported float double T) : T.Represents 0 := by
  rcases h with rfl | rfl | rfl | rfl
  · exact represents_intType.mpr (by decide)
  · exact represents_intType.mpr (by decide)
  · exact hfloat.zero
  · exact hdouble.zero

/-- An integer type is the one of its size. -/
theorem Supported.eq_intType {T : NumberType} (h : Supported float double T)
    (hint : T.integral = true) : T = intType T.size := by
  rcases h with rfl | rfl | rfl | rfl
  · rfl
  · rfl
  · exact absurd (hfloat.integral_eq.symm.trans hint) (by decide)
  · exact absurd (hdouble.integral_eq.symm.trans hint) (by decide)

/-- A floating type of eight bytes is the one there is. -/
theorem Supported.eq_double {T : NumberType} (h : Supported float double T)
    (hfl : T.integral = false) (hsize : T.size = 8) : T = double := by
  rcases h with rfl | rfl | rfl | rfl
  · cases hfl
  · cases hfl
  · exact absurd (hfloat.size_eq.symm.trans hsize) (by decide)
  · rfl

variable {m other : Machine}
  (hm : Supported float double m.number) (hother : Supported float double other.number)
include hm hother

/-- Numbers of compatible machines arrive. -/
theorem arrives_of_compatible (hcomp : Compatible m.number other.number)
    (hrep : m.number.Represents n) (hrep' : other.number.Represents n) :
    Arrives (settled m other) (settled other m) m.number other.number n := by
  obtain ⟨hfl, hleft, hright⟩ := hcomp
  have hsizes := hm.size_eq hfloat hdouble
  have hsizes' := hother.size_eq hfloat hdouble
  have hbytes : (settled m other).lnumBytes = min m.number.size other.number.size := rfl
  have hbytes' := settled_lnumBytes m other
  by_cases hnet : (m.number.integral || other.number.integral) = true
  · -- integers on the line, which have the width of the integer type
    have hwrite : transportWriteNumber (settled m other) m.number (m.number.ofInt n) = _ :=
      write_int (m.number.ofInt n) hnet (by omega)
    rw [hrep, settled_little, settled_lnumBytes] at hwrite
    have hnet' : (settled other m).netIntnum = true := by rw [← settled_intnum]; exact hnet
    cases hint : other.number.integral with
    | true =>
      have hline : other.number.size = (settled other m).lnumBytes := by
        have := hright hint
        omega
      have hformat : SameFormat (settled other m) other.number :=
        .inl ⟨hnet', hint, by omega, hline ▸ hother.eq_intType hfloat hdouble hint⟩
      obtain ⟨bs, hback, hread⟩ := number_round_trip hformat (other.number.ofInt n)
      have hread := hread []
      rw [write_int _ hnet' (by omega), Option.some.injEq, hrep'] at hback
      rw [List.append_nil, ← hback] at hread
      exact ⟨_, _, hwrite, hread, hrep'⟩
    | false =>
      have hint' : m.number.integral = true := by simpa [hint] using hnet
      have hline : m.number.size = (settled other m).lnumBytes := by
        have := hleft hint'
        omega
      have hfits : wrap (settled other m).lnumBytes n = n := by
        have htype := hm.eq_intType hfloat hdouble hint'
        rw [hline] at htype
        rw [htype] at hrep
        exact represents_intType.mp hrep
      have hread := read_int_float (T := other.number) [] hnet' hint (by omega) hfits
      rw [List.append_nil] at hread
      exact ⟨_, _, hwrite, hread, hrep'⟩
  · rw [Bool.not_eq_true, Bool.or_eq_false_iff] at hnet
    obtain ⟨hsize, hsize'⟩ := hfl hnet.1 hnet.2
    have hoff : (settled other m).netIntnum = false := by
      rw [settled, hnet.1, hnet.2]
      rfl
    have htype := hm.eq_double hfloat hdouble hnet.1 hsize
    have htype' := hother.eq_double hfloat hdouble hnet.2 hsize'
    obtain ⟨bs, hwrite, hread⟩ := number_round_trip (.inr ⟨hoff, hnet.2, by omega, hsize'⟩)
      (other.number.ofInt n)
    have hread := hread []
    rw [write_float _ hoff hsize', Option.some.injEq] at hwrite
    rw [List.append_nil, ← hwrite, ← settled_little m other] at hread
    refine ⟨_, _, ?_, hread, hrep'⟩
    rw [write_float _ (by rw [settled_intnum]; exact hoff) hsize]
    obtain ⟨little, number⟩ := m
    obtain ⟨little', number'⟩ := other
    obtain rfl : number = double := htype
    obtain rfl : number' = number := htype'
    rfl

/-- Of incompatible machines one does not even get 0 to the other. -/
theorem compatible_of_arrives
    (h : Arrives (settled m other) (settled other m) m.number other.number 0)
    (h' : Arrives (settled other m) (settled m other) other.number m.number 0) :
    Compatible m.number other.number := by
  have hsizes := hm.size_eq hfloat hdouble
  have hsizes' := hother.size_eq hfloat hdouble
  -- a number that is read natively needs its bytes on the line
  have hnative : ∀ {a b : Machine}, a.number.integral = true →
      Arrives (settled b a) (settled a b) b.number a.number 0 →
      a.number.size ≤ b.number.size := by
    rintro a b hint ⟨bs, y, -, hread, -⟩
    by_contra hless
    rw [transportReadNumber] at hread
    split at hread
    · cases hread
    · simp only [settled, hint, Bool.true_or, ne_eq, not_true_eq_false, if_false] at hread
      rw [if_pos (by omega)] at hread
      cases hread
  -- a floating number is written with eight bytes
  have hfloating : ∀ {a b : Machine}, a.number.integral = false → b.number.integral = false →
      Arrives (settled a b) (settled b a) a.number b.number 0 → 8 ≤ a.number.size := by
    rintro a b hint hint' ⟨bs, y, hwrite, -, -⟩
    by_contra hless
    have hnet : (settled a b).netIntnum = false := by
      rw [settled, hint, hint']
      rfl
    rw [transportWriteNumber, hnet, if_neg (by decide), if_pos (by omega)] at hwrite
    cases hwrite
  refine ⟨fun hint hint' => ?_, fun hint hsize => ?_, fun hint hsize => ?_⟩
  · have hle := hfloating hint hint' h
    have hle' := hfloating hint' hint h'
    omega
  · have hle := hnative hint h'
    omega
  · have hle := hnative hint h
    omega

end Machines

/-- After the negotiation numbers arrive just when the machines are
compatible: two floating types have eight bytes each, and an integer
type of eight bytes is with a type of eight bytes. The number 0 is
enough for the one direction. -/
theorem understand_iff {float double : NumberType} (hfloat : Floating float 4)
    (hdouble : Floating double 8) (client server : Machine)
    (hclient : Supported float double client.number)
    (hserver : Supported float double server.number) :
    Understand client server ↔ Compatible client.number server.number := by
  rw [Understand, negotiate_eq]
  have hagree : (settled client server).netLittle = (settled server client).netLittle ∧
      (settled client server).lnumBytes = (settled server client).lnumBytes ∧
      (settled client server).netIntnum = (settled server client).netIntnum :=
    ⟨settled_little _ _, settled_lnumBytes _ _, settled_intnum _ _⟩
  constructor
  · rintro ⟨-, harrives⟩
    obtain ⟨h, h'⟩ := harrives 0 (hclient.zero hfloat hdouble) (hserver.zero hfloat hdouble)
    exact compatible_of_arrives hfloat hdouble hclient hserver h h'
  · intro hcomp
    have hcomp' : Compatible server.number client.number :=
      ⟨fun h h' => (hcomp.1 h' h).symm, hcomp.2.2, hcomp.2.1⟩
    exact ⟨hagree, fun n hrep hrep' =>
      ⟨arrives_of_compatible hfloat hdouble hclient hserver hcomp hrep hrep',
        arrives_of_compatible hfloat hdouble hserver hclient hcomp' hrep' hrep⟩⟩

/-! ### The types of the witness -/

theorem ofNat_leVal_leBytes (size : Nat) (x : Fin (256 ^ size)) :
    Fin.ofNat (256 ^ size) (leVal (leBytes size x.val)) = x := by
  rw [Lib.leVal_leBytes, Nat.mod_eq_of_lt x.isLt]
  exact Fin.ofNat_val_eq_self x

/-- A binary floating type with `mant` bits behind the leading one. An integer with more bits is cut
instead of rounded. -/
def binary (size mant bias : Nat) : NumberType where
  Carrier := Fin (256 ^ size)
  size := size
  integral := false
  toInt x :=
    let exponent := x.val % (256 ^ size / 2) / 2 ^ mant
    let digits := 2 ^ mant + x.val % 2 ^ mant
    let value := if exponent < bias then 0 else digits * 2 ^ (exponent - bias) / 2 ^ mant
    if x.val < 256 ^ size / 2 then (value : Int) else -(value : Int)
  ofInt n :=
    let exponent := Nat.log2 n.natAbs
    let digits := n.natAbs * 2 ^ mant / 2 ^ exponent % 2 ^ mant
    let value := if n = 0 then 0 else (exponent + bias) * 2 ^ mant + digits
    Fin.ofNat (256 ^ size) (value + if n < 0 then 256 ^ size / 2 else 0)
  pattern x := leBytes size x.val
  ofPattern bs := Fin.ofNat (256 ^ size) (leVal bs)
  length_pattern x := Lib.length_leBytes size x.val
  ofPattern_pattern _ := ofNat_leVal_leBytes size _

example : (binary 8 52 1023).pattern ((binary 8 52 1023).ofInt (-3)) =
    [0, 0, 0, 0, 0, 0, 0x08, 0xC0] := by decide +kernel

theorem binary_float : Floating (binary 4 23 127) 4 := ⟨rfl, rfl, by decide +kernel⟩

theorem binary_double : Floating (binary 8 52 1023) 8 := ⟨rfl, rfl, by decide +kernel⟩

/-- A little-endian machine with doubles and a big-endian one with integers of four bytes. -/
theorem understand_double_int : Understand ⟨true, binary 8 52 1023⟩ ⟨false, intType 4⟩ := by
  refine (understand_iff binary_float binary_double _ _ (.inr (.inr (.inr rfl))) (.inl rfl)).mpr
    ⟨fun _ h => ?_, fun h => ?_, fun _ h => ?_⟩
  · exact absurd h (by decide)
  · exact absurd h (by decide)
  · exact absurd h (by decide)

/-- With integers of eight bytes at one end and of four at the other, the one end takes eight bytes
of a buffer of four. -/
theorem not_understood : ¬ Understand ⟨true, intType 8⟩ ⟨true, intType 4⟩ := by
  rintro ⟨-, harrives⟩
  obtain ⟨-, bs, y, hwrite, hread, -⟩ := harrives 0 (by decide) (by decide)
  obtain rfl : [0, 0, 0, 0] = bs := Option.some.inj hwrite
  cases hread

end Alcor.Proofs.Luarpc
