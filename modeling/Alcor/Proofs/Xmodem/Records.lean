import Alcor.Lib.Crc
import Alcor.Xmodem.Receive

/-!
# `Alcor.Proofs.Xmodem.Records`: what the checks of a record accept

The variable of the checksum has 32 bits and is cut to 16 at the end
only. Its lower half is a register as in `Lib.Crc` all the time, so the
checksum of a payload is the rest of a division of polynomials.

* `low_crcBit`: a pass for one bit shifts the register.
* `fold_dvd`: the register after a payload.
* `recordOk_iff`: `recordOk` accepts 132 bytes if and only if they are
  the number, its complement, a payload and two bytes that make the
  payload a multiple of the CRC polynomial.
-/

set_option autoImplicit false

namespace Alcor.Proofs.Xmodem

open Polynomial
open Lib.Crc (poly message shift generator)
open Alcor.Xmodem

/-- The CRC polynomial, `0x1021` below the leading term. -/
noncomputable def crcPolynomial : (ZMod 2)[X] := X ^ 16 + X ^ 12 + X ^ 5 + 1

theorem generator_eq : generator 16 0x1021 = crcPolynomial := by
  have hbits : (0x1021 : Nat) = 2 ^ 12 ^^^ 2 ^ 5 ^^^ 2 ^ 0 := by decide
  rw [generator, crcPolynomial, hbits, Lib.Crc.poly_xor, Lib.Crc.poly_xor]
  rw [Lib.Crc.poly_two_pow, Lib.Crc.poly_two_pow, Lib.Crc.poly_two_pow]
  ring

/-- The lower half of the checksum. -/
def low (chk : UInt32) : Nat := chk.toNat % 2 ^ 16

theorem low_lt (chk : UInt32) : low chk < 2 ^ 16 := Nat.mod_lt _ (by decide)

theorem test_iff (chk : UInt32) : chk &&& 0x8000 ≠ 0 ↔ (low chk).testBit 15 = true := by
  have hand : (chk &&& 0x8000).toNat = (chk.toNat.testBit 15).toNat * 2 ^ 15 := by
    rw [UInt32.toNat_and, ← Nat.and_two_pow]
    rfl
  rw [low, Nat.testBit_mod_two_pow, Ne, ← UInt32.toNat_inj, hand]
  cases chk.toNat.testBit 15 <;> simp

/-- A pass for one bit shifts the register. -/
theorem low_crcBit (chk : UInt32) : low (crcBit chk) = shift 16 0x1021 (low chk) := by
  have hshift : (chk <<< 1).toNat % 2 ^ 16 = 2 * (low chk % 2 ^ 15) := by
    rw [UInt32.toNat_shiftLeft, low, Nat.shiftLeft_eq]
    have hone : (1 : UInt32).toNat % 32 = 1 := rfl
    rw [hone]
    omega
  rw [crcBit, shift]
  by_cases h : chk &&& 0x8000 ≠ 0
  · rw [if_pos h, if_pos ((test_iff chk).mp h), low, UInt32.toNat_xor, Nat.xor_mod_two_pow, hshift]
    rfl
  · rw [if_neg h, if_neg (fun hb => h ((test_iff chk).mpr hb)), low, hshift]

/-- Some passes multiply by a power of `X`. -/
theorem iterate_dvd (n : Nat) (chk : UInt32) :
    crcPolynomial ∣ poly (low (crcBit^[n] chk)) + poly (low chk) * X ^ n := by
  induction n with
  | zero =>
    rw [Function.iterate_zero, id_eq, pow_zero, mul_one, Lib.Crc.two_eq_zero]
    exact dvd_zero _
  | succ n ih =>
    rw [Function.iterate_succ_apply', low_crcBit, ← generator_eq]
    rw [← generator_eq] at ih
    have hshift := Lib.Crc.shift_dvd (g := 0x1021) (by decide) (low_lt (crcBit^[n] chk))
    -- the two multiples have the register in between in common
    have hsum := dvd_add hshift (Dvd.dvd.mul_right ih X)
    have hcancel := Lib.Crc.two_eq_zero (poly (low (crcBit^[n] chk)) * X)
    have heq : poly (shift 16 0x1021 (low (crcBit^[n] chk))) + poly (low (crcBit^[n] chk)) * X +
        (poly (low (crcBit^[n] chk)) + poly (low chk) * X ^ n) * X =
        poly (shift 16 0x1021 (low (crcBit^[n] chk))) + poly (low chk) * X ^ (n + 1) +
          (poly (low (crcBit^[n] chk)) * X + poly (low (crcBit^[n] chk)) * X) := by ring
    rwa [heq, hcancel, add_zero] at hsum

theorem low_byte (chk : UInt32) (b : UInt8) :
    poly (low (chk ^^^ (b.toUInt32 <<< 8))) = poly (low chk) + poly b.toNat * X ^ 8 := by
  have hb : b.toNat < 2 ^ 8 := b.toNat_lt
  have hbyte : low (b.toUInt32 <<< 8) = b.toNat <<< 8 := by
    have height : (8 : UInt32).toNat % 32 = 8 := rfl
    rw [low, UInt32.toNat_shiftLeft, height, Nat.shiftLeft_eq, Nat.shiftLeft_eq,
      UInt8.toNat_toUInt32]
    omega
  rw [low, UInt32.toNat_xor, Nat.xor_mod_two_pow, Lib.Crc.poly_xor]
  rw [show (b.toUInt32 <<< 8).toNat % 2 ^ 16 = b.toNat <<< 8 from hbyte, Lib.Crc.poly_shiftLeft]
  rfl

/-- The register after a payload is congruent to the payload with sixteen bits behind it. -/
theorem fold_dvd (payload : List UInt8) :
    crcPolynomial ∣ poly (low (payload.foldl crcByte 0)) + message payload * X ^ 16 := by
  induction payload using List.reverseRecOn with
  | nil => simp [message, low, Lib.Crc.poly_zero]
  | append_singleton payload b ih =>
    rw [List.foldl_append, List.foldl_cons, List.foldl_nil, Lib.Crc.message_concat, crcByte]
    have hbits := iterate_dvd 8 (payload.foldl crcByte 0 ^^^ (b.toUInt32 <<< 8))
    rw [low_byte] at hbits
    have hsum := dvd_add hbits (Dvd.dvd.mul_right ih (X ^ 8))
    have hcancel := Lib.Crc.two_eq_zero (poly (low (payload.foldl crcByte 0)) * X ^ 8)
    generalize poly (low (crcBit^[8] (payload.foldl crcByte 0 ^^^ (b.toUInt32 <<< 8)))) = after
      at hsum ⊢
    have heq : after + (poly (low (payload.foldl crcByte 0)) + poly b.toNat * X ^ 8) * X ^ 8 +
        (poly (low (payload.foldl crcByte 0)) + message payload * X ^ 16) * X ^ 8 =
        after + (message payload * X ^ 8 + poly b.toNat) * X ^ 16 +
          (poly (low (payload.foldl crcByte 0)) * X ^ 8 +
            poly (low (payload.foldl crcByte 0)) * X ^ 8) := by ring
    rwa [heq, hcancel, add_zero] at hsum

theorem crc_toNat (payload : List UInt8) :
    (crc payload).toNat = low (payload.foldl crcByte 0) := by
  rw [crc, UInt32.toNat_and, low]
  exact Nat.and_two_pow_sub_one_eq_mod _ 16

/-- The two bytes behind a payload are its CRC if and only if they make it a multiple of the CRC
polynomial. -/
theorem crc_eq_iff (payload : List UInt8) (hi lo : UInt8) :
    (crc payload).toNat = hi.toNat * 256 + lo.toNat ↔
      crcPolynomial ∣ message (payload ++ [hi, lo]) := by
  have hhi : hi.toNat < 2 ^ 8 := hi.toNat_lt
  have hlo : lo.toNat < 2 ^ 8 := lo.toNat_lt
  have hmessage : message (payload ++ [hi, lo]) =
      message payload * X ^ 16 + poly (hi.toNat * 2 ^ 8 + lo.toNat) := by
    rw [show payload ++ [hi, lo] = payload ++ [hi] ++ [lo] by simp]
    rw [Lib.Crc.message_concat, Lib.Crc.message_concat, Lib.Crc.poly_append hlo]
    ring
  have hdvd := fold_dvd payload
  rw [← generator_eq] at hdvd ⊢
  rw [hmessage, crc_toNat]
  exact Lib.Crc.register_eq_iff (by decide) (low_lt _) (by omega) hdvd

/-- What is sent for a record behind its start of header. -/
def IsPacket (number : UInt8) (payload buf : List UInt8) : Prop :=
  payload.length = PACKET_SIZE ∧ ∃ hi lo : UInt8,
    buf = number :: ~~~number :: (payload ++ [hi, lo]) ∧
    crcPolynomial ∣ message (payload ++ [hi, lo])

theorem halves_iff (n : UInt32) (hn : n.toNat < 2 ^ 16) (hi lo : UInt8) :
    hi.toUInt32 = (n >>> 8) &&& 0xFF ∧ lo.toUInt32 = n &&& 0xFF ↔
      n.toNat = hi.toNat * 256 + lo.toNat := by
  have hhi : hi.toNat < 256 := hi.toNat_lt
  have hlo : lo.toNat < 256 := lo.toNat_lt
  have hmask : ∀ x : UInt32, (x &&& 0xFF).toNat = x.toNat % 2 ^ 8 := by
    intro x
    rw [UInt32.toNat_and]
    exact Nat.and_two_pow_sub_one_eq_mod _ 8
  have hshift : (n >>> 8).toNat = n.toNat / 2 ^ 8 := by
    rw [UInt32.toNat_shiftRight, Nat.shiftRight_eq_div_pow]
    rfl
  rw [← UInt32.toNat_inj, ← UInt32.toNat_inj, hmask, hmask, hshift, UInt8.toNat_toUInt32,
    UInt8.toNat_toUInt32]
  omega

/-- The checks accept exactly the packets with this number. -/
theorem recordOk_iff {number : UInt8} {buf : List UInt8} (hlen : buf.length = PACKET_SIZE + 4) :
    recordOk number buf = true ↔
      IsPacket number ((buf.drop 2).take PACKET_SIZE) buf := by
  -- the packet, byte by byte where it is checked
  obtain ⟨a, b, rest, rfl⟩ : ∃ a b rest, buf = a :: b :: rest := by
    match buf, hlen with
    | a :: b :: rest, _ => exact ⟨a, b, rest, rfl⟩
  simp only [List.length_cons] at hlen
  have hrest : rest.length = PACKET_SIZE + 2 := by omega
  obtain ⟨payload, hi, lo, rfl⟩ : ∃ payload hi lo, rest = payload ++ [hi, lo] := by
    have hdrop : (rest.drop PACKET_SIZE).length = 2 := by
      rw [List.length_drop, hrest]
      rfl
    match h : rest.drop PACKET_SIZE, hdrop with
    | [hi, lo], _ => exact ⟨rest.take PACKET_SIZE, hi, lo, by rw [← h, List.take_append_drop]⟩
  have hpayload : payload.length = PACKET_SIZE := by
    simp only [List.length_append, List.length_cons, List.length_nil] at hrest
    omega
  have htake : ((a :: b :: (payload ++ [hi, lo])).drop 2).take PACKET_SIZE = payload := by
    simp [← hpayload]
  have hhi : (a :: b :: (payload ++ [hi, lo])).getD (PACKET_SIZE + 2) 0 = hi := by
    simp [← hpayload]
  have hlo : (a :: b :: (payload ++ [hi, lo])).getD (PACKET_SIZE + 3) 0 = lo := by
    simp [← hpayload]
  rw [recordOk, htake]
  simp only [hhi, hlo, List.getD_cons_zero, List.getD_cons_succ, Bool.and_eq_true, beq_iff_eq]
  have hlow : (crc payload).toNat < 2 ^ 16 := by
    rw [crc_toNat]
    exact low_lt _
  have hhalves := (halves_iff (crc payload) hlow hi lo).trans (crc_eq_iff payload hi lo)
  constructor
  · rintro ⟨⟨⟨rfl, rfl⟩, h1⟩, h2⟩
    exact ⟨hpayload, hi, lo, rfl, hhalves.mp ⟨h1, h2⟩⟩
  · rintro ⟨-, hi', lo', heq, hdvd⟩
    simp only [List.cons.injEq, List.append_cancel_left_eq, and_true] at heq
    obtain ⟨rfl, rfl, rfl, rfl⟩ := heq
    have hboth := hhalves.mpr hdvd
    exact ⟨⟨⟨rfl, rfl⟩, hboth.1⟩, hboth.2⟩

end Alcor.Proofs.Xmodem
