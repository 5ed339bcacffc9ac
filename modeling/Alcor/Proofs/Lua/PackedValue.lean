import Alcor.Lua.PackedValue

/-!
# `Alcor.Proofs.Lua.PackedValue`: values keep their type

On either endianness a number consists of the payload and of the tag
with the signature, so everything is arithmetic on these.

* `number_halves` and `tag_halves` are the halves of a cell.
* `seen_of_tagged` and `seen_number_iff`: what is seen of a value that
  was stored, for the setters of tagged values and for `setnvalue`.
  `seen_iff` is the result about one setter.
* `seen_setobj_iff`: what is seen of a copy.
* `writes_seen_iff`: the result about runs of setters and copies, with
  `Told` as the invariant of a place.
-/

set_option autoImplicit false

namespace Alcor.Proofs.Lua

open Lib (Mem)
open Alcor.Lua

variable {d : Datum}

section Halves
variable (little : Bool) (o : Mem)

/-- The halves of a number. -/
theorem number_halves :
    o.load little 0 8 = o.load little (payloadAt little) 4 + 2 ^ 32 * ttypeSig little o := by
  have hadd := o.load_add little 0 4 4
  cases little <;> simpa [payloadAt, ttypeSig, ttSigAt] using hadd

/-- The halves of the tag with the signature. -/
theorem tag_halves :
    ttypeSig little o =
      o.load little (ttAt little) 2 + 2 ^ 16 * o.load little (sigAt little) 2 := by
  have hadd := o.load_add little (ttSigAt little) 2 2
  cases little <;> simpa [ttypeSig, ttSigAt, ttAt, sigAt] using hadd

theorem ttype_eq : ttype little o =
    if ttypeSig little o / 2 ^ 16 = 0xffff then signed 2 (ttypeSig little o % 2 ^ 16)
    else 5 := by
  have hhalves := tag_halves little o
  have htt := o.load_lt little (ttAt little) 2
  have hsig := o.load_lt little (sigAt little) 2
  rw [ttype, tt, sig]
  generalize o.load little (ttAt little) 2 = a at *
  generalize o.load little (sigAt little) 2 = b at *
  rw [hhalves, show (a + 2 ^ 16 * b) / 2 ^ 16 = b by omega,
    show (a + 2 ^ 16 * b) % 2 ^ 16 = a by omega]
  -- as a `short`, the signature is -1
  have hiff : signed 2 b = LUA_NOTNUMBER_SIG ↔ b = 0xffff := by
    rw [signed, LUA_NOTNUMBER_SIG]
    split <;> omega
  simp only [hiff]
  rfl

theorem ttisnumber_eq : ttisnumber little o = true ↔ ttypeSig little o / 2 ^ 16 ≠ 0xffff := by
  have hhalves := tag_halves little o
  have htt := o.load_lt little (ttAt little) 2
  have hsig := o.load_lt little (sigAt little) 2
  rw [ttisnumber, sig, bne_iff_ne, signed, LUA_NOTNUMBER_SIG]
  split <;> omega

end Halves

theorem addSig_eq (t : LuaType) : addSig t.tag = 0xffff0000 + t.tag := by
  cases t <;> rfl

theorem tag_lt (t : LuaType) : t.tag < 12 := by
  cases t <;> decide

theorem tag_inj {t t' : LuaType} : t.tag = t'.tag ↔ t = t' := by
  cases t <;> cases t' <;> decide

variable {little : Bool} {o : Mem}

theorem hasSig_iff {t : LuaType} : hasSig little o t = true ↔ ttypeSig little o = addSig t.tag := by
  rw [hasSig, beq_iff_eq]

/-- A tag with the signature is seen as its type. -/
theorem seen_of_tag (htag : ttypeSig little o = addSig d.type.tag) (hne : d.type ≠ .number)
    (hacc : d.Accessed little o) : Seen little o d := by
  have hlt := tag_lt d.type
  rw [addSig_eq] at htag
  refine ⟨?_, ?_, hacc⟩
  · rw [ttype_eq, htag, if_pos (by omega), signed, if_pos (by omega)]
    omega
  · have hnumber : ttisnumber little o = true ↔ d.type = .number := by
      rw [ttisnumber_eq, htag]
      refine iff_of_false (fun h => h (by omega)) hne
    -- the tags of two types differ
    have hother (t : LuaType) : hasSig little o t = true ↔ d.type = t := by
      rw [hasSig_iff, htag, addSig_eq, ← tag_inj]
      omega
    intro test htest
    simp only [ttis, List.mem_cons, List.not_mem_nil, or_false] at htest
    rcases htest with rfl | rfl | rfl | rfl | rfl | rfl | rfl | rfl | rfl | rfl | rfl
    · exact hother _
    · exact hnumber
    all_goals exact hother _

/-- A pattern without the signature is seen as a number. -/
theorem seen_of_number {x : BitVec 64} (hx : ttypeSig little o / 2 ^ 16 ≠ 0xffff)
    (hacc : nvalue little o = x) : Seen little o (.number x) := by
  refine ⟨?_, ?_, hacc⟩
  · rw [ttype_eq, if_neg hx]
    rfl
  · -- all other tests look for the signature
    have hother (t : LuaType) (ht : t ≠ .number) :
        hasSig little o t = true ↔ (Datum.number x).type = t := by
      have hlt := tag_lt t
      rw [hasSig_iff, addSig_eq]
      exact iff_of_false (fun h => hx (by omega)) ht.symm
    intro test htest
    simp only [ttis, List.mem_cons, List.not_mem_nil, or_false] at htest
    rcases htest with rfl | rfl | rfl | rfl | rfl | rfl | rfl | rfl | rfl | rfl | rfl
    · exact hother _ (by decide)
    · exact iff_of_true ((ttisnumber_eq _ _).mpr hx) rfl
    all_goals exact hother _ (by decide)

/-! ### The setters -/

theorem ttypeSig_setTtypeSig (t : LuaType) :
    ttypeSig little (setTtypeSig little o t) = addSig t.tag := by
  have hlt := tag_lt t
  rw [ttypeSig, setTtypeSig, Mem.load_put, addSig_eq, Nat.mod_eq_of_lt (by omega)]

/-- The tag is not where the payload is. -/
theorem payload_setTagged (t : LuaType) (x : BitVec 32) :
    payload little (setTagged little o t x) = x := by
  have hdisjoint : payloadAt little + 4 ≤ ttSigAt little ∨
      ttSigAt little + 4 ≤ payloadAt little := by
    cases little <;> decide
  rw [payload, setTagged, setTtypeSig, Mem.load_put_of_disjoint _ _ _ hdisjoint, Mem.load_put,
    Nat.mod_eq_of_lt (show x.toNat < 256 ^ 4 from x.isLt), BitVec.ofNat_toNat, BitVec.setWidth_eq]

theorem load_setnvalue (x : BitVec 64) : (setnvalue little o x).load little 0 8 = x.toNat := by
  rw [setnvalue, Mem.load_put, Nat.mod_eq_of_lt (show x.toNat < 256 ^ 8 from x.isLt)]

theorem nvalue_setnvalue (x : BitVec 64) : nvalue little (setnvalue little o x) = x := by
  rw [nvalue, load_setnvalue, BitVec.ofNat_toNat, BitVec.setWidth_eq]

/-- The upper half of a number. -/
theorem ttypeSig_setnvalue (x : BitVec 64) :
    ttypeSig little (setnvalue little o x) = x.toNat / 2 ^ 32 := by
  have hhalves := number_halves little (setnvalue little o x)
  have hlow := (setnvalue little o x).load_lt little (payloadAt little) 4
  have hload : (setnvalue little o x).load little 0 8 = x.toNat := load_setnvalue x
  omega

/-- Every value but a number is seen as what it is, whatever was in the cell. -/
theorem seen_of_tagged (o : Mem) (h : d.type ≠ .number) : Seen little (d.set little o) d := by
  cases d with
  | nil => exact seen_of_tag (ttypeSig_setTtypeSig _) h trivial
  | number x => exact absurd rfl h
  | lightuserdata p => exact seen_of_tag (ttypeSig_setTtypeSig _) h (payload_setTagged _ p)
  | rotable p => exact seen_of_tag (ttypeSig_setTtypeSig _) h (payload_setTagged _ p)
  | lightfunction p => exact seen_of_tag (ttypeSig_setTtypeSig _) h (payload_setTagged _ p)
  | boolean b => exact seen_of_tag (ttypeSig_setTtypeSig _) h (payload_setTagged _ b)
  | string gc => exact seen_of_tag (ttypeSig_setTtypeSig _) h (payload_setTagged _ gc)
  | userdata gc => exact seen_of_tag (ttypeSig_setTtypeSig _) h (payload_setTagged _ gc)
  | thread gc => exact seen_of_tag (ttypeSig_setTtypeSig _) h (payload_setTagged _ gc)
  | function gc => exact seen_of_tag (ttypeSig_setTtypeSig _) h (payload_setTagged _ gc)
  | table gc => exact seen_of_tag (ttypeSig_setTtypeSig _) h (payload_setTagged _ gc)
  | proto gc => exact seen_of_tag (ttypeSig_setTtypeSig _) h (payload_setTagged _ gc)

/-- A number is seen as itself exactly if it has not the signature of the others. -/
theorem seen_number_iff (o : Mem) (x : BitVec 64) :
    Seen little (setnvalue little o x) (.number x) ↔ ¬ LooksTagged x := by
  have htag : ttypeSig little (setnvalue little o x) = x.toNat / 2 ^ 32 := ttypeSig_setnvalue x
  have hsplit : x.toNat / 2 ^ 32 / 2 ^ 16 = x.toNat / 2 ^ 48 := by
    rw [Nat.div_div_eq_div_mul, ← Nat.pow_add]
  constructor
  · intro h hlooks
    have htest := (h.ttis (.number, ttisnumber little (setnvalue little o x))
      (by simp [ttis])).mpr rfl
    rw [ttisnumber_eq, htag, hsplit] at htest
    exact htest hlooks
  · intro h
    refine seen_of_number ?_ (nvalue_setnvalue x)
    rw [htag, hsplit]
    exact h

/-- What a setter stores, by the two cases: a number is seen as itself
unless it looks tagged, and everything else always. -/
theorem seen_set_iff (o : Mem) (d : Datum) :
    Seen little (d.set little o) d ↔ ∀ x, d = .number x → ¬ LooksTagged x := by
  by_cases hnumber : d.type = .number
  · cases d with
    | number x =>
      rw [show Datum.set little o (.number x) = setnvalue little o x from rfl, seen_number_iff]
      constructor
      · rintro h y heq
        obtain rfl := Datum.number.inj heq
        exact h
      · exact fun h => h x rfl
    | _ => cases hnumber
  · refine iff_of_true (seen_of_tagged o hnumber) fun x heq => ?_
    rw [heq] at hnumber
    exact absurd rfl hnumber

/-- **Packed values**: on either endianness and whatever was in the cell,
the value that is stored is seen as what it is exactly if it is no
number with the signature of the others. -/
theorem seen_iff (little : Bool) (o : Mem) (d : Datum) :
    Seen little (d.set little o) d ↔ ∀ x, d = .number x → ¬ LooksTagged x :=
  seen_set_iff o d

/-- A field of a copy is the field of the original, for every field
inside the eight bytes. -/
theorem load_setobj (o o2 : Mem) {a w : Nat} (h : a + w ≤ 8) :
    (setobj o o2).load little a w = o2.load little a w := by
  have hholds : (setobj o o2).Holds 0 (o2.read 0 8) := Mem.holds_store_self o 0 _
  have hagree : Mem.Agree (setobj o o2) o2 0 8 := by
    intro x _ hx
    have hlen : x < (o2.read 0 8).length := by rwa [Mem.length_read]
    have hget := (Mem.holds_iff_getElem _ _ _).mp hholds x hlen
    have hread := Mem.getElem?_read o2 0 8 x
    rw [List.getElem?_eq_getElem hlen, if_pos hx, Option.some.injEq] at hread
    rw [Nat.zero_add] at hget hread
    exact hget.trans hread
  rw [Mem.load, Mem.load, hagree.read_eq a w (Nat.zero_le a) h]

/-- A value is seen through loads inside its eight bytes only, so two
values with the same loads are seen as the same datum. -/
theorem seen_congr {o' : Mem} (h : Seen little o d)
    (hload : ∀ a w, a + w ≤ 8 → o'.load little a w = o.load little a w) : Seen little o' d := by
  have hsig : sig little o' = sig little o := by
    rw [sig, sig, hload _ _ (by cases little <;> decide)]
  have htt : tt little o' = tt little o := by
    rw [tt, tt, hload _ _ (by cases little <;> decide)]
  have htag : ttypeSig little o' = ttypeSig little o := by
    rw [ttypeSig, ttypeSig, hload _ _ (by cases little <;> decide)]
  have hpayload : payload little o' = payload little o := by
    rw [payload, payload, hload _ _ (by cases little <;> decide)]
  have hnvalue : nvalue little o' = nvalue little o := by
    rw [nvalue, nvalue, hload _ _ (Nat.le_refl 8)]
  have hhas (t : LuaType) : hasSig little o' t = hasSig little o t := by
    rw [hasSig, hasSig, htag]
  have hnumber : ttisnumber little o' = ttisnumber little o := by
    rw [ttisnumber, ttisnumber, hsig]
  refine ⟨?_, ?_, ?_⟩
  · rw [ttype, hsig, htt]
    exact h.ttype
  · -- every test reads fields that are loaded
    have hall : ttis little o' = ttis little o := by
      simp only [ttis, hnumber, ttisnil, ttisstring, ttistable, ttisfunction, ttisboolean,
        ttisuserdata, ttisthread, ttislightuserdata, ttisrotable, ttislightfunction, hhas]
    rw [hall]
    exact h.ttis
  · have hacc := h.accessed
    cases d with
    | nil => trivial
    | _ => simpa only [Datum.Accessed, hnvalue, bvalue, pvalue, gcvalue, hpayload] using hacc

/-- What is copied by `setobj` is seen as what it was, also where the
original is not seen as what was stored there. -/
theorem seen_setobj_iff (o o2 : Mem) (d : Datum) :
    Seen little (setobj o o2) d ↔ Seen little o2 d :=
  ⟨fun h => seen_congr h fun _ _ hw => (load_setobj o o2 hw).symm,
    fun h => seen_congr h fun _ _ hw => load_setobj o o2 hw⟩

/-! ### Runs of writes -/

/-- The invariant of a run: every place that holds a datum is seen as
this datum exactly if it is no number that looks tagged. -/
def Told (little : Bool) (cells : Nat → Mem) (vals : Nat → Option Datum) : Prop :=
  ∀ i d, vals i = some d →
    (Seen little (cells i) d ↔ ∀ x, d = .number x → ¬ LooksTagged x)

/-- One write keeps the invariant. A setter makes its place right, and
a copy takes over what is said about the original. -/
theorem Told.apply {cells : Nat → Mem} {vals : Nat → Option Datum} (h : Told little cells vals)
    (w : Write) : Told little (w.apply little cells) (w.given vals) := by
  intro i d hd
  cases w with
  | set k e =>
    by_cases hik : i = k
    · subst hik
      rw [Write.given, Function.update_self, Option.some.injEq] at hd
      subst hd
      rw [Write.apply, Function.update_self]
      exact seen_set_iff (cells i) e
    · rw [Write.given, Function.update_of_ne hik] at hd
      rw [Write.apply, Function.update_of_ne hik]
      exact h i d hd
  | copy k j =>
    by_cases hik : i = k
    · subst hik
      rw [Write.given, Function.update_self] at hd
      rw [Write.apply, Function.update_self, seen_setobj_iff]
      exact h j d hd
    · rw [Write.given, Function.update_of_ne hik] at hd
      rw [Write.apply, Function.update_of_ne hik]
      exact h i d hd

/-- Nothing is said about places that were never written. -/
theorem told_start (little : Bool) (cells : Nat → Mem) : Told little cells fun _ => none := by
  intro i d hd
  cases hd

/-- The invariant holds after any run of writes. -/
theorem Told.foldl {vals : Nat → Option Datum} (ws : List Write) :
    ∀ {cells : Nat → Mem}, Told little cells vals →
      Told little (ws.foldl (Write.apply little) cells) (ws.foldl Write.given vals) := by
  induction ws generalizing vals with
  | nil => exact fun h => h
  | cons w ws ih => exact fun h => ih (h.apply w)

/-- **Runs of writes**: on either endianness, after any sequence of
setters and copies between any places and from any contents, a place
is seen as the datum that came to it, by however many copies, exactly
if this datum is no number with the signature of the others. -/
theorem writes_seen_iff (little : Bool) (cells : Nat → Mem) (ws : List Write) (i : Nat) (d : Datum)
    (h : ws.foldl Write.given (fun _ => none) i = some d) :
    Seen little (ws.foldl (Write.apply little) cells i) d ↔
      ∀ x, d = .number x → ¬ LooksTagged x :=
  Told.foldl ws (told_start little cells) i d h

/-- A string that is stored at 1, copied to 2 and overwritten at 1. -/
def movedString : List Write :=
  [.set 1 (.string 0x20004000#32), .copy 2 1, .set 1 (.number 5#64)]

/-- A string is stored and copied, and its first place is overwritten:
it is seen in the copy. -/
theorem writes_seen_iff_moved :
    Seen false (movedString.foldl (Write.apply false) (fun _ _ => 0xFF) 2)
      (.string 0x20004000#32) :=
  (writes_seen_iff false _ movedString 2 (.string 0x20004000#32) rfl).mpr fun _ h => nomatch h

/-- The pattern `FFFF000600000000` is stored as a number, and seen as a string. -/
theorem not_always_seen :
    ¬ ∀ (little : Bool) (o : Mem) (d : Datum), Seen little (d.set little o) d := by
  intro h
  refine (seen_number_iff (fun _ => 0) 0xffff000600000000#64).mp
    (h true (fun _ => 0) (.number 0xffff000600000000#64)) ?_
  unfold LooksTagged
  decide

/-- Its test as a string succeeds. -/
example : ttisstring true (setnvalue true (fun _ => 0) 0xffff000600000000#64) = true := by decide

end Alcor.Proofs.Lua
