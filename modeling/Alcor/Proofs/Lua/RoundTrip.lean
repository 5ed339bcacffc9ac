import Mathlib.Tactic.Positivity
import Alcor.Lua.Undump

/-!
# `Alcor.Proofs.Lua.RoundTrip`: a dump is loaded

The loader reads what the writer wrote, part by part. Each part of the
writer has its `carries_` lemma, which says what the loader reads of it.

* `loadWords_buffered` and `loadWords_direct`: the two ways to get a
  vector of words from the image.
* `carries_align4`: the two loops of `Align4` make the same number of
  rounds, as both count the same bytes.
* `carries_integer` and `carries_float`: the numbers of the target.
* `carries_function`: a function that fits, by induction on the
  functions inside.
* `bytecode_round_trip` is the result about a whole image, and
  `not_bytecode_round_trip` has a program for each of its conditions.
-/

set_option autoImplicit false

/-!
## Vectors and headers

`LoadMem` reads a vector at once and swaps its elements after that. It
comes to the same as loading the elements one after the other
(`loadWords_buffered`, `loadWords_direct`), since only whole elements
are read and every one of them has a size that can be swapped.

`undump_eq` is the loader behind the header: a function is loaded from
the bytes after it, with what `LoadHeader` has found.
-/

namespace Alcor.Proofs.Lua

open Lib Lib.Lockstep
open Alcor.Lua

variable {S : Loader}

/-- An element after `LoadMem`. -/
def swapped (S : Loader) (b : List UInt8) : List UInt8 := if S.swap then b.reverse else b

/-- Only the blocks of the right length matter. -/
theorem loadBlock_bind_congr {α : Type} {size : Nat} {f g : List UInt8 → LoadM α}
    (h : ∀ b, b.length = size → f b = g b) : (loadBlock size >>= f) = (loadBlock size >>= g) := by
  funext s
  show (loadBlock size s).bind _ = (loadBlock size s).bind _
  rw [loadBlock]
  split
  · next hle =>
      show f _ _ = g _ _
      rw [h _ (List.length_take_of_le hle)]
  · rfl

theorem swapElement_four (S : Loader) {b : List UInt8} (hb : b.length = 4) :
    swapElement S b = pure (swapped S b) := by
  rw [swapElement, swapped, hb]
  cases S.swap <;> rfl

theorem loadVar_four (S : Loader) :
    loadVar S 4 = loadBlock 4 >>= fun b => pure (swapped S b) := by
  rw [loadVar]
  exact loadBlock_bind_congr fun b hb => swapElement_four S hb

/-- A block of words is one word after the other. -/
theorem loadBlock_words {α : Type} (g : List UInt8 → α) (n : Nat) :
    (loadBlock (n * 4) >>= fun b => (pure ((elements 4 n b).map g) : LoadM (List α))) =
      times (loadBlock 4 >>= fun e => (pure (g e) : LoadM α)) n := by
  induction n with
  | zero => rfl
  | succ n ih =>
    funext s
    rw [times, ← ih]
    show (loadBlock ((n + 1) * 4) s).bind _ = ((loadBlock 4 s).bind _).bind _
    by_cases hfour : 4 ≤ s.rest.length
    · -- the first word, and the block behind it
      have hfirst : loadBlock 4 s = some (s.rest.take 4,
          { s with rest := s.rest.drop 4, i := s.i + 4, total := s.total + 4 }) := if_pos hfour
      rw [hfirst]
      show _ = ((loadBlock (n * 4) _).bind _).bind _
      by_cases hall : (n + 1) * 4 ≤ s.rest.length
      · have hlen : n * 4 ≤ (s.rest.drop 4).length := by
          rw [List.length_drop]
          omega
        rw [loadBlock, if_pos hall, loadBlock, if_pos hlen]
        refine congrArg some (Prod.ext ?_ ?_)
        · simp [elements, List.take_take, List.drop_take, Nat.add_mul]
        · simp [Nat.add_mul, Nat.add_assoc, Nat.add_comm 4]
      · have hlen : ¬ n * 4 ≤ (s.rest.drop 4).length := by
          rw [List.length_drop]
          omega
        rw [loadBlock, if_neg hall, loadBlock, if_neg hlen]
        rfl
    · rw [loadBlock, if_neg (by omega), loadBlock, if_neg hfour]
      rfl

/-- The blocks of a word, all of the right length. -/
theorem length_elements {n : Nat} {b : List UInt8} (hb : b.length = n * 4) :
    ∀ e ∈ elements 4 n b, e.length = 4 := by
  induction n generalizing b with
  | zero => simp [elements]
  | succ n ih =>
    intro e he
    rw [elements, List.mem_cons] at he
    rcases he with rfl | he
    · rw [List.length_take]
      omega
    · exact ih (by rw [List.length_drop]; omega) e he

theorem mapM_swapElement (S : Loader) {es : List (List UInt8)} (h : ∀ e ∈ es, e.length = 4) :
    es.mapM (swapElement S) = (pure (es.map (swapped S)) : LoadM _) := by
  induction es with
  | nil => rfl
  | cons e es ih =>
    rw [List.mapM_cons, swapElement_four S (h e List.mem_cons_self),
      ih fun e' he' => h e' (List.mem_cons_of_mem _ he')]
    rfl

/-- A copied vector. -/
theorem loadWords_buffered (hdirect : S.direct = false) (n : Nat) :
    loadWords S n = newVector n 4 >>= fun _ =>
      times (loadVar S 4 >>= fun e => pure (UInt32.ofNat (S.val e))) n := by
  rw [loadWords, hdirect, loadVar_four]
  simp only [Bool.false_eq_true, if_false, bind_assoc, pure_bind]
  congr 1
  funext _
  rw [← loadBlock_words fun e => UInt32.ofNat (S.val (swapped S e))]
  refine loadBlock_bind_congr fun b hb => ?_
  rw [mapM_swapElement S (length_elements hb), pure_bind, List.map_map]
  rfl

/-- A vector that is used where it is. -/
theorem loadWords_direct (hdirect : S.direct = true) {n : Nat} (hn : n * 4 < 2 ^ 32) :
    loadWords S n = times (loadBlock 4 >>= fun e => pure (UInt32.ofNat (S.val e))) n := by
  rw [loadWords, if_pos hdirect, if_pos hn, ← loadBlock_words]

/-! ### The header -/

/-- The loader after a header. -/
def withHeader (S : Loader) (r : Bool × Nat × Bool) : Loader :=
  ⟨S.machine, S.direct, S.checkcode, r.1, r.2.1, r.2.2⟩

/-- An image is its header and one function behind it. -/
theorem undump_eq (S : Loader) (nCcalls : Nat) {header image : List UInt8}
    (hlen : header.length = LUAC_HEADERSIZE) :
    luaUUndump S nCcalls (header ++ image) = (checkHeader S.machine header).bind fun r =>
      loadFunction (withHeader S r) (LUAI_MAXCCALLS - nCcalls) (some [0x3D, 0x3F])
        ⟨image, LUAC_HEADERSIZE, 0, []⟩ := by
  have hblock : loadBlock LUAC_HEADERSIZE ⟨header ++ image, 0, 0, []⟩ =
      some (header, ⟨image, LUAC_HEADERSIZE, LUAC_HEADERSIZE, []⟩) := by
    simp [loadBlock, ← hlen]
  show ((loadBlock LUAC_HEADERSIZE ⟨header ++ image, 0, 0, []⟩).bind _).bind _ = _
  rw [hblock]
  cases hcheck : checkHeader S.machine header with
  | none =>
    simp only [Option.bind_some, hcheck]
    rfl
  | some r =>
    simp only [Option.bind_some, hcheck]
    rfl

/-- An image that is loaded has a header. -/
theorem exists_header {nCcalls : Nat} {image : List UInt8} {r : Proto × LoadState}
    (h : luaUUndump S nCcalls image = some r) :
    ∃ header rest, image = header ++ rest ∧ header.length = LUAC_HEADERSIZE := by
  by_cases hlen : LUAC_HEADERSIZE ≤ image.length
  · exact ⟨image.take LUAC_HEADERSIZE, image.drop LUAC_HEADERSIZE,
      (List.take_append_drop _ _).symm, List.length_take_of_le hlen⟩
  · have hblock : loadBlock LUAC_HEADERSIZE ⟨image, 0, 0, []⟩ = none := if_neg hlen
    have hnone : luaUUndump S nCcalls image = none := by
      show ((loadBlock LUAC_HEADERSIZE ⟨image, 0, 0, []⟩).bind _).bind _ = _
      rw [hblock]
      rfl
    rw [hnone] at h
    cases h

/-- Bytes are swapped if the byte orders differ. -/
theorem swap_iff {m : Machine} {header : List UInt8} {r : Bool × Nat × Bool}
    (h : checkHeader m header = some r) : r.1 = true ↔ OtherByteOrder m header := by
  rw [checkHeader] at h
  simp only [Option.ite_none_right_eq_some, Option.some.injEq] at h
  rw [← h.2, OtherByteOrder]
  simp

end Alcor.Proofs.Lua

/-!
## Bytecode is read back as it was written

The dumper and the loader are in step (`link`): the loader has read
what the dumper has written, its offset is the number of bytes
written, and it has skipped padding at the same places. Every `Dump`
function carries what the `Load` function of the same name returns.
For functions the induction is on how deep they are nested, which is
what the loader counts.
-/

namespace Alcor.Proofs.Lua

open Lib Lib.Lockstep
open Alcor.Lua

variable {n : Nat} {x : Int32} {f : Proto}

/-- The dumper writes for the machine of the loader, and the header has been read. -/
structure InStep (D : Dumper) (S : Loader) : Prop where
  writer : ∀ bs b, D.writer bs b = 0
  strip : D.strip = false
  supported : Supported D.target
  machine : Machine.Matches S.machine D.target
  buffered : S.direct = false
  swap : S.swap = false
  toflt : S.toflt = false

/-- The loader has read what the dumper has written. -/
def link : Link DumpState LoadState where
  good s := s.status = 0 ∧ LUAC_HEADERSIZE ≤ s.wrote ∧ s.wrote = s.blocks.flatten.length
  out s := s.blocks.flatten
  before s rest := ⟨rest, s.wrote, s.wrote - LUAC_HEADERSIZE, s.padded⟩

/-! ### Words -/

section Words
variable {D : Dumper} {S : Loader}

theorem dumpBlock_of_status (h : InStep D S) (b : List UInt8) {s : DumpState}
    (hstatus : s.status = 0) :
    dumpBlock D b s =
      some ((), { s with wrote := s.wrote + b.length, blocks := s.blocks ++ [b] }) := by
  simp [dumpBlock, modify, modifyGet, MonadStateOf.modifyGet, StateT.modifyGet, hstatus, h.writer]

theorem carries_block (h : InStep D S) (b : List UInt8) :
    Carries link (dumpBlock D b) (loadBlock b.length) b := by
  rintro s ⟨hstatus, hwrote, hlength⟩
  refine ⟨_, b, dumpBlock_of_status h b hstatus, ⟨hstatus, ?_, ?_⟩, ?_, fun rest => ?_⟩
  · exact Nat.le_add_right_of_le hwrote
  · simp [hlength]
  · simp [link]
  · simp [link, loadBlock]
    have hwrote : 12 ≤ s.wrote := hwrote
    show s.wrote - 12 + b.length = s.wrote + b.length - 12
    omega

/-- A variable, as the bytes the target has for it. -/
theorem carries_word (h : InStep D S) (w n : Nat) :
    Carries link (dumpWord D w n) (loadVar S w) (bytesIn D.target.littleEndian w n) := by
  have hswap : maybeByteSwap D (bytesIn D.platformLittleEndian w n) =
      bytesIn D.target.littleEndian w n := by
    rw [maybeByteSwap, bytesIn_reverse]
    cases D.platformLittleEndian <;> cases D.target.littleEndian <;> rfl
  have hblock := carries_block h (bytesIn D.target.littleEndian w n)
  rw [length_bytesIn] at hblock
  rw [dumpWord, hswap]
  refine hblock.last ?_
  rw [swapElement, h.swap]
  rfl

/-- The value of a variable. -/
theorem val_bytesIn (h : InStep D S) {w : Nat} (hn : n < 256 ^ w) :
    S.val (bytesIn D.target.littleEndian w n) = n := by
  rw [Loader.val, h.machine.littleEndian, valIn_bytesIn, Nat.mod_eq_of_lt hn]

theorem carries_char (h : InStep D S) (y : UInt8) :
    Carries link (dumpChar D y) (loadChar S) y := by
  have hvar : Carries link (dumpChar D y) (loadVar S 1) [y] := by
    refine (carries_block h [y]).last ?_
    rw [swapElement, h.swap]
    rfl
  refine hvar.last ?_
  simp [leVal]

/-- An `int` that is not negative. -/
theorem carries_int (h : InStep D S) (hn : (n : Int) < INT_MAX) :
    Carries link (dumpInt D n) (loadInt S) (Int32.ofNat n) := by
  have hn : (n : Int) < 0x7FFFFFFF := hn
  have hdump : dumpInt D n = dumpWord D 4 n := by
    have hunsigned : unsigned 4 n = n := by
      rw [unsigned]
      omega
    rw [dumpInt, h.supported.sizeofInt, dumpIntWithSize, if_neg (by omega), hunsigned]
  rw [hdump]
  refine (carries_word h 4 n).last ?_
  have hval : (UInt32.ofNat (S.val (bytesIn D.target.littleEndian 4 n))).toInt32 = Int32.ofNat n := by
    rw [val_bytesIn h (by omega)]
    rfl
  have hpos : ¬ Int32.ofNat n < 0 := by
    rw [Int32.lt_iff_toInt_lt, Int32.toInt_ofNat_of_lt (by omega)]
    simp
  rw [hval, if_neg hpos]

/-- An `int` of a function is a number of a vector, too. -/
theorem exists_ofNat (hx : IntFits x) :
    ∃ n : Nat, x = Int32.ofNat n ∧ (n : Int) < INT_MAX ∧ (Int32.ofNat n).toInt = n := by
  obtain ⟨n, hn⟩ := Int.eq_ofNat_of_zero_le hx.1
  have hofNat : Int32.ofNat n = x := by
    rw [← Int32.ofInt_toInt (x := x), hn]
    rfl
  exact ⟨n, hofNat.symm, hn ▸ hx.2, hofNat ▸ hn⟩

theorem carries_int32 (h : InStep D S) (hx : IntFits x) :
    Carries link (dumpInt D x.toInt) (loadInt S) x := by
  obtain ⟨n, rfl, hn, htoInt⟩ := exists_ofNat hx
  exact htoInt ▸ carries_int h hn

/-- The number of rounds of a loop. -/
theorem toNatClampNeg_count (hn : (n : Int) < INT_MAX) : (Int32.ofNat n).toNatClampNeg = n := by
  have hn : (n : Int) < 0x7FFFFFFF := hn
  rw [Int32.toNatClampNeg, Int32.toInt_ofNat_of_lt (by omega)]
  rfl

/-! ### Padding -/

theorem dumpAlign4_succ (n : Nat) (s : DumpState) :
    dumpAlign4 D (n + 1) s =
      if s.wrote % 4 ≠ 0 then (dumpPadding D >>= fun _ => dumpAlign4 D n) s else some ((), s) := by
  rw [dumpAlign4]
  simp only [bind, StateT.bind, get, getThe, MonadStateOf.get, StateT.get, pure,
    Option.bind_some]
  split <;> rfl

theorem loadAlign4_succ (n : Nat) (s : LoadState) :
    loadAlign4 S (n + 1) s =
      if s.total % 4 ≠ 0 then
        (loadChar S >>= fun _ => loadAlign4 S n) { s with skipped := s.skipped ++ [s.i] }
      else some ((), s) := by
  rw [loadAlign4]
  simp only [bind, StateT.bind, get, getThe, MonadStateOf.get, StateT.get, pure,
    Option.bind_some]
  split <;> rfl

/-- The two loops of `Align4` make the same number of rounds. -/
theorem carries_align4 (h : InStep D S) (n : Nat) :
    ∀ s, link.good s → (4 - s.wrote % 4) % 4 < n →
      CarriesAt link s (dumpAlign4 D n) (loadAlign4 S n) () := by
  induction n with
  | zero => exact fun s _ hlt => absurd hlt (Nat.not_lt_zero _)
  | succ n ih =>
    intro s hs hlt
    obtain ⟨hstatus, hwrote, hlength⟩ := hs
    have hwrote' : 12 ≤ s.wrote := hwrote
    by_cases halign : s.wrote % 4 = 0
    · -- no padding on either side
      have htotal : (s.wrote - 12) % 4 = 0 := by omega
      refine ⟨s, [], ?_, ⟨hstatus, hwrote, hlength⟩, (List.append_nil _).symm, fun rest => ?_⟩
      · rw [dumpAlign4_succ, if_neg (not_not.mpr halign)]
      · rw [loadAlign4_succ]
        exact if_neg (not_not.mpr htotal)
    · have htotal : (s.wrote - 12) % 4 ≠ 0 := by omega
      -- a byte of padding, noted on both sides
      have hgood : link.good { s with padded := s.padded ++ [s.wrote] } :=
        ⟨hstatus, hwrote, hlength⟩
      have hpad : CarriesAt link { s with padded := s.padded ++ [s.wrote] }
          (dumpChar D 0 >>= fun _ => dumpAlign4 D n)
          (loadChar S >>= fun _ => loadAlign4 S n) () := by
        refine (carries_char h 0 _ hgood).bind fun s' hs' hgood' => ih s' hgood' ?_
        rw [dumpChar, dumpBlock_of_status h _ (by exact hstatus), Option.some.injEq,
          Prod.mk.injEq] at hs'
        rw [← hs'.2]
        show (4 - (s.wrote + 1) % 4) % 4 < n
        omega
      · obtain ⟨s', bs, hdump, hgood', hout, hload⟩ := hpad
        refine ⟨s', bs, ?_, hgood', hout, fun rest => ?_⟩
        · rw [dumpAlign4_succ, if_pos halign]
          refine Eq.trans ?_ hdump
          show (dumpChar D 0 >>= fun _ => dumpAlign4 D n)
            { s with padded := if s.status = 0 then s.padded ++ [s.wrote] else s.padded } = _
          rw [if_pos hstatus]
        · rw [loadAlign4_succ]
          exact (if_pos htotal).trans (hload rest)

end Words

/-! ### Strings and numbers -/

section Values
variable {D : Dumper} {S : Loader}

/-- A string, with its length in front. -/
theorem carries_string (h : InStep D S) {s : Option TString} (hs : StringFits s) :
    Carries link (dumpString D s) (loadString S) s := by
  cases s with
  | none =>
    have hdump : dumpString D none = dumpWord D 4 0 := by
      rw [dumpString, dumpSize, h.supported.sizeofStrsizeT]
      rfl
    rw [hdump]
    refine (carries_word h 4 0).last ?_
    rw [val_bytesIn h (by decide)]
    rfl
  | some s =>
    have hlen : (s.length : Int) < 0x7FFFFFFF := hs s rfl
    have hsize : (s.length % 2 ^ 32 + 1) % 2 ^ 32 = s.length + 1 := by omega
    have hdump : dumpString D (some s) =
        (dumpWord D 4 (s.length + 1) >>= fun _ => dumpBlock D (s ++ [0])) := by
      rw [dumpString, dumpSize, h.supported.sizeofStrsizeT]
      simp only [hsize]
      rw [if_neg (by omega), List.take_of_length_le (by simp)]
    rw [hdump]
    refine (carries_word h 4 (s.length + 1)).bind ?_
    rw [val_bytesIn h (by omega)]
    have hofNat : (UInt32.ofNat (s.length + 1)).toInt32 = Int32.ofNat (s.length + 1) := rfl
    have htoInt : (Int32.ofNat (s.length + 1)).toInt = s.length + 1 :=
      Int32.toInt_ofNat_of_lt (by omega)
    have hzero : Int32.ofNat (s.length + 1) ≠ 0 := by
      rw [Ne, ← Int32.toInt_inj, htoInt]
      show ¬ ((s.length : Int) + 1 = 0)
      omega
    have hneg : ¬ (¬ S.direct = true ∧ Int32.ofNat (s.length + 1) < 0) := by
      rw [Int32.lt_iff_toInt_lt, htoInt]
      show ¬ (_ ∧ (s.length : Int) + 1 < 0)
      omega
    have hnat : (Int32.ofNat (s.length + 1)).toUInt32.toNat = (s ++ [0]).length := by
      rw [List.length_append]
      show (s.length + 1) % 2 ^ 32 = _
      exact Nat.mod_eq_of_lt (by omega)
    simp only [hofNat, if_neg hzero, if_neg hneg, hnat]
    refine (carries_block h (s ++ [0])).last ?_
    simp

/-- A signed integer read back from its bytes. -/
theorem signed_unsigned {w : Nat} {x : Int} (hw : 0 < w) (hlo : -2 ^ (8 * w - 1) ≤ x)
    (hhi : x < 2 ^ (8 * w - 1)) : signed w (unsigned w x) = x := by
  have hpow : (2 : Int) ^ (8 * w) = 2 * 2 ^ (8 * w - 1) := by
    rw [← pow_succ', Nat.sub_add_cancel (by omega)]
  have hpos : (0 : Int) < 2 ^ (8 * w - 1) := by positivity
  rw [signed, unsigned]
  generalize h : (2 : Int) ^ (8 * w - 1) = p at *
  have hcast : ((2 ^ (8 * w - 1) : Nat) : Int) = p := by rw [← h]; push_cast; rfl
  rw [hpow]
  obtain hneg | hnonneg := Int.lt_or_le x 0
  · have hmod : x % (2 * p) = x + 2 * p := by
      rw [← Int.add_emod_right, Int.emod_eq_of_lt] <;> omega
    rw [hmod, if_neg (by omega)]
    omega
  · rw [Int.emod_eq_of_lt hnonneg (by omega), if_pos (by omega)]
    omega

theorem unsigned_lt (w : Nat) (x : Int) : unsigned w x < 256 ^ w := by
  have hpos : (0 : Int) < 2 ^ (8 * w) := by positivity
  have hlt := Int.emod_lt_of_pos x hpos
  have hcast : ((256 ^ w : Nat) : Int) = 2 ^ (8 * w) := by
    rw [pow_mul]
    push_cast
    rfl
  rw [unsigned]
  omega

/-- An integer of the target. -/
theorem carries_integer (h : InStep D S) {x : Int} (hintegral : D.target.luaNumberIntegral = true)
    (hlo : -2 ^ (8 * D.target.sizeofLuaNumber - 1) ≤ x)
    (hhi : x < 2 ^ (8 * D.target.sizeofLuaNumber - 1)) (hfloat : toFloat x = x)
    (hmin : x ≠ -0x80000000) :
    Carries link (dumpNumber D (.int x)) (loadVar S D.target.sizeofLuaNumber)
      (bytesIn D.target.littleEndian D.target.sizeofLuaNumber
        (unsigned D.target.sizeofLuaNumber x)) := by
  have hdump : dumpNumber D (.int x) = dumpIntWithSize D x D.target.sizeofLuaNumber := by
    rw [dumpNumber, if_pos hintegral]
    exact if_neg (not_not.mpr hfloat)
  rw [hdump]
  rcases h.supported.integral hintegral with hw | hw | hw <;> rw [hw] at hlo hhi ⊢
  · -- one byte has no order
    have hword : dumpIntWithSize D x 1 = dumpWord D 1 (unsigned 1 x) := by
      rw [dumpIntWithSize, if_neg (by omega), dumpWord, maybeByteSwap]
      cases D.platformLittleEndian <;> simp [bytesIn, leBytes, dumpChar]
    exact hword ▸ carries_word h 1 _
  · have hword : dumpIntWithSize D x 2 = dumpWord D 2 (unsigned 2 x) := by
      rw [dumpIntWithSize, if_neg (by omega)]
    exact hword ▸ carries_word h 2 _
  · have hmax : x ≠ 0x7FFFFFFF := by
      rintro rfl
      exact absurd hfloat (by decide)
    have hword : dumpIntWithSize D x 4 = dumpWord D 4 (unsigned 4 x) := by
      rw [dumpIntWithSize, if_neg (by omega)]
    exact hword ▸ carries_word h 4 _

/-- A floating number of the target. -/
theorem carries_float (h : InStep D S) (bits : Nat)
    (hintegral : D.target.luaNumberIntegral = false) :
    Carries link (dumpNumber D (.float bits)) (loadVar S D.target.sizeofLuaNumber)
      (bytesIn D.target.littleEndian D.target.sizeofLuaNumber bits) := by
  have hword : dumpNumber D (.float bits) = dumpWord D D.target.sizeofLuaNumber bits := by
    rcases h.supported.floating hintegral with hw | hw <;>
      simp [dumpNumber, hintegral, hw, Number.bits, h.supported.isArmFpa, dumpWord]
  exact hword ▸ carries_word h _ _

/-- A number of the target, where it can be represented. -/
theorem carries_number (h : InStep D S) {x : Number} (hx : x.Representable D.target)
    (haccepted : x.Accepted) : Carries link (dumpNumber D x) (loadNumber S) x := by
  rw [loadNumber]
  simp only [h.toflt, h.machine.sizeofLuaNumber, h.machine.luaNumberIntegral, Bool.false_eq_true,
    if_false]
  cases x with
  | int x =>
    obtain ⟨hintegral, hlo, hhi⟩ := hx
    refine (carries_integer h hintegral hlo hhi haccepted.1 haccepted.2).last ?_
    have hw : 0 < D.target.sizeofLuaNumber := by
      rcases h.supported.integral hintegral with hw | hw | hw <;> omega
    rw [if_pos hintegral, val_bytesIn h (unsigned_lt _ _), signed_unsigned hw hlo hhi]
  | float bits =>
    obtain ⟨hintegral, hlt⟩ := hx
    refine (carries_float h bits hintegral).last ?_
    rw [val_bytesIn h hlt, hintegral]
    rfl

/-! ### Constants and debug information -/

theorem carries_constant (h : InStep D S) {o : TValue} (ho : o.Fits D.target) :
    Carries link (dumpConstant D o) (loadConstant S) o := by
  cases o with
  | nil => exact (carries_char h LUA_TNIL).last rfl
  | boolean b =>
    refine (carries_char h LUA_TBOOLEAN).bind ?_
    refine (carries_char h _).last ?_
    cases b <;> rfl
  | number x =>
    refine (carries_char h LUA_TNUMBER).bind ?_
    exact (carries_number h ho.1 ho.2).last rfl
  | string s =>
    refine (carries_char h LUA_TSTRING).bind ?_
    exact (carries_string h ho).last rfl

theorem carries_locVar (h : InStep D S) {v : LocVar} (hv : v.Fits) :
    Carries link (dumpLocVar D v) (loadLocVar S) v := by
  refine (carries_string h hv.varname).bind ?_
  refine (carries_int32 h hv.startpc).bind ?_
  exact (carries_int32 h hv.endpc).last rfl

end Values

/-! ### Functions -/

section Functions
variable {D : Dumper} {S : Loader}

theorem newVector_of_fits {size : Nat} (h : VectorFits size n) : newVector n size = pure () :=
  if_pos h.2

/-- Words behind their number and the padding. -/
theorem carries_words (h : InStep D S) {ws : List UInt32} (hws : VectorFits 4 ws.length)
    {enc : UInt32 → DumpM Unit}
    (henc : ∀ w ∈ ws, enc w = dumpWord D 4 w.toNat) :
    Carries link (ws.forM enc) (loadWords S ws.length) ws := by
  rw [loadWords_buffered h.buffered, newVector_of_fits hws, pure_bind]
  refine Carries.forM fun w hw => ?_
  rw [henc w hw]
  refine (carries_word h 4 w.toNat).last ?_
  rw [val_bytesIn h (by have := w.toNat_lt; omega), UInt32.ofNat_toNat]

theorem carries_padding (h : InStep D S) :
    Carries link (dumpAlign4 D 4) (loadAlign4 S 4) () :=
  fun s hs => carries_align4 h 4 s hs (by omega)

theorem carries_code (h : InStep D S) (hf : VectorFits 4 f.code.length) :
    Carries link (dumpCode D f) (loadCode S) f.code := by
  refine (carries_int h hf.1).bind ?_
  refine (carries_padding h).bind ?_
  rw [toNatClampNeg_count hf.1]
  exact carries_words h hf fun _ _ => rfl

/-- A line of the source as a word. -/
theorem dumpInt_word (h : InStep D S) (hx : IntFits x) :
    dumpInt D x.toInt = dumpWord D 4 x.toUInt32.toNat := by
  obtain ⟨n, rfl, hn, htoInt⟩ := exists_ofNat hx
  have hn : (n : Int) < 0x7FFFFFFF := hn
  have hword : (Int32.ofNat n).toUInt32.toNat = n := by
    show n % 2 ^ 32 = n
    omega
  have hunsigned : unsigned 4 n = n := by
    rw [unsigned]
    omega
  rw [htoInt, hword, dumpInt, h.supported.sizeofInt, dumpIntWithSize, if_neg (by omega),
    hunsigned]

theorem carries_lineinfo (h : InStep D S) {lineinfo : List Int32}
    (hn : VectorFits 4 lineinfo.length) (hlines : ∀ x ∈ lineinfo, IntFits x) :
    Carries link (lineinfo.forM fun line => dumpInt D line.toInt)
      (loadWords S lineinfo.length) (lineinfo.map Int32.toUInt32) := by
  have hwords : Carries link
      ((lineinfo.map Int32.toUInt32).forM fun w => dumpInt D w.toInt32.toInt)
      (loadWords S (lineinfo.map Int32.toUInt32).length) (lineinfo.map Int32.toUInt32) := by
    refine carries_words h (by rwa [List.length_map]) fun w hw => ?_
    obtain ⟨x, hx, rfl⟩ := List.mem_map.mp hw
    exact dumpInt_word h (hlines x hx)
  rw [List.length_map, List.forM_eq_forM, List.forM_map] at hwords
  exact hwords

/-- The debug part of a function. -/
theorem carries_debug (h : InStep D S) {m : Machine} (hf : f.Fits D.target m) :
    Carries link (dumpDebug D f) (loadDebug S) (f.lineinfo, f.locvars, f.upvalues) := by
  have hlineinfo : (f.lineinfo.map Int32.toUInt32).map UInt32.toInt32 = f.lineinfo := by
    rw [List.map_map]
    exact List.map_id'' (fun _ => rfl) _
  rw [dumpDebug, loadDebug]
  simp only [h.strip, Bool.false_eq_true, if_false]
  refine (carries_int h hf.lineinfo.1).bind ?_
  refine (carries_padding h).bind ?_
  rw [toNatClampNeg_count hf.lineinfo.1]
  refine (carries_lineinfo h hf.lineinfo hf.lines).bind ?_
  rw [hlineinfo]
  refine (carries_int h hf.locvars.1).bind ?_
  rw [toNatClampNeg_count hf.locvars.1, newVector_of_fits hf.locvars, pure_bind]
  refine (Carries.forM fun v hv => carries_locVar h (hf.vars v hv)).bind ?_
  refine (carries_int h hf.upvalues.1).bind ?_
  rw [toNatClampNeg_count hf.upvalues.1, newVector_of_fits hf.upvalues, pure_bind]
  exact (Carries.forM fun s hs => carries_string h (hf.names s hs)).last rfl

theorem dumpFunctions_eq (fs : List Proto) (p : Option TString) :
    dumpFunctions D fs p = fs.forM fun f => dumpFunction D f p := by
  induction fs with
  | nil => rfl
  | cons f fs ih =>
    rw [dumpFunctions, ih]
    rfl

/-- The name of the source is found again, when it is not written since it is the one of the
function outside. -/
theorem source_found {source p p' : Option TString} (h : source ≠ none)
    (hp' : source = p → p' = p) :
    (if (if source = p then none else source) = none then p'
      else if source = p then none else source) = source := by
  by_cases hp : source = p
  · simp [hp, hp' hp]
  · simp [hp, h]

theorem carries_constants (h : InStep D S) (hf : f.Fits D.target S.machine)
    {functions : Proto → DumpM Unit} {function : LoadM Proto}
    (hfunction : ∀ g ∈ f.p, Carries link (functions g) function g) :
    Carries link (dumpConstants D f (f.p.forM functions)) (loadConstants S function)
      (f.k, f.p) := by
  refine (carries_int h hf.k.1).bind ?_
  rw [toNatClampNeg_count hf.k.1, newVector_of_fits hf.k, pure_bind]
  refine (Carries.forM fun o ho => carries_constant h (hf.consts o ho)).bind ?_
  refine (carries_int h hf.p.1).bind ?_
  rw [toNatClampNeg_count hf.p.1, newVector_of_fits hf.p, pure_bind]
  exact (Carries.forM hfunction).last rfl

/-- A function that fits is loaded as it was dumped. -/
theorem carries_function (h : InStep D S) (n : Nat) : ∀ (f : Proto) (p p' : Option TString),
    (f.source = p → p' = p) → f.Depth n →
    f.Everywhere (fun g => g.Fits D.target S.machine ∧ S.checkcode g = true) →
    Carries link (dumpFunction D f p) (loadFunction S n p') f := by
  induction n with
  | zero =>
    intro f p p' _ hdepth
    cases hdepth
  | succ n ih =>
    intro f p p' hp' hdepth hfits
    obtain ⟨hinner⟩ := hdepth
    obtain ⟨⟨hf, hcheck⟩, hall⟩ := hfits
    obtain ⟨source, linedefined, lastlinedefined, nups, numparams, isVararg, maxstacksize, code,
      k, inner, lineinfo, locvars, upvalues⟩ := f
    rw [dumpFunction, loadFunction, dumpFunctions_eq]
    simp only [h.strip, Bool.false_eq_true, or_false]
    have hname : StringFits (if source = p then none else source) := by
      split
      · intro t ht
        cases ht
      · exact hf.sourceFits
    refine (carries_string h hname).bind ?_
    simp only [source_found hf.source hp']
    refine (carries_int32 h hf.linedefined).bind ?_
    refine (carries_int32 h hf.lastlinedefined).bind ?_
    refine (carries_char h nups).bind ?_
    refine (carries_char h numparams).bind ?_
    refine (carries_char h isVararg).bind ?_
    refine (carries_char h maxstacksize).bind ?_
    refine (carries_code h hf.code).bind ?_
    -- the functions inside, one level deeper
    refine (carries_constants h hf fun g hg =>
      ih g source source (fun _ => rfl) (hinner g hg) (hall g hg)).bind ?_
    refine (carries_debug h hf).last ?_
    exact if_pos hcheck

end Functions

/-! ### The header, and the whole image -/

/-- The header of a machine of the same kind. -/
theorem checkHeader_self (m : Machine) :
    checkHeader m (luaUHeader m) =
      some (false, (UInt8.ofNat m.sizeofLuaNumber).toNat, false) := by
  obtain ⟨littleEndian, signedChar, sizeofLuaNumber, luaNumberIntegral, sizeofTValue⟩ := m
  -- the last byte is 0 or 1, so that a signed `char` has the same value
  have htoflt : ¬ Machine.char ⟨littleEndian, signedChar, sizeofLuaNumber, luaNumberIntegral,
      sizeofTValue⟩ (flag luaNumberIntegral) > if luaNumberIntegral = true then 1 else 0 := by
    cases signedChar <;> cases luaNumberIntegral <;> simp [Machine.char, flag, signed]
  simp [checkHeader, luaUHeader, LUA_SIGNATURE, htoflt]

theorem dumpHeader_eq {D : Dumper} {m : Machine} (h : Supported D.target)
    (hm : m.Matches D.target) : dumpHeader D = dumpBlock D (luaUHeader m) := by
  rw [dumpHeader, luaUHeader, h.sizeofInt, h.sizeofStrsizeT, hm.littleEndian, hm.sizeofLuaNumber,
    hm.luaNumberIntegral]
  rfl

/-- **Bytecode**: what is dumped for a target is loaded there as the
same functions. The loader reads all bytes that were written and no
others, and skips padding where it was written. By induction on the
functions in a function. -/
theorem bytecode_round_trip (D : Dumper) (S : Loader) (nCcalls : Nat) (f : Proto)
    (hwriter : ∀ bs b, D.writer bs b = 0) (hstrip : D.strip = false)
    (hsupported : Supported D.target) (hmachine : S.machine.Matches D.target)
    (hbuffered : S.direct = false) (hdepth : f.Depth (LUAI_MAXCCALLS - nCcalls))
    (hfits : f.Everywhere fun g => g.Fits D.target S.machine ∧ S.checkcode g = true) :
    ∃ d, luaUDumpCrosscompile D f = some d ∧ d.status = 0 ∧
      ∀ rest, luaUUndump S nCcalls (d.blocks.flatten ++ rest) =
        some (f, ⟨rest, d.blocks.flatten.length, d.blocks.flatten.length - LUAC_HEADERSIZE,
          d.padded⟩) := by
  let S' : Loader := withHeader S (false, (UInt8.ofNat S.machine.sizeofLuaNumber).toNat, false)
  have h : InStep D S' := ⟨hwriter, hstrip, hsupported, hmachine, hbuffered, rfl, rfl⟩
  have hsource : f.source ≠ none := by
    obtain ⟨⟨hf, -⟩, -⟩ := hfits
    exact hf.source
  -- behind the header
  let s : DumpState := { wrote := 12, blocks := [luaUHeader S.machine] }
  have hgood : link.good s := ⟨rfl, Nat.le_refl _, rfl⟩
  have hheader : dumpHeader D {} = some ((), s) := by
    rw [dumpHeader_eq hsupported hmachine, dumpBlock_of_status h _ rfl]
    rfl
  obtain ⟨d, bs, hdump, hgood', hout, hload⟩ :=
    carries_function h (LUAI_MAXCCALLS - nCcalls) f none (some [0x3D, 0x3F])
      (fun hnone => absurd hnone hsource) hdepth hfits s hgood
  refine ⟨d, ?_, hgood'.1, fun rest => ?_⟩
  · show ((dumpHeader D {}).bind fun r => dumpFunction D f none r.2).map (·.2) = some d
    rw [hheader]
    show (dumpFunction D f none s).map (·.2) = some d
    rw [hdump]
    rfl
  · have himage : d.blocks.flatten ++ rest = luaUHeader S.machine ++ (bs ++ rest) := by
      have hout : d.blocks.flatten = [luaUHeader S.machine].flatten ++ bs := hout
      rw [hout, List.flatten_singleton, List.append_assoc]
    have hload := hload rest
    rw [show link.before d rest = ⟨rest, d.blocks.flatten.length,
      d.blocks.flatten.length - LUAC_HEADERSIZE, d.padded⟩ by
        rw [← hgood'.2.2]; rfl] at hload
    rw [himage, undump_eq S nCcalls rfl, checkHeader_self]
    exact hload

/-- A dumper for a little-endian target with numbers of 4 bytes, and the loader there. -/
def dumperFor (integral : Bool) : Dumper :=
  ⟨fun _ _ => 0, false, ⟨true, 4, 4, 4, integral, false⟩, true⟩

def loaderFor (integral : Bool) : Loader :=
  { machine := ⟨true, false, 4, integral, 8⟩, direct := false, checkcode := fun _ => true }

/-- A function that only returns, with these constants and functions inside. -/
def returning (source : Option TString) (k : List TValue) (inner : List Proto) : Proto :=
  ⟨source, 0, 0, 0, 0, 0, 2, [0x0080001E], k, inner, [1], [⟨some [0x78], 0, 1⟩], []⟩

theorem returning_fits {k : List TValue} {inner : List Proto} (hk : VectorFits 8 k.length)
    (hconsts : ∀ o ∈ k, TValue.Fits (dumperFor true).target o)
    (hp : VectorFits SIZEOF_POINTER inner.length) :
    (returning (some [0x40, 0x61]) k inner).Fits (dumperFor true).target
      (loaderFor true).machine where
  source := by simp [returning]
  sourceFits := by simp only [returning]; decide
  linedefined := by simp only [returning]; decide
  lastlinedefined := by simp only [returning]; decide
  code := by simp only [returning]; decide
  k := hk
  consts := hconsts
  p := hp
  lineinfo := by simp only [returning]; decide
  lines := List.forall_mem_singleton.mpr (by decide)
  locvars := by simp only [returning]; decide
  vars := List.forall_mem_singleton.mpr (by decide)
  upvalues := by simp only [returning]; decide
  names := by simp only [returning]; decide

/-- A program with a function inside and some constants. -/
def nestedProgram : Proto :=
  returning (some [0x40, 0x61]) [.nil, .boolean true, .number (.int (-7)), .string (some [0x62])]
    [returning (some [0x40, 0x61]) [] []]

/-- The program with a function inside and some constants. -/
theorem bytecode_round_trip_nested :
    nestedProgram.Everywhere (fun g => g.Fits (dumperFor true).target (loaderFor true).machine ∧
      (loaderFor true).checkcode g = true) ∧
    ∃ d, luaUDumpCrosscompile (dumperFor true) nestedProgram = some d ∧ d.status = 0 ∧
      ∀ rest, luaUUndump (loaderFor true) 0 (d.blocks.flatten ++ rest) =
        some (nestedProgram, ⟨rest, d.blocks.flatten.length,
          d.blocks.flatten.length - LUAC_HEADERSIZE, d.padded⟩) := by
  have hfits : nestedProgram.Everywhere (fun g =>
      g.Fits (dumperFor true).target (loaderFor true).machine ∧
        (loaderFor true).checkcode g = true) := by
    refine .intro ⟨returning_fits (by decide) (by decide) (by decide), rfl⟩ fun g hg => ?_
    rw [List.mem_singleton.mp hg]
    refine .intro ⟨returning_fits (by decide) (by decide) (by decide), rfl⟩ fun g hg => ?_
    exact nomatch hg
  have hdepth : nestedProgram.Depth (LUAI_MAXCCALLS - 0) := by
    refine .intro fun g hg => ?_
    rw [List.mem_singleton.mp hg]
    exact .intro fun g hg => nomatch hg
  refine ⟨hfits, bytecode_round_trip (dumperFor true) (loaderFor true) 0 nestedProgram
    (fun _ _ => rfl) rfl ?_ ⟨rfl, rfl, rfl⟩ rfl hdepth hfits⟩
  constructor <;> decide

/-- The least integer of the target gives no dump without an error:
the error is recorded, and the padding of what follows does not end. A
function inside that has no source name comes back with the one of the
function outside. And functions may be nested too deep for the
loader. -/
theorem not_bytecode_round_trip :
    (∀ d, luaUDumpCrosscompile (dumperFor true)
      (returning (some [0x40]) [.number (.int (-2 ^ 31))] []) = some d → d.status ≠ 0) ∧
    (∃ d, luaUDumpCrosscompile (dumperFor true)
        (returning (some [0x40]) [] [returning none [] []]) = some d ∧ d.status = 0 ∧
      (luaUUndump (loaderFor true) 0 d.blocks.flatten).map (·.1) ≠
        some (returning (some [0x40]) [] [returning none [] []])) ∧
    ∃ d, luaUDumpCrosscompile (dumperFor true) nestedProgram = some d ∧ d.status = 0 ∧
      luaUUndump (loaderFor true) 199 d.blocks.flatten = none := by
  refine ⟨?_, ⟨_, rfl, rfl, fun h => ?_⟩, ⟨_, rfl, rfl, by decide +kernel⟩⟩
  · have hstatus : (luaUDumpCrosscompile (dumperFor true)
        (returning (some [0x40]) [.number (.int (-2 ^ 31))] [])).map (·.status) ≠ some 0 := by
      decide
    intro d hd h0
    rw [hd] at hstatus
    exact hstatus (congrArg some h0)
  · -- the names of the functions inside
    have hnames := congrArg (Option.map fun f => f.p.map (·.source)) h
    exact absurd hnames (by decide +kernel)

end Alcor.Proofs.Lua
