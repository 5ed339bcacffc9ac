import Mathlib.Data.List.GetD
import Alcor.Lib.Compare
import Alcor.Proofs.Lua.RoundTrip

/-!
# `Alcor.Proofs.Lua.Direct`: bytecode that is used where it is

The two modes of the loader differ in the vectors of words, which
direct mode does not swap. All other parts are the same in both
(`Same`).

* `tracks_function`: a function that is loaded in both modes is the same
  one only if it is symmetric, when there is something to swap.
* `sameOn_function`: a symmetric function is loaded in direct mode if it
  is in buffered mode.
* `direct_equals_buffered` puts the two together, and
  `not_direct_equals_buffered` is an image for which they differ.
-/

set_option autoImplicit false

namespace Alcor.Proofs.Lua

open Lib Lib.Compare Lib.Lockstep
open Alcor.Lua

variable {b : List UInt8} {f : Proto}

/-! ### Words -/

/-- A word as it is in the image, from the swapped one. -/
def unswap (swap : Bool) (w : UInt32) : UInt32 := if swap then byteSwap w else w

/-- The value of four bytes in the other order. -/
theorem byteSwap_val (S : Loader) (hb : b.length = 4) :
    byteSwap (UInt32.ofNat (S.val b.reverse)) = UInt32.ofNat (S.val b) := by
  have hval : ∀ bs : List UInt8, bs.length = 4 →
      byteSwap (UInt32.ofNat (leVal bs)) = UInt32.ofNat (leVal bs.reverse) := by
    intro bs hbs
    have hlt := leVal_lt bs
    rw [hbs] at hlt
    rw [byteSwap, UInt32.toNat_ofNat_of_lt' (by exact hlt)]
    nth_rewrite 1 [← hbs]
    rw [leBytes_leVal]
  rw [Loader.val, Loader.val, valIn, valIn]
  cases S.machine.littleEndian
  · simpa using hval b hb
  · simpa using hval b.reverse (by simpa using hb)

theorem unswap_word (S : Loader) (hb : b.length = 4) :
    UInt32.ofNat (S.val b) = unswap S.swap (UInt32.ofNat (S.val (swapped S b))) := by
  rw [unswap, swapped]
  cases S.swap
  · rfl
  · exact (byteSwap_val S hb).symm

/-- One word in both modes. -/
theorem loadBlock_four {s s' : LoadState} (h : loadBlock 4 s = some (b, s')) : b.length = 4 := by
  rw [loadBlock] at h
  split at h
  · next hle =>
      obtain ⟨rfl, -⟩ := Prod.mk.inj (Option.some.inj h)
      exact List.length_take_of_le hle
  · cases h

section Modes
variable (S : Loader)

/-- A word of a vector in buffered mode. -/
def bufferedWord : LoadM UInt32 :=
  loadVar S.buffered 4 >>= fun e => pure (UInt32.ofNat (S.buffered.val e))

/-- A word of a vector in direct mode. -/
def directWord : LoadM UInt32 :=
  loadBlock 4 >>= fun e => pure (UInt32.ofNat (S.directly.val e))

theorem bufferedWord_eq :
    bufferedWord S = loadBlock 4 >>= fun b => pure (UInt32.ofNat (S.val (swapped S b))) := by
  rw [bufferedWord, loadVar_four]
  simp only [bind_assoc, pure_bind]
  rfl

theorem tracks_word : Tracks (fun w w' => w' = unswap S.swap w) (bufferedWord S) (directWord S) := by
  rw [bufferedWord_eq, directWord]
  intro s w t w' u hw hw'
  obtain ⟨b, t', hb, hw⟩ := bind_eq_some.mp hw
  obtain ⟨b', u', hb', hw'⟩ := bind_eq_some.mp hw'
  obtain ⟨rfl, rfl⟩ := Prod.mk.inj (Option.some.inj (hb.symm.trans hb'))
  obtain ⟨rfl, rfl⟩ := Prod.mk.inj (Option.some.inj hw)
  obtain ⟨rfl, rfl⟩ := Prod.mk.inj (Option.some.inj hw')
  exact ⟨rfl, unswap_word S (loadBlock_four hb)⟩

theorem sameOn_word :
    SameOn (fun w => unswap S.swap w = w) (bufferedWord S) (directWord S) := by
  rw [bufferedWord_eq, directWord]
  intro s w t hw hsym
  obtain ⟨b, t', hb, hw⟩ := bind_eq_some.mp hw
  obtain ⟨rfl, rfl⟩ := Prod.mk.inj (Option.some.inj hw)
  refine bind_eq_some.mpr ⟨b, t', hb, ?_⟩
  rw [← unswap_word S (loadBlock_four hb)] at hsym
  exact congrArg (fun x => some (x, t')) hsym

/-- A vector that is copied fits into memory, and is read word by word in both modes. -/
theorem loadWords_eq {n : Nat} (hn : n + 1 ≤ MAX_SIZET / 4) :
    loadWords S.buffered n = times (bufferedWord S) n ∧
      loadWords S.directly n = times (directWord S) n := by
  have hsize : n * 4 < 2 ^ 32 := by
    have : n + 1 ≤ 1073741823 := hn
    omega
  constructor
  · rw [loadWords_buffered rfl, newVector, if_pos hn, pure_bind]
    rfl
  · rw [loadWords_direct rfl hsize]
    rfl

/-- A vector that does not fit into memory is not copied. -/
theorem loadWords_none {n : Nat} (hn : ¬ n + 1 ≤ MAX_SIZET / 4) (s : LoadState) :
    loadWords S.buffered n s = none := by
  rw [loadWords_buffered rfl, newVector, if_neg hn]
  rfl

/-- A vector of words in both modes. -/
theorem tracks_words (n : Nat) :
    Tracks (fun ws ws' => ws' = ws.map (unswap S.swap)) (loadWords S.buffered n)
      (loadWords S.directly n) := by
  by_cases hn : n + 1 ≤ MAX_SIZET / 4
  · rw [(loadWords_eq S hn).1, (loadWords_eq S hn).2]
    refine ((tracks_word S).times n).mono fun ws ws' h => ?_
    induction h with
    | nil => rfl
    | cons hw _ ih => rw [hw, ih, List.map_cons]
  · intro s ws t ws' u h
    rw [loadWords_none S hn] at h
    cases h

theorem sameOn_words (n : Nat) :
    SameOn (fun ws => ∀ w ∈ ws, unswap S.swap w = w) (loadWords S.buffered n)
      (loadWords S.directly n) := by
  by_cases hn : n + 1 ≤ MAX_SIZET / 4
  · rw [(loadWords_eq S hn).1, (loadWords_eq S hn).2]
    exact (sameOn_word S).times n
  · intro s ws t h
    rw [loadWords_none S hn] at h
    cases h

/-! ### What is the same in both modes -/

/-- A string in the image has the bytes of its copy. -/
theorem same_string : Same (loadString S.buffered) (loadString S.directly) := by
  refine (Same.refl _).bind fun b => ?_
  dsimp only
  have hval : S.directly.val b = S.buffered.val b := rfl
  rw [hval]
  split
  · exact Same.refl _
  · split
    · -- a string that cannot be copied
      intro s x s' h
      cases h
    · next hneg =>
        rw [if_neg (by simp [Loader.directly])]
        exact Same.refl _

theorem same_constant : Same (loadConstant S.buffered) (loadConstant S.directly) := by
  refine (Same.refl _).bind fun t => ?_
  repeat' split
  · exact Same.refl _
  · exact Same.refl _
  · exact Same.refl _
  · exact (same_string S).bind fun _ => Same.refl _
  · exact Same.refl _

theorem same_locVar : Same (loadLocVar S.buffered) (loadLocVar S.directly) :=
  (same_string S).bind fun _ => Same.refl _

/-! ### Instructions, functions inside, and debug information -/

theorem tracks_code :
    Tracks (fun c c' => c' = c.map (unswap S.swap)) (loadCode S.buffered)
      (loadCode S.directly) := by
  refine (Same.refl _).bind_tracks fun n => ?_
  exact (Same.refl _).bind_tracks fun _ => tracks_words S _

theorem sameOn_code :
    SameOn (fun c => ∀ i ∈ c, unswap S.swap i = i) (loadCode S.buffered)
      (loadCode S.directly) := by
  refine (Same.refl _).bind_sameOn fun n => ?_
  exact (Same.refl _).bind_sameOn fun _ => sameOn_words S _

/-- The functions inside decide about the constants part. -/
theorem tracks_constants {R : Proto → Proto → Prop} {l l' : LoadM Proto} (h : Tracks R l l') :
    Tracks (fun r r' => List.Forall₂ R r.2 r'.2) (loadConstants S.buffered l)
      (loadConstants S.directly l') := by
  refine (Same.refl _).bind_tracks fun n => ?_
  refine (Same.refl _).bind_tracks fun _ => ?_
  refine ((same_constant S).times _).bind_tracks fun k => ?_
  refine (Same.refl _).bind_tracks fun n => ?_
  refine (Same.refl _).bind_tracks fun _ => ?_
  exact (h.times _).bind fun p p' hp => Tracks.pure hp

theorem sameOn_constants {Q : Proto → Prop} {l l' : LoadM Proto} (h : SameOn Q l l') :
    SameOn (fun r => ∀ g ∈ r.2, Q g) (loadConstants S.buffered l)
      (loadConstants S.directly l') := by
  refine (Same.refl _).bind_sameOn fun n => ?_
  refine (Same.refl _).bind_sameOn fun _ => ?_
  refine ((same_constant S).times _).bind_sameOn fun k => ?_
  refine (Same.refl _).bind_sameOn fun n => ?_
  refine (Same.refl _).bind_sameOn fun _ => ?_
  refine (h.times _).bind (fun p => Yields.pure id) fun p => (Same.refl _).sameOn _

theorem tracks_debug :
    Tracks (fun r r' => r'.1 = r.1.map fun l => (unswap S.swap l.toUInt32).toInt32)
      (loadDebug S.buffered) (loadDebug S.directly) := by
  refine (Same.refl _).bind_tracks fun n => ?_
  refine (Same.refl _).bind_tracks fun _ => ?_
  refine (tracks_words S _).bind fun ws ws' hws => ?_
  refine (Same.refl _).bind_tracks fun n => ?_
  refine (Same.refl _).bind_tracks fun _ => ?_
  refine ((same_locVar S).times _).bind_tracks fun locvars => ?_
  refine (Same.refl _).bind_tracks fun n => ?_
  refine (Same.refl _).bind_tracks fun _ => ?_
  refine ((same_string S).times _).bind_tracks fun upvalues => ?_
  refine Tracks.pure ?_
  simp [hws]

/-- Line numbers that are all symmetric are the same. -/
theorem sameOn_debug :
    SameOn (fun r => ∀ l ∈ r.1, unswap S.swap l.toUInt32 = l.toUInt32) (loadDebug S.buffered)
      (loadDebug S.directly) := by
  refine (Same.refl _).bind_sameOn fun n => ?_
  refine (Same.refl _).bind_sameOn fun _ => ?_
  refine (sameOn_words S _).bind (fun ws => ?_) fun ws => ?_
  · -- the lines are in the result
    refine Yields.bind fun _ => Yields.bind fun _ => Yields.bind fun _ => Yields.bind fun _ =>
      Yields.bind fun _ => Yields.bind fun _ => Yields.pure ?_
    intro hall w hw
    exact hall w.toInt32 (List.mem_map_of_mem hw)
  · refine Same.sameOn ?_ _
    refine (Same.refl _).bind fun n => ?_
    refine (Same.refl _).bind fun _ => ?_
    refine ((same_locVar S).times _).bind fun locvars => ?_
    refine (Same.refl _).bind fun n => ?_
    refine (Same.refl _).bind fun _ => ?_
    exact ((same_string S).times _).bind fun _ => Same.refl _

/-! ### Functions -/

/-- The function and those inside have only words that are the same in the image. -/
def Unchanged (swap : Bool) (f : Proto) : Prop :=
  f.Everywhere fun g => (∀ i ∈ g.code, unswap swap i = i) ∧
    ∀ line ∈ g.lineinfo, unswap swap line.toUInt32 = line.toUInt32

/-- A list that a function leaves as it is. -/
theorem eq_of_map_eq {α : Type} {g : α → α} {xs : List α} (h : xs = xs.map g) :
    ∀ x ∈ xs, g x = x := by
  induction xs with
  | nil => exact fun x hx => nomatch hx
  | cons x xs ih =>
    rw [List.map_cons, List.cons.injEq] at h
    exact List.forall_mem_cons.mpr ⟨h.1.symm, ih h.2⟩

theorem forall_of_forall₂ {α : Type} {P : α → Prop} {xs ys : List α}
    (h : List.Forall₂ (fun x y => x = y → P x) xs ys) (heq : xs = ys) : ∀ x ∈ xs, P x := by
  induction h with
  | nil => exact fun x hx => nomatch hx
  | cons hxy _ ih =>
    rw [List.cons.injEq] at heq
    exact List.forall_mem_cons.mpr ⟨hxy heq.1, ih heq.2⟩

/-- What is asked of a function that was checked. -/
theorem yields_checked {P : Proto → Prop} {b : Bool} (h : P f) :
    Yields P (if b = true then pure f else loadError : LoadM Proto) := by
  cases b
  · intro s g s' hg
    cases hg
  · exact Yields.pure h

theorem tracks_checked {R : Proto → Proto → Prop} {g : Proto} {a b : Bool} (h : R f g) :
    Tracks R (if a = true then pure f else loadError : LoadM Proto)
      (if b = true then pure g else loadError) := by
  intro s x s' y s'' hx hy
  cases a
  · cases hx
  cases b
  · cases hy
  exact Tracks.pure h s x s' y s'' hx hy

/-- A function that is the same in both modes is unchanged. -/
theorem tracks_function (n : Nat) : ∀ p, Tracks (fun f g => f = g → Unchanged S.swap f)
    (loadFunction S.buffered n p) (loadFunction S.directly n p) := by
  induction n with
  | zero =>
    intro p s f s' g s'' h
    cases h
  | succ n ih =>
    intro p
    refine (same_string S).bind_tracks fun name => ?_
    refine (Same.refl _).bind_tracks fun linedefined => ?_
    refine (Same.refl _).bind_tracks fun lastlinedefined => ?_
    refine (Same.refl _).bind_tracks fun nups => ?_
    refine (Same.refl _).bind_tracks fun numparams => ?_
    refine (Same.refl _).bind_tracks fun isVararg => ?_
    refine (Same.refl _).bind_tracks fun maxstacksize => ?_
    refine (tracks_code S).bind fun code code' hcode => ?_
    -- the functions inside, one level deeper
    refine (tracks_constants S (ih _)).bind fun r r' hinner => ?_
    refine (tracks_debug S).bind fun d d' hlines => ?_
    refine tracks_checked fun heq => ?_
    rw [Proto.mk.injEq] at heq
    obtain ⟨-, -, -, -, -, -, -, heqcode, -, heqinner, heqlines, -, -⟩ := heq
    refine .intro ⟨eq_of_map_eq (heqcode.trans hcode), fun line hline => ?_⟩
      (forall_of_forall₂ hinner heqinner)
    exact congrArg Int32.toUInt32 (eq_of_map_eq (heqlines.trans hlines) line hline)

/-- An unchanged function is loaded in direct mode as in buffered mode. -/
theorem sameOn_function (n : Nat) : ∀ p, SameOn (Unchanged S.swap)
    (loadFunction S.buffered n p) (loadFunction S.directly n p) := by
  induction n with
  | zero =>
    intro p s f s' h
    cases h
  | succ n ih =>
    intro p
    refine (same_string S).bind_sameOn fun name => ?_
    refine (Same.refl _).bind_sameOn fun linedefined => ?_
    refine (Same.refl _).bind_sameOn fun lastlinedefined => ?_
    refine (Same.refl _).bind_sameOn fun nups => ?_
    refine (Same.refl _).bind_sameOn fun numparams => ?_
    refine (Same.refl _).bind_sameOn fun isVararg => ?_
    refine (Same.refl _).bind_sameOn fun maxstacksize => ?_
    -- what is read of these three parts is in the function
    refine (sameOn_code S).bind (fun code => ?_) fun code => ?_
    · refine Yields.bind fun r => Yields.bind fun d => yields_checked fun hf => ?_
      obtain ⟨hself, -⟩ := hf
      exact hself.1
    refine (sameOn_constants S (ih _)).bind (fun r => ?_) fun r => ?_
    · refine Yields.bind fun d => yields_checked fun hf => ?_
      obtain ⟨-, hinner⟩ := hf
      exact hinner
    refine (sameOn_debug S).bind (fun d => ?_) fun d => ?_
    · refine yields_checked fun hf => ?_
      obtain ⟨hself, -⟩ := hf
      exact hself.2
    exact (Same.refl _).sameOn _

end Modes

/-! ### Images -/

theorem everywhere_of_forall {P : Proto → Prop} (h : ∀ f, P f) : ∀ f : Proto, f.Everywhere P
  | ⟨_, _, _, _, _, _, _, _, _, _, _, _, _⟩ =>
    .intro (h _) fun g hg =>
      have : sizeOf g < _ := List.sizeOf_lt_of_mem hg
      everywhere_of_forall h g
termination_by f => sizeOf f
decreasing_by
  simp only [Proto.mk.sizeOf_spec]
  dsimp only at this
  omega

theorem unchanged_iff {swap : Bool} :
    Unchanged swap f ↔ ¬ swap = true ∨ f.Everywhere Proto.Symmetric := by
  cases swap with
  | true =>
    show f.Everywhere Proto.Symmetric ↔ _
    simp
  | false =>
    refine iff_of_true ?_ (.inl (by simp))
    exact everywhere_of_forall (fun g => ⟨fun _ _ => rfl, fun _ _ => rfl⟩) f

/-- **Direct mode**: an image that is loaded in buffered mode is
loaded as the same functions in direct mode, exactly if it has the
byte order of the machine, or none of its words depends on that. The
code of a function is not swapped where it stands in memory. -/
theorem direct_equals_buffered (S : Loader) (nCcalls : Nat) (image : List UInt8) (f : Proto)
    (s : LoadState) (h : luaUUndump S.buffered nCcalls image = some (f, s)) :
    luaUUndump S.directly nCcalls image = some (f, s) ↔
      ¬ OtherByteOrder S.machine image ∨ f.Everywhere Proto.Symmetric := by
  obtain ⟨header, rest, rfl, hlen⟩ := exists_header h
  have horder : OtherByteOrder S.machine (header ++ rest) ↔ OtherByteOrder S.machine header := by
    have hlen : header.length = 12 := hlen
    rw [OtherByteOrder, OtherByteOrder, List.getD_append _ _ _ _ (by omega)]
  rw [undump_eq S.buffered nCcalls hlen] at h
  rw [undump_eq S.directly nCcalls hlen]
  obtain ⟨r, hcheck, h⟩ := Option.bind_eq_some_iff.mp h
  have hcheck' : checkHeader S.directly.machine header = some r := hcheck
  have hswap : OtherByteOrder S.machine header ↔ r.1 = true := (swap_iff hcheck).symm
  rw [hcheck', Option.bind_some, horder, hswap, ← unchanged_iff]
  constructor
  · intro hdirect
    exact (tracks_function (withHeader S r) _ _ _ _ _ _ _ h hdirect).2 rfl
  · exact sameOn_function (withHeader S r) _ _ _ _ _ h

/-- The image of a function for a little-endian or a big-endian target. -/
def imageFor (littleEndian : Bool) (f : Proto) : List UInt8 :=
  ((luaUDumpCrosscompile ⟨fun _ _ => 0, false, ⟨littleEndian, 4, 4, 4, true, false⟩, true⟩ f).map
    (·.blocks.flatten)).getD []

/-- A little-endian machine, where the last instruction of a function has to return. -/
def littleMachine : Loader :=
  { machine := ⟨true, false, 4, true, 8⟩
    direct := false
    checkcode := fun f => f.code.getLast?.map (· &&& 0x3F) == some 30 }

/-- An image in the byte order of its machine. -/
theorem direct_equals_buffered_little :
    ∃ f s, luaUUndump littleMachine.buffered 0 (imageFor true nestedProgram) = some (f, s) ∧
      (luaUUndump littleMachine.directly 0 (imageFor true nestedProgram) = some (f, s) ↔
        ¬ OtherByteOrder littleMachine.machine (imageFor true nestedProgram) ∨
          f.Everywhere Proto.Symmetric) := by
  have hloads : (luaUUndump littleMachine.buffered 0 (imageFor true nestedProgram)).isSome :=
    by decide +kernel
  obtain ⟨⟨f, s⟩, h⟩ := Option.isSome_iff_exists.mp hloads
  exact ⟨f, s, h, direct_equals_buffered littleMachine 0 (imageFor true nestedProgram) f s h⟩

/-- A big-endian image is loaded in buffered mode on a little-endian machine, and not in direct
mode. -/
theorem not_direct_equals_buffered :
    ∃ f s, luaUUndump littleMachine.buffered 0 (imageFor false nestedProgram) = some (f, s) ∧
      luaUUndump littleMachine.directly 0 (imageFor false nestedProgram) = none := by
  have hloads : (luaUUndump littleMachine.buffered 0 (imageFor false nestedProgram)).isSome :=
    by decide +kernel
  obtain ⟨⟨f, s⟩, h⟩ := Option.isSome_iff_exists.mp hloads
  refine ⟨f, s, h, Option.isNone_iff_eq_none.mp ?_⟩
  decide +kernel

end Alcor.Proofs.Lua
