import Mathlib.Data.List.TakeWhile
import Mathlib.Algebra.Ring.Nat
import Alcor.Shell.Files

/-!
# `Alcor.Proofs.Shell.Files`: file masks and joined paths

What a mask matches, and what a joined path is in memory.

A mask is matched by one loop over both strings. An asterisk skips to
the first place of the character behind it, and the loop never comes
back, so it finds the shortest sequence and no other one. A path is
joined in a block whose length was computed before, in 32 bits.

* `matches_shortest_iff`: which names a mask matches.
* `not_always_matches`: a mask and a name with a longer sequence.
* `joins_iff`: the path is joined inside of its block exactly if the
  length fits in 32 bits.
* `not_always_joins`: four strings of 2^30 bytes.
-/

set_option autoImplicit false

/-!
## The masks of the shell

`cmn_pattern_matches` goes once over the name and never back: each
asterisk takes the characters up to the first place of the one behind
it. `matches_shortest_iff` says so for all masks, by induction on the
passes of its loop.
-/

namespace Alcor.Proofs.Shell

open Alcor.Shell

variable {ps str rest : Path} {c : UInt8}

/-- Where a scan stops: behind characters that it passes, at one that it does not. -/
theorem dropWhile_eq_cons_iff {α : Type} {p : α → Bool} {l r : List α} {c : α} :
    l.dropWhile p = c :: r ↔ ∃ u, l = u ++ c :: r ∧ (∀ x ∈ u, p x = true) ∧ p c = false := by
  constructor
  · intro h
    refine ⟨l.takeWhile p, ?_, fun x hx => List.mem_takeWhile_imp hx, ?_⟩
    · rw [← h, List.takeWhile_append_dropWhile]
    · have hhead := List.head_dropWhile_not p (l := l) (by rw [h]; exact List.cons_ne_nil c r)
      simpa [h] using hhead
  · rintro ⟨u, rfl, hu, hc⟩
    rw [List.dropWhile_append_of_pos hu, List.dropWhile_cons_of_neg (by simp [hc])]

/-- The question marks behind an asterisk. -/
theorem dropQuestions_eq_cons_iff :
    ps.dropWhile (· = QUESTION) = c :: rest ↔
      ∃ qs, ps = qs ++ c :: rest ∧ (∀ q ∈ qs, q = QUESTION) ∧ c ≠ QUESTION := by
  simp [dropWhile_eq_cons_iff]

/-- The first place of a character. -/
theorem skipTo_eq_cons_iff {d : UInt8} :
    str.dropWhile (· ≠ c) = d :: rest ↔ d = c ∧ ∃ u, str = u ++ c :: rest ∧ c ∉ u := by
  rw [dropWhile_eq_cons_iff]
  constructor
  · rintro ⟨u, rfl, hu, hd⟩
    obtain rfl : d = c := by simpa using hd
    exact ⟨rfl, u, rfl, fun hmem => by simpa using hu d hmem⟩
  · rintro ⟨rfl, u, rfl, hu⟩
    exact ⟨u, rfl, fun x hx => by simpa using fun h : x = d => hu (h ▸ hx), by simp⟩

/-! ### What the masks of the shell come to, by their first character -/

theorem matchesShortest_nil_iff : MatchesShortest [] str ↔ str = [] :=
  ⟨fun h => by cases h; rfl, fun h => h ▸ .nil⟩

theorem matchesShortest_last_iff (h : ps.dropWhile (· = QUESTION) = []) :
    MatchesShortest (STAR :: ps) str :=
  .last str fun q hq => by simpa using List.dropWhile_eq_nil_iff.mp h q hq

/-- An asterisk takes what stands before the first place of the
character behind it. -/
theorem matchesShortest_star_iff (h : ps.dropWhile (· = QUESTION) = c :: rest) (hc : c ≠ STAR) :
    MatchesShortest (STAR :: ps) str ↔
      ∃ u s, str = u ++ c :: s ∧ c ∉ u ∧ MatchesShortest rest s := by
  obtain ⟨qs, rfl, hqs, hne⟩ := dropQuestions_eq_cons_iff.mp h
  constructor
  · intro hm
    generalize hpat : STAR :: (qs ++ c :: rest) = pattern at hm
    cases hm with
    | nil => cases hpat
    | last _ hall =>
      obtain rfl := (List.cons.inj hpat).2
      exact absurd (hall c (by simp)) hne
    | @star qs' ps' u s c' hqs' hne' _ hu hm =>
      -- both are what the scan over the question marks leaves
      have hsame := dropQuestions_eq_cons_iff.mpr ⟨qs', (List.cons.inj hpat).2, hqs', hne'⟩
      rw [h] at hsame
      obtain ⟨rfl, rfl⟩ := List.cons.inj hsame
      exact ⟨u, s, rfl, hu, hm⟩
    | question c hm => exact absurd (List.cons.inj hpat).1 (by decide)
    | char hstar _ _ => exact absurd (List.cons.inj hpat).1.symm hstar
  · rintro ⟨u, s, rfl, hu, hm⟩
    exact .star hqs hne hc hu hm

theorem matchesShortest_char_iff {p : UInt8} (hp : p ≠ STAR) :
    MatchesShortest (p :: ps) str ↔
      ∃ c s, str = c :: s ∧ (p = QUESTION ∨ p = c) ∧ MatchesShortest ps s := by
  constructor
  · intro hm
    cases hm with
    | last _ _ => exact absurd rfl hp
    | star _ _ _ _ _ => exact absurd rfl hp
    | question c hm => exact ⟨c, _, rfl, .inl rfl, hm⟩
    | char _ _ hm => exact ⟨p, _, rfl, .inr rfl, hm⟩
  · rintro ⟨c, s, rfl, hor, hm⟩
    by_cases hq : p = QUESTION
    · exact hq ▸ .question c hm
    · obtain rfl := hor.resolve_left hq
      exact .char hp hq hm

/-! ### The loop -/

theorem starsApart_drop (h : starsApart ps = true)
    (hdrop : ps.dropWhile (· = QUESTION) = c :: rest) : starsApart rest = true := by
  obtain ⟨qs, rfl, -, -⟩ := dropQuestions_eq_cons_iff.mp hdrop
  clear hdrop
  induction qs with
  | nil => exact (Bool.and_eq_true_iff.mp h).2
  | cons q qs ih => exact ih (Bool.and_eq_true_iff.mp h).2

theorem length_dropQuestions_le (ps : Path) : (ps.dropWhile (· = QUESTION)).length ≤ ps.length :=
  (List.dropWhile_suffix _).length_le

/-- The loop with enough passes. -/
theorem patternMatchesLoop_iff (n : Nat) :
    ∀ str pattern : Path, pattern.length ≤ n → starsApart pattern = true →
      (patternMatchesLoop n str pattern = true ↔ MatchesShortest pattern str) := by
  induction n with
  | zero =>
    intro str pattern hlen _
    obtain rfl := List.eq_nil_of_length_eq_zero (Nat.le_zero.mp hlen)
    rw [matchesShortest_nil_iff, patternMatchesLoop, List.isEmpty_iff]
  | succ n ih =>
    rintro str (_ | ⟨p, ps⟩) hlen hapart
    · rw [matchesShortest_nil_iff, patternMatchesLoop, List.isEmpty_iff]
    rw [List.length_cons] at hlen
    obtain ⟨hstar, hrest⟩ := Bool.and_eq_true_iff.mp hapart
    by_cases hp : p = STAR
    · subst hp
      rw [patternMatchesLoop.eq_def]
      dsimp only
      rw [if_pos rfl]
      cases hdrop : ps.dropWhile (· = QUESTION) with
      | nil => exact ⟨fun _ => matchesShortest_last_iff hdrop, fun _ => rfl⟩
      | cons c rest =>
        have hc : c ≠ STAR := by
          rintro rfl
          simp [hdrop] at hstar
        have hle := length_dropQuestions_le ps
        rw [hdrop, List.length_cons] at hle
        rw [matchesShortest_star_iff hdrop hc]
        dsimp only
        cases hskip : str.dropWhile (· ≠ c) with
        | nil =>
          -- the character is not there
          refine ⟨fun h => absurd h Bool.false_ne_true, ?_⟩
          rintro ⟨u, s, rfl, hu, -⟩
          rw [skipTo_eq_cons_iff.mpr ⟨rfl, u, rfl, hu⟩] at hskip
          cases hskip
        | cons d s =>
          obtain ⟨rfl, u, rfl, hu⟩ := skipTo_eq_cons_iff.mp hskip
          dsimp only
          rw [ih s rest (by omega) (starsApart_drop hrest hdrop)]
          constructor
          · exact fun hm => ⟨u, s, rfl, hu, hm⟩
          · rintro ⟨u', s', heq, hu', hm⟩
            rw [skipTo_eq_cons_iff.mpr ⟨rfl, u', heq, hu'⟩] at hskip
            exact (List.cons.inj hskip).2 ▸ hm
    · rw [patternMatchesLoop.eq_def]
      dsimp only
      rw [if_neg hp, matchesShortest_char_iff hp]
      cases str with
      | nil =>
        refine ⟨fun h => absurd h Bool.false_ne_true, ?_⟩
        rintro ⟨c, s, h, -⟩
        cases h
      | cons c s =>
        dsimp only
        split
        · next hor =>
            rw [ih s ps (by omega) hrest]
            constructor
            · exact fun hm => ⟨c, s, rfl, hor, hm⟩
            · rintro ⟨c', s', heq, -, hm⟩
              exact (List.cons.inj heq).2 ▸ hm
        · next hor =>
            refine ⟨fun h => absurd h Bool.false_ne_true, ?_⟩
            rintro ⟨c', s', heq, hor', -⟩
            obtain ⟨rfl, -⟩ := List.cons.inj heq
            exact absurd hor' hor

/-- **File masks** match the names that they match with the shortest
sequences, as far as no asterisk follows another one with only
question marks between them. By induction on the passes of the loop. -/
theorem matches_shortest_iff (str pattern : Path) (hapart : starsApart pattern = true) :
    cmnPatternMatches str pattern = true ↔ MatchesShortest pattern str :=
  patternMatchesLoop_iff pattern.length str pattern (Nat.le_refl _) hapart

/-- `a*b` and `aaab`. -/
theorem matches_shortest_ab :
    cmnPatternMatches [97, 97, 97, 98] [97, 42, 98] = true ↔
      MatchesShortest [97, 42, 98] [97, 97, 97, 98] :=
  matches_shortest_iff _ _ (by decide)

/-- `a*b` and `abb`, where the asterisk would have to take the first `b`. -/
theorem not_always_matches :
    ¬ ∀ str pattern : Path, cmnPatternMatches str pattern = true ↔ Matches pattern str := by
  intro h
  have hmatch : Matches [97, 42, 98] [97, 98, 98] :=
    .char (by decide) (by decide) (.star [98] (.char (by decide) (by decide) .nil))
  exact absurd ((h [97, 98, 98] [97, 42, 98]).mpr hmatch) (by decide)

end Alcor.Proofs.Shell

/-!
## The block of a joined path

The length that `cmn_fs_path_join` computes is that of the text it
writes, so the block is just large enough, unless the length is too great
for 32 bits. `pathJoinLoop_fits` and `str_of_pathJoinLoop` follow the
text through the appends.
-/

namespace Alcor.Proofs.Shell

open Lib (Mem Buf CStr u32 sub32)
open Alcor.Shell

variable {text : Path} {res : Buf}

/-! ### The text -/

/-- The element without its leading slash. -/
def withoutSlash (p : Path) : Path := if p.head? = some SLASH then p.drop 1 else p

/-- The text with one more element. -/
def appendPart (text p : Path) : Path :=
  if p = [] then text
  else if (text ++ withoutSlash p).getLast? = some SLASH then text ++ withoutSlash p
  else text ++ withoutSlash p ++ [SLASH]

/-- The bytes of an element. -/
def contribution (p : Path) : Nat :=
  if p = [] then 0
  else p.length + (if p.getLast? = some SLASH then 0 else 1) -
    (if p.head? = some SLASH then 1 else 0)

theorem joined_foldl (parts : List Path) :
    joined parts = (parts.foldl appendPart [SLASH]).dropLast := rfl

theorem joinTotal_eq (parts : List Path) :
    joinTotal parts = ((parts.map contribution).sum : Nat) := by
  induction parts with
  | nil => rfl
  | cons p parts ih =>
    have hhead : joinTotal (p :: parts) = joinTotal [p] + joinTotal parts := by
      simp [joinTotal]
    rw [hhead, ih, List.map_cons, List.sum_cons, Nat.cast_add]
    congr 1
    simp only [joinTotal, contribution, List.map_cons, List.map_nil, List.sum_cons, List.sum_nil]
    cases p with
    | nil => rfl
    | cons c p =>
      simp only [reduceCtorEq, if_false, List.length_cons]
      split <;> split <;> omega

theorem appendPart_last (htext : text.getLast? = some SLASH) (p : Path) :
    (appendPart text p).getLast? = some SLASH := by
  unfold appendPart
  split
  · exact htext
  · split
    · next h => exact h
    · exact List.getLast?_concat

/-- Behind a slash an element adds its contribution. -/
theorem length_appendPart (htext : text.getLast? = some SLASH) (p : Path) :
    (appendPart text p).length = text.length + contribution p := by
  cases p with
  | nil => rfl
  | cons c p =>
    have hlast : (text ++ withoutSlash (c :: p)).getLast? = some SLASH ↔
        (c :: p).getLast? = some SLASH := by
      unfold withoutSlash
      split
      · next hslash =>
          obtain rfl : c = SLASH := Option.some.inj hslash
          cases p with
          | nil => simp [htext]
          | cons d p => simp [List.getLast?_append]
      · simp [List.getLast?_append, List.getLast?_cons]
    have hlen : (withoutSlash (c :: p)).length =
        p.length + 1 - (if (c :: p).head? = some SLASH then 1 else 0) := by
      unfold withoutSlash
      split <;> simp
    -- the slash the source adds behind the element is the one the count adds
    unfold appendPart contribution
    simp only [reduceCtorEq, if_false, hlast, List.length_cons]
    split
    · rw [List.length_append, hlen]
    · rw [List.length_append, List.length_append, hlen, List.length_singleton]
      split <;> omega

theorem length_foldl_appendPart (parts : List Path) :
    ∀ text : Path, text.getLast? = some SLASH →
      (parts.foldl appendPart text).length = text.length + (parts.map contribution).sum := by
  induction parts with
  | nil => intro text _; rfl
  | cons p parts ih =>
    intro text htext
    rw [List.foldl_cons, ih _ (appendPart_last htext p), length_appendPart htext, List.map_cons,
      List.sum_cons, Nat.add_assoc]

/-! ### The length -/

theorem lastchar_eq_iff {s : Path} : lastchar s = SLASH ↔ s.getLast? = some SLASH := by
  unfold lastchar
  cases s.getLast? with
  | none => decide
  | some c => simp

theorem firstchar_eq_iff {s : Path} : firstchar s = SLASH ↔ s.head? = some SLASH := by
  unfold firstchar
  cases s.head? with
  | none => decide
  | some c => simp

/-- The length is computed modulo 2^32. -/
theorem pathJoinTotal_eq (parts : List CStr) :
    ∀ total, total < 2 ^ 32 →
      pathJoinTotal parts total =
        u32 (total + ((parts.map CStr.bytes).map contribution).sum) := by
  induction parts with
  | nil =>
    intro total htotal
    rw [pathJoinTotal, List.map_nil, List.map_nil, List.sum_nil, Nat.add_zero,
      Lib.u32_of_lt htotal]
  | cons tmp parts ih =>
    intro total htotal
    rw [pathJoinTotal, List.map_cons, List.map_cons, List.sum_cons]
    generalize ((parts.map CStr.bytes).map contribution).sum = rest at ih
    by_cases hempty : tmp.bytes = []
    · have hzero : contribution tmp.bytes = 0 := if_pos hempty
      have hlen : ¬ 0 < tmp.bytes.length := by rw [hempty]; exact Nat.lt_irrefl 0
      rw [if_neg hlen, ih total htotal, hzero, Nat.zero_add]
    · have hpos : 0 < tmp.bytes.length := List.length_pos_of_ne_nil hempty
      have hcontribution : contribution tmp.bytes =
          tmp.bytes.length + (if tmp.bytes.getLast? = some SLASH then 0 else 1) -
            (if tmp.bytes.head? = some SLASH then 1 else 0) := if_neg hempty
      rw [if_pos hpos, hcontribution]
      simp only [lastchar_eq_iff, firstchar_eq_iff]
      generalize (if tmp.bytes.getLast? = some SLASH then 0 else 1) = slash
      -- the decrement may wrap a sum that has just become 0 back to 2^32 - 1
      split
      · rw [ih _ (show sub32 _ 1 < 2 ^ 32 from Lib.u32_lt _)]
        simp only [sub32, u32]
        omega
      · rw [ih _ (Lib.u32_lt _)]
        simp only [u32]
        omega

/-! ### The appends -/

theorem lastcharOf_eq (h : res.Str 0 text) (hne : text ≠ []) :
    ∃ c, lastcharOf res = some c ∧ (c = SLASH ↔ text.getLast? = some SLASH) := by
  obtain ⟨u, c, rfl⟩ := (List.eq_nil_or_concat text).resolve_left hne
  rw [List.concat_eq_append] at h ⊢
  have hbyte := Buf.Str.byte (u := u) (v := []) h
  refine ⟨c, ?_, by rw [List.getLast?_concat, Option.some.injEq]⟩
  rw [lastcharOf, Buf.strlen?_of_str h, Option.bind_some, List.length_append,
    List.length_singleton, if_neg (Nat.succ_ne_zero _), Nat.add_sub_cancel]
  rw [Nat.zero_add] at hbyte
  exact hbyte

theorem nulFree_withoutSlash (tmp : CStr) : 0 ∉ withoutSlash tmp.bytes := by
  unfold withoutSlash
  split
  · exact fun h => tmp.nulFree (List.mem_of_mem_drop h)
  · exact tmp.nulFree

theorem element_eq (tmp : CStr) :
    (if firstchar tmp.bytes = SLASH then tmp.bytes.drop 1 else tmp.bytes) =
      withoutSlash tmp.bytes := by
  simp only [firstchar_eq_iff, withoutSlash]

/-- A pass that stays in the block has appended an element. -/
theorem str_of_pathJoinLoop (parts : List CStr) :
    ∀ {res res' : Buf} {text : Path}, res.Str 0 text → text ≠ [] →
      pathJoinLoop parts res = some res' →
        res'.Str 0 ((parts.map CStr.bytes).foldl appendPart text) ∧ res'.size = res.size := by
  induction parts with
  | nil =>
    intro res res' text h _ hloop
    obtain rfl := Option.some.inj hloop
    exact ⟨h, rfl⟩
  | cons tmp parts ih =>
    intro res res' text h hne hloop
    rw [pathJoinLoop, element_eq] at hloop
    rw [List.map_cons, List.foldl_cons]
    by_cases hempty : tmp.bytes = []
    · rw [if_neg (by rw [hempty]; exact Nat.lt_irrefl 0)] at hloop
      rw [appendPart, if_pos hempty]
      exact ih h hne hloop
    · rw [if_pos (List.length_pos_of_ne_nil hempty)] at hloop
      simp only [Option.bind_eq_bind, Option.bind_eq_some_iff] at hloop
      -- the `strcat` of the element, then the look at the last character
      obtain ⟨res₁, hcat, last, hlast, hloop⟩ := hloop
      obtain ⟨h₁, hsize₁⟩ := Buf.str_of_strcat h (nulFree_withoutSlash tmp) hcat
      have hne₁ : text ++ withoutSlash tmp.bytes ≠ [] := List.append_ne_nil_of_left_ne_nil hne _
      obtain ⟨c, hc, hiff⟩ := lastcharOf_eq h₁ hne₁
      obtain rfl := Option.some.inj (hc.symm.trans hlast)
      rw [appendPart, if_neg hempty]
      simp only [← hiff]
      split at hloop
      · next hc =>
          rw [if_pos hc]
          obtain ⟨h', hsize'⟩ := ih h₁ hne₁ hloop
          exact ⟨h', hsize'.trans hsize₁⟩
      · next hc =>
          obtain ⟨res₂, hcat₂, hloop⟩ := Option.bind_eq_some_iff.mp hloop
          obtain ⟨h₂, hsize₂⟩ := Buf.str_of_strcat h₁ (by decide) hcat₂
          rw [if_neg hc]
          obtain ⟨h', hsize'⟩ := ih h₂ (List.append_ne_nil_of_left_ne_nil hne₁ _) hloop
          exact ⟨h', hsize'.trans (hsize₂.trans hsize₁)⟩

/-- When the whole text fits, every pass stays in the block. -/
theorem pathJoinLoop_fits (parts : List CStr) :
    ∀ {res : Buf} {text : Path}, res.Str 0 text → text.getLast? = some SLASH →
      text.length + ((parts.map CStr.bytes).map contribution).sum < res.size →
        ∃ res', pathJoinLoop parts res = some res' := by
  induction parts with
  | nil => exact fun _ _ _ => ⟨_, rfl⟩
  | cons tmp parts ih =>
    intro res text h htext hfits
    rw [List.map_cons, List.map_cons, List.sum_cons, ← Nat.add_assoc,
      ← length_appendPart htext] at hfits
    have hne : text ≠ [] := by
      rintro rfl
      cases htext
    have hlast' := appendPart_last htext tmp.bytes
    rw [pathJoinLoop, element_eq]
    by_cases hempty : tmp.bytes = []
    · rw [if_neg (by rw [hempty]; exact Nat.lt_irrefl 0)]
      rw [appendPart, if_pos hempty] at hfits
      exact ih h htext hfits
    · rw [if_pos (List.length_pos_of_ne_nil hempty)]
      have hne₁ : text ++ withoutSlash tmp.bytes ≠ [] := List.append_ne_nil_of_left_ne_nil hne _
      have hlen : (text ++ withoutSlash tmp.bytes).length ≤
          (appendPart text tmp.bytes).length := by
        rw [appendPart, if_neg hempty]
        split
        · exact Nat.le_refl _
        · rw [@List.length_append _ _ [SLASH]]
          exact Nat.le_add_right _ _
      obtain ⟨res₁, hcat, hsize₁, h₁⟩ := Buf.strcat?_of_str h (nulFree_withoutSlash tmp)
        (by rw [List.length_append] at hlen; omega)
      obtain ⟨c, hc, hiff⟩ := lastcharOf_eq h₁ hne₁
      simp only [hcat, hc, Option.bind_eq_bind, Option.bind_some]
      rw [appendPart, if_neg hempty] at hfits hlast'
      split
      · next hslash =>
          rw [if_pos (hiff.mp hslash)] at hfits hlast'
          exact ih h₁ hlast' (by rw [hsize₁]; exact hfits)
      · next hslash =>
          rw [if_neg (fun hl => hslash (hiff.mpr hl))] at hfits hlast'
          obtain ⟨res₂, hcat₂, hsize₂, h₂⟩ := Buf.strcat?_of_str h₁ (t := [SLASH]) (by decide)
            (by rw [@List.length_append _ _ [SLASH]] at hfits; rw [hsize₁]; omega)
          rw [hcat₂, Option.bind_some]
          exact ih h₂ hlast' (by rw [hsize₂, hsize₁]; exact hfits)

/-! ### The function -/

section Function
variable {parts : List CStr}

theorem pathJoinTotal_zero (parts : List CStr) :
    pathJoinTotal parts 0 = u32 ((parts.map CStr.bytes).map contribution).sum := by
  rw [pathJoinTotal_eq parts 0 (by decide), Nat.zero_add]

/-- What the text comes to is as long as the length says. -/
theorem length_text (parts : List CStr) :
    ((parts.map CStr.bytes).foldl appendPart [SLASH]).length =
      ((parts.map CStr.bytes).map contribution).sum + 1 := by
  rw [length_foldl_appendPart _ _ rfl, List.length_singleton, Nat.add_comm]

theorem str_slash {mem : Mem} {size : Nat} (hcpy : Buf.strcpy? ⟨mem, size⟩ 0 [SLASH] = some res) :
    res.Str 0 [SLASH] ∧ res.size = size :=
  Buf.str_of_put hcpy (by decide)

/-- A call that returns a path has had a block that is large enough. -/
theorem fits_of_path {malloc : Nat → Option Mem} (h : cmnFsPathJoinAt malloc parts = .path res) :
    joinTotal (parts.map CStr.bytes) + 2 < 2 ^ 32 := by
  rw [joinTotal_eq]
  unfold cmnFsPathJoinAt at h
  dsimp only at h
  split at h
  · cases h
  split at h
  · cases h
  split at h
  · cases h
  next hjoined =>
    simp only [Option.bind_eq_bind, Option.bind_eq_some_iff] at hjoined
    obtain ⟨res₀, hcpy, res₁, hloop, -⟩ := hjoined
    obtain ⟨hstr₀, hsize₀⟩ := str_slash hcpy
    obtain ⟨hstr₁, hsize₁⟩ := str_of_pathJoinLoop parts hstr₀ (by decide) hloop
    have hfits := hstr₁.fits
    have hsize := Lib.u32_lt (pathJoinTotal parts 0 + 2)
    rw [length_text, hsize₁, hsize₀] at hfits
    omega

/-- With a block that is large enough the path is joined. -/
theorem joins_of_fits (mem : Nat → Mem) (hpos : 0 < joinTotal (parts.map CStr.bytes))
    (hfits : joinTotal (parts.map CStr.bytes) + 2 < 2 ^ 32) : Joins mem parts := by
  rw [joinTotal_eq] at hpos hfits
  have htotal := pathJoinTotal_zero parts
  have htext := length_text parts
  obtain ⟨total, hsum⟩ : ∃ total, ((parts.map CStr.bytes).map contribution).sum = total := ⟨_, rfl⟩
  rw [hsum] at hpos hfits htotal htext
  rw [Lib.u32_of_lt (by omega)] at htotal
  have hsize : u32 (total + 2) = total + 2 := Lib.u32_of_lt (by omega)
  -- the slash, the elements, and the terminator in the place of the last slash
  have hput : Buf.strcpy? ⟨mem (total + 2), total + 2⟩ 0 [SLASH] =
      some ⟨(mem (total + 2)).store 0 [SLASH, 0], total + 2⟩ :=
    Buf.put?_of_le (show 0 + 2 ≤ total + 2 by omega)
  obtain ⟨hstr₀, -⟩ := str_slash hput
  obtain ⟨res, hloop⟩ := pathJoinLoop_fits parts hstr₀ rfl (by
    rw [hsum]
    show 1 + total < total + 2
    omega)
  obtain ⟨hstr, -⟩ := str_of_pathJoinLoop parts hstr₀ (by decide) hloop
  have hne : (parts.map CStr.bytes).foldl appendPart [SLASH] ≠ [] := by
    intro hnil
    rw [hnil] at htext
    cases htext
  have hsplit := List.dropLast_append_getLast hne
  rw [← joined_foldl] at hsplit
  have hlen : (joined (parts.map CStr.bytes)).length + 1 = total + 1 := by
    rw [← htext, ← hsplit, List.length_append, List.length_singleton]
  have hstrlen := Buf.strlen?_of_str hstr
  rw [← hsplit] at hstr
  obtain ⟨res', hcut, -, hstr'⟩ := Buf.str_of_cut hstr
  refine ⟨res', ?_, hstr'⟩
  rw [Nat.zero_add, show (joined (parts.map CStr.bytes)).length = total by omega] at hcut
  unfold cmnFsPathJoinAt
  simp only [htotal, hsize, if_neg (Nat.pos_iff_ne_zero.mp (Int.natCast_pos.mp hpos)), hput, hloop,
    hstrlen, htext, Option.bind_eq_bind, Option.bind_some, Nat.add_sub_cancel, hcut,
    if_neg (Nat.succ_ne_zero total)]

/-- **Joining paths**: for every list of strings that contributes a
character, the function stays inside of the block and returns the path
exactly if the length of the block fits in 32 bits. The loop appends
the elements one by one. -/
theorem joins_iff (mem : Nat → Mem) (parts : List CStr)
    (hpos : 0 < joinTotal (parts.map CStr.bytes)) :
    Joins mem parts ↔ joinTotal (parts.map CStr.bytes) + 2 < 2 ^ 32 := by
  constructor
  · rintro ⟨res, hpath, -⟩
    exact fits_of_path hpath
  · exact joins_of_fits mem hpos

/-- `/rom` and `/a/`. -/
theorem joins_rom : Joins (fun _ _ => 0xFF)
    [⟨[47, 114, 111, 109], by decide⟩, ⟨[47, 97, 47], by decide⟩] :=
  (joins_iff _ _ (by decide)).mpr (by decide)

/-- The letter `a`, so many times. -/
def longName (n : Nat) : CStr := ⟨List.replicate n 97, by simp [List.mem_replicate]⟩

/-- A string of 2^30 bytes, four times: the length of the path is 4, modulo 2^32. -/
theorem not_always_joins :
    ¬ ∀ (mem : Nat → Mem) (parts : List CStr), 0 < joinTotal (parts.map CStr.bytes) →
      Joins mem parts := by
  intro h
  have htotal : joinTotal ((List.replicate 4 (longName (2 ^ 30))).map CStr.bytes) =
      4 * (2 ^ 30 + 1) := by
    have hcontribution : contribution (longName (2 ^ 30)).bytes = 2 ^ 30 + 1 := by
      have hne : (longName (2 ^ 30)).bytes ≠ [] := by
        intro hnil
        have hlen := congrArg List.length hnil
        rw [longName, List.length_replicate] at hlen
        cases hlen
      have hlast : (longName (2 ^ 30)).bytes.getLast? ≠ some SLASH := fun hs =>
        absurd (List.eq_of_mem_replicate (List.mem_of_getLast? hs)) (by decide)
      have hhead : (longName (2 ^ 30)).bytes.head? ≠ some SLASH := fun hs =>
        absurd (List.eq_of_mem_replicate (List.mem_of_mem_head? hs)) (by decide)
      rw [contribution, if_neg hne, if_neg hlast, if_neg hhead, longName, List.length_replicate,
        Nat.sub_zero]
    rw [joinTotal_eq, List.map_replicate, List.map_replicate, List.sum_replicate_nat, hcontribution]
    rfl
  obtain ⟨res, hpath, -⟩ := h (fun _ _ => 0) (List.replicate 4 (longName (2 ^ 30)))
    (by rw [htotal]; decide)
  have hfits := fits_of_path hpath
  rw [htotal] at hfits
  exact absurd hfits (by decide)

end Function

end Alcor.Proofs.Shell
