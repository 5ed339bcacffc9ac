import Alcor.Lib.Memory

/-!
# `Alcor.Lib.Str`: C strings in an object

The string functions of C on an object of known size: `none` is an
access outside of it. `Buf.Str b p s` says that the text `s` stands at
offset `p`, with its terminator, inside the object. The lemmas say what
each function does to a text, so that a proof about strings changed in
place is one about lists.
-/

set_option autoImplicit false

namespace Lib.Buf

variable {c : UInt8} {v : List UInt8}

/-! ### The functions -/

/-- The first zero from `p` on, within so many bytes. -/
def strEndFrom (b : Buf) : Nat → Nat → Option Nat
  | 0,     _ => none
  | n + 1, p => if b.mem p = 0 then some p else strEndFrom b n (p + 1)

/-- Where the string at `p` ends. -/
def strEnd? (b : Buf) (p : Nat) : Option Nat := b.strEndFrom (b.size - p) p

/-- `strlen`. -/
def strlen? (b : Buf) (p : Nat) : Option Nat := (b.strEnd? p).map (· - p)

/-- The first place of a byte from `p` on, up to the terminator, within so many bytes. -/
def strchrFrom (b : Buf) (c : UInt8) : Nat → Nat → Option (Option Nat)
  | 0,     _ => none
  | n + 1, p =>
    if b.mem p = c then some (some p)
    else if b.mem p = 0 then some none
    else strchrFrom b c n (p + 1)

/-- `strchr`: where the byte is, or `NULL`. -/
def strchr? (b : Buf) (p : Nat) (c : UInt8) : Option (Option Nat) :=
  b.strchrFrom c (b.size - p) p

/-- `strcpy` of a text from elsewhere. -/
def strcpy? (b : Buf) (p : Nat) (text : List UInt8) : Option Buf := b.put? p (text ++ [0])

/-- `strcat` of a text from elsewhere. -/
def strcat? (b : Buf) (p : Nat) (text : List UInt8) : Option Buf :=
  (b.strEnd? p).bind fun e => b.put? e (text ++ [0])

/-- `memmove` inside the object. -/
def memmove? (b : Buf) (dst src n : Nat) : Option Buf :=
  if src + n ≤ b.size then b.put? dst (b.mem.read src n) else none

/-- The text of the string at `p`. -/
def text? (b : Buf) (p : Nat) : Option (List UInt8) := (b.strlen? p).map fun n => b.mem.read p n

/-! ### Texts in an object -/

/-- The text stands at the offset, with its terminator, inside the object. -/
structure Str (b : Buf) (p : Nat) (s : List UInt8) : Prop where
  holds : b.mem.Holds p (s ++ [0])
  nulFree : 0 ∉ s
  fits : p + s.length < b.size

variable {b b' : Buf} {p : Nat} {s t : List UInt8}

/-- The rest of a text. -/
theorem Str.drop_left {u : List UInt8} (h : b.Str p (u ++ s)) : b.Str (p + u.length) s := by
  obtain ⟨hholds, hnul, hfits⟩ := h
  rw [List.append_assoc, Mem.holds_append] at hholds
  rw [List.length_append] at hfits
  exact ⟨hholds.2, fun h => hnul (List.mem_append_right u h), by omega⟩

theorem Str.tail (h : b.Str p (c :: s)) : b.Str (p + 1) s :=
  Str.drop_left (u := [c]) h

/-- Each byte of a text can be read at its offset. -/
theorem Str.byte {u : List UInt8} (h : b.Str p (u ++ c :: v)) : b.get? (p + u.length) = some c := by
  have hrest := h.drop_left
  have hfits := hrest.fits
  rw [Buf.get?_of_lt (by omega), ((Mem.holds_cons _ _ _ _).mp hrest.holds).1]

theorem Str.head (h : b.Str p (c :: s)) : b.get? p = some c :=
  Str.byte (u := []) h

/-- The last byte of a text stands before the terminator. -/
theorem Str.last (h : b.Str p s) (hs : s ≠ []) :
    b.get? (p + s.length - 1) = some (s.getLast hs) := by
  rcases List.eq_nil_or_concat' s with rfl | ⟨t, d, rfl⟩
  · exact absurd rfl hs
  · rw [List.length_append, List.length_singleton, ← Nat.add_assoc, Nat.add_sub_cancel, h.byte,
      List.getLast_concat]

/-- Behind the text is the terminator, which is 0. -/
theorem Str.terminator (h : b.Str p s) : b.get? (p + s.length) = some 0 := by
  have hholds := (Mem.holds_append _ _ _ _).mp h.holds
  rw [Buf.get?_of_lt h.fits, ((Mem.holds_cons _ _ _ _).mp hholds.2).1]

theorem strEndFrom_of_str (n : Nat) :
    ∀ {p : Nat} {s : List UInt8}, b.Str p s → s.length < n →
      b.strEndFrom n p = some (p + s.length) := by
  induction n with
  | zero => intro p s _ hn; exact absurd hn (Nat.not_lt_zero _)
  | succ n ih =>
    intro p s h hn
    cases s with
    | nil =>
      have hzero : b.mem p = 0 := ((Mem.holds_cons _ _ _ _).mp h.holds).1
      rw [strEndFrom, if_pos hzero]
      rfl
    | cons c s =>
      have hc : b.mem p = c := ((Mem.holds_cons _ _ _ _).mp h.holds).1
      have hne : b.mem p ≠ 0 := fun hz => h.nulFree (by rw [← hc, hz]; exact List.mem_cons_self)
      rw [strEndFrom, if_neg hne, ih h.tail (Nat.lt_of_succ_lt_succ hn), List.length_cons]
      congr 1
      omega

/-- The end of a text. -/
theorem strEnd?_of_str (h : b.Str p s) : b.strEnd? p = some (p + s.length) :=
  strEndFrom_of_str _ h (by have := h.fits; omega)

theorem strlen?_of_str (h : b.Str p s) : b.strlen? p = some s.length := by
  rw [strlen?, strEnd?_of_str h, Option.map_some, Nat.add_sub_cancel_left]

theorem text?_of_str (h : b.Str p s) : b.text? p = some s := by
  rw [text?, strlen?_of_str h, Option.map_some, Option.some.injEq]
  exact ((Mem.holds_append _ _ _ _).mp h.holds).1

/-- A search for a byte stops at the first one in the text, or finds
the terminator before it. -/
theorem strchrFrom_of_str (hc : c ≠ 0) (n : Nat) :
    ∀ {p : Nat} {s : List UInt8}, b.Str p s → s.length < n →
      b.strchrFrom c n p = some ((s.findIdx? (· = c)).map (p + ·)) := by
  induction n with
  | zero => intro p s _ hn; exact absurd hn (Nat.not_lt_zero _)
  | succ n ih =>
    intro p s h hn
    cases s with
    | nil =>
      have hzero : b.mem p = 0 := ((Mem.holds_cons _ _ _ _).mp h.holds).1
      rw [strchrFrom, hzero, if_neg hc.symm, if_pos rfl]
      rfl
    | cons d s =>
      have hd : b.mem p = d := ((Mem.holds_cons _ _ _ _).mp h.holds).1
      have hne : d ≠ 0 := fun hz => h.nulFree (by rw [hz]; exact List.mem_cons_self)
      rw [strchrFrom, hd, List.findIdx?_cons]
      by_cases hdc : d = c
      · simp [hdc]
      · -- the byte is no terminator, so the search goes on behind it
        rw [if_neg hdc, if_neg hne, ih h.tail (Nat.lt_of_succ_lt_succ hn)]
        simp only [hdc, decide_false, Bool.false_eq_true, if_false, Option.map_map]
        congr 2
        funext i
        simp only [Function.comp_apply]
        omega

/-- Where a byte is in a text. -/
theorem strchr?_of_str (hc : c ≠ 0) (h : b.Str p s) :
    b.strchr? p c = some ((s.findIdx? (· = c)).map (p + ·)) :=
  strchrFrom_of_str hc _ h (by have := h.fits; omega)

/-- A text is there once it is stored. -/
theorem str_of_put (hput : b.put? p (s ++ [0]) = some b') (hs : 0 ∉ s) :
    b'.Str p s ∧ b'.size = b.size := by
  unfold put? at hput
  split at hput
  · next hle =>
      obtain rfl := Option.some.inj hput
      rw [List.length_append, List.length_singleton] at hle
      exact ⟨⟨Mem.holds_store_self _ _ _, hs, by show p + s.length < b.size; omega⟩, rfl⟩
  · cases hput

/-- A text appended to a text. -/
theorem strcat?_of_str (h : b.Str p s) (ht : 0 ∉ t) (hfits : p + s.length + t.length < b.size) :
    ∃ b', b.strcat? p t = some b' ∧ b'.size = b.size ∧ b'.Str p (s ++ t) := by
  have hput : b.put? (p + s.length) (t ++ [0]) =
      some { b with mem := b.mem.store (p + s.length) (t ++ [0]) } :=
    put?_of_le (by rw [List.length_append, List.length_singleton]; omega)
  refine ⟨{ b with mem := b.mem.store (p + s.length) (t ++ [0]) }, ?_, rfl, ?_, ?_, ?_⟩
  · rw [strcat?, strEnd?_of_str h, Option.bind_some, hput]
  · rw [List.append_assoc, Mem.holds_append]
    refine ⟨?_, Mem.holds_store_self _ _ _⟩
    exact (Mem.agree_store_below _ _ _).holds (Nat.zero_le p) (Nat.le_refl _)
      ((Mem.holds_append _ _ _ _).mp h.holds).1
  · rw [List.mem_append]
    exact fun hmem => hmem.elim h.nulFree ht
  · rw [List.length_append]
    show p + (s.length + t.length) < b.size
    omega

/-- A text that does not fit leaves the object. -/
theorem strcat?_eq_none (h : b.Str p s) (hlong : b.size ≤ p + s.length + t.length) :
    b.strcat? p t = none := by
  rw [strcat?, strEnd?_of_str h, Option.bind_some, put?_eq_none, List.length_append,
    List.length_singleton]
  omega

/-- What has been appended has fitted. -/
theorem str_of_strcat (h : b.Str p s) (ht : 0 ∉ t) (hcat : b.strcat? p t = some b') :
    b'.Str p (s ++ t) ∧ b'.size = b.size := by
  rcases Nat.lt_or_ge (p + s.length + t.length) b.size with hfits | hlong
  · obtain ⟨b₁, hcat₁, hsize, hstr⟩ := strcat?_of_str h ht hfits
    obtain rfl := Option.some.inj (hcat₁.symm.trans hcat)
    exact ⟨hstr, hsize⟩
  · rw [strcat?_eq_none h hlong] at hcat
    cases hcat

/-- A terminator inside a text cuts it there. -/
theorem str_of_cut (h : b.Str p (s ++ v)) :
    ∃ b', b.put? (p + s.length) [0] = some b' ∧ b'.size = b.size ∧ b'.Str p s := by
  have hfits := h.fits
  rw [List.length_append] at hfits
  refine ⟨{ b with mem := b.mem.store (p + s.length) [0] }, put?_of_le (by simp; omega), rfl, ?_,
    fun hmem => h.nulFree (List.mem_append_left v hmem), by show p + s.length < b.size; omega⟩
  rw [Mem.holds_append]
  refine ⟨?_, Mem.holds_store_self _ _ _⟩
  have hholds := h.holds
  rw [List.append_assoc, Mem.holds_append] at hholds
  exact (Mem.agree_store_below _ _ _).holds (Nat.zero_le p) (Nat.le_refl _) hholds.1

/-- A text stays where nothing else is written. -/
theorem Str.frame (h : b.Str p s) (hsize : b'.size = b.size)
    (hagree : Mem.Agree b.mem b'.mem p (p + s.length + 1)) : b'.Str p s :=
  ⟨hagree.holds (Nat.le_refl p) (by simp [Nat.add_assoc]) h.holds, h.nulFree, hsize ▸ h.fits⟩

/-- One byte of a text is replaced. -/
theorem str_of_replace {d : UInt8} (h : b.Str p (s ++ c :: v)) (hd : d ≠ 0) :
    ∃ b', b.put? (p + s.length) [d] = some b' ∧ b'.size = b.size ∧ b'.Str p (s ++ d :: v) ∧
      ∀ x, x ≠ p + s.length → b'.mem x = b.mem x := by
  have hfits := h.fits
  rw [List.length_append, List.length_cons] at hfits
  have hother : ∀ x, x ≠ p + s.length → b.mem.store (p + s.length) [d] x = b.mem x := by
    intro x hx
    rcases Nat.lt_or_ge x (p + s.length) with hlt | hge
    · exact Mem.store_of_lt _ _ _ hlt
    · exact Mem.store_of_ge _ _ _ (by rw [List.length_singleton]; omega)
  refine ⟨{ b with mem := b.mem.store (p + s.length) [d] }, put?_of_le (by simp; omega), rfl,
    ⟨?_, ?_, ?_⟩, hother⟩
  · have hholds := h.holds
    rw [List.append_assoc, List.cons_append, Mem.holds_append, Mem.holds_cons] at hholds ⊢
    have hbelow : Mem.Agree b.mem (b.mem.store (p + s.length) [d]) p (p + s.length) :=
      fun x _ hx => (hother x (Nat.ne_of_lt hx)).symm
    have habove : Mem.Agree b.mem (b.mem.store (p + s.length) [d]) (p + s.length + 1)
        (p + s.length + 1 + (v ++ [0]).length) := fun x hx _ => (hother x (by omega)).symm
    -- in front of the byte, the byte, and behind it
    refine ⟨?_, ?_, ?_⟩
    · exact hbelow.holds (Nat.le_refl p) (Nat.le_refl _) hholds.1
    · exact ((Mem.holds_cons _ _ _ _).mp (Mem.holds_store_self b.mem _ [d])).1
    · exact habove.holds (Nat.le_refl _) (Nat.le_refl _) hholds.2.2
  · intro hmem
    obtain hmem | hmem := List.mem_append.mp hmem
    · exact h.nulFree (List.mem_append_left _ hmem)
    · obtain hmem | hmem := List.mem_cons.mp hmem
      · exact hd hmem.symm
      · exact h.nulFree (List.mem_append_right _ (List.mem_cons_of_mem _ hmem))
  · rw [List.length_append, List.length_cons]
    exact hfits

/-- One byte of a text is deleted: what is behind it moves. -/
theorem str_of_delete (h : b.Str p (s ++ c :: v)) :
    ∃ b', b.memmove? (p + s.length) (p + s.length + 1) (c :: v).length = some b' ∧
      b'.size = b.size ∧ b'.Str p (s ++ v) := by
  have hfits := h.fits
  have hholds := h.holds
  rw [List.append_assoc, List.cons_append, Mem.holds_append, Mem.holds_cons] at hholds
  rw [List.length_append, List.length_cons] at hfits
  -- the bytes that move are the rest of the text and its terminator
  have hread : b.mem.read (p + s.length + 1) (c :: v).length = v ++ [0] := by
    have hrest := hholds.2.2
    rw [Mem.Holds, List.length_append] at hrest
    exact hrest
  refine ⟨{ b with mem := b.mem.store (p + s.length) (v ++ [0]) }, ?_, rfl, ?_, ?_, ?_⟩
  · rw [memmove?, if_pos (by rw [List.length_cons]; omega), hread]
    exact put?_of_le (by simp; omega)
  · rw [List.append_assoc, Mem.holds_append]
    refine ⟨?_, Mem.holds_store_self _ _ _⟩
    exact (Mem.agree_store_below _ _ _).holds (Nat.zero_le p) (Nat.le_refl _) hholds.1
  · intro hmem
    obtain hmem | hmem := List.mem_append.mp hmem
    · exact h.nulFree (List.mem_append_left _ hmem)
    · exact h.nulFree (List.mem_append_right _ (List.mem_cons_of_mem _ hmem))
  · show p + (s ++ v).length < b.size
    rw [List.length_append]
    omega

end Lib.Buf
