import Alcor.Shell.Command

/-!
# `Alcor.Proofs.Shell.Tokens`: what the passes do to a command line

One lemma for each loop of `shellh_execute_command` says what it makes
of the text in the block; the text never gets longer, so no pass leaves
the block. The passes are followed from the front of the line: what
they have done already is `u`.

* `blankLoop_of_str`: white space becomes spaces.
* `quoteLoop_of_str`: spaces inside quotes are replaced.
* `deleteLoop_of_str`, `collapseLoop_of_str`: spaces in front are
  deleted, and of those between words one is left.
* `splitLoop_of_str`: the words of the text, if there are not too many.
* `processArgs_of_laid`: the words without their quotes, with their
  spaces put back.
-/

set_option autoImplicit false

namespace Alcor.Proofs.Shell

open Lib (Buf Mem words joined IsWord)
open Alcor.Shell

variable {p : Nat} {c : UInt8} {u w v : List UInt8}
variable {cmd : Buf}

/-- The separator of the later passes. -/
def isSpace (c : UInt8) : Bool := c = SPACE

/-! ### White space and quotes -/

/-- What the first pass makes of a character. -/
def blank (c : UInt8) : UInt8 := if c = CR ∨ c = LF ∨ c = TAB then SPACE else c

/-- What the passes make of a character of the marked line. -/
def code : Option UInt8 → UInt8
  | none   => SPACE
  | some c => if c = SPACE then SHELL_ALT_SPACE else c

/-- The first pass: every character of white space becomes a space. -/
theorem blankLoop_of_str (v : List UInt8) :
    ∀ (u : List UInt8) (cmd : Buf) (n : Nat), cmd.Str 0 (u ++ v) → v.length < n →
      ∃ cmd', blankLoop n u.length cmd = some cmd' ∧ cmd'.size = cmd.size ∧
        cmd'.Str 0 (u ++ v.map blank) := by
  induction v with
  | nil =>
    intro u cmd n h hn
    obtain ⟨n, rfl⟩ := Nat.exists_eq_add_one_of_ne_zero (Nat.ne_of_gt hn)
    rw [List.append_nil] at h
    have hget := h.terminator
    rw [Nat.zero_add] at hget
    exact ⟨cmd, by simp [blankLoop, hget], rfl, by simpa using h⟩
  | cons c v ih =>
    intro u cmd n h hn
    rw [List.length_cons] at hn
    obtain ⟨n, rfl⟩ := Nat.exists_eq_add_one_of_ne_zero (Nat.ne_zero_of_lt hn)
    have hget := h.byte
    rw [Nat.zero_add] at hget
    have hc : c ≠ 0 := fun hz => h.nulFree (by simp [hz])
    -- the passes behind this one, for either character
    have hnext : ∀ (d : UInt8) (cmd' : Buf), cmd'.Str 0 (u ++ d :: v) → cmd'.size = cmd.size →
        blank c = d → ∃ cmd'', blankLoop n (u.length + 1) cmd' = some cmd'' ∧
          cmd''.size = cmd.size ∧ cmd''.Str 0 (u ++ (c :: v).map blank) := by
      intro d cmd' h' hsize hd
      obtain ⟨cmd'', hloop, hsize', h''⟩ := ih (u ++ [d]) cmd' n (by simpa using h') (by omega)
      rw [List.length_append, List.length_singleton] at hloop
      exact ⟨cmd'', hloop, hsize'.trans hsize, by simpa [hd] using h''⟩
    by_cases hblank : c = CR ∨ c = LF ∨ c = TAB
    · obtain ⟨cmd', hput, hsize, h', -⟩ := Buf.str_of_replace (d := SPACE) h (by decide)
      rw [Nat.zero_add] at hput
      obtain ⟨cmd'', hloop, hsize', h''⟩ := hnext SPACE cmd' h' hsize (if_pos hblank)
      exact ⟨cmd'', by simp [blankLoop, hget, hc, hblank, hput, hloop], hsize', h''⟩
    · obtain ⟨cmd'', hloop, hsize', h''⟩ := hnext c cmd h rfl (if_neg hblank)
      exact ⟨cmd'', by simp [blankLoop, hget, hc, hblank, hloop], hsize', h''⟩

/-- One pass of the loop: a space inside quotes is replaced. -/
theorem quoteLoop_succ {n i len : Nat} {quote : Option UInt8} (hlen : cmd.strlen? 0 = some len)
    (hlt : i < len) (hget : cmd.get? i = some c) :
    quoteLoop (n + 1) i quote.isSome (quote.getD 0) cmd =
      (if c = SPACE ∧ quote.isSome then cmd.put? i [SHELL_ALT_SPACE] else some cmd).bind
        fun cmd' =>
          quoteLoop n (i + 1) (nextQuote quote c).isSome ((nextQuote quote c).getD 0) cmd' := by
  rw [quoteLoop, hlen]
  simp only [Option.bind_eq_bind, Option.bind_some, if_pos hlt, hget]
  by_cases hquote : c = SQUOTE ∨ c = DQUOTE
  · -- a quote opens, closes, or stands in the other kind of quotes
    have hspace : ¬(c = SPACE ∧ quote.isSome = true) := by
      rintro ⟨rfl, -⟩
      exact absurd hquote (by decide)
    simp only [if_pos hquote, if_neg hspace, Option.bind_some, nextQuote]
    cases quote with
    | none => rfl
    | some q =>
      by_cases hq : c = q
      · simp [hq]
      · simp [hq]
  · have hsame : nextQuote quote c = quote := if_neg hquote
    rw [if_neg hquote, hsame]
    by_cases hspace : c = SPACE ∧ quote.isSome = true
    · rw [if_pos hspace, if_pos hspace]
    · rw [if_neg hspace, if_neg hspace, Option.bind_some]

/-- What stands in the buffer for a character of the marked line. -/
theorem code_marked (quote : Option UInt8) (hspace : isBlank c → c = SPACE) :
    code (if isBlank c then if quote.isSome then some SPACE else none else some c) =
      if c = SPACE ∧ quote.isSome then SHELL_ALT_SPACE else c := by
  cases hblank : isBlank c with
  | true =>
    obtain rfl := hspace hblank
    cases quote <;> rfl
  | false =>
    have hne : c ≠ SPACE := by
      rintro rfl
      exact absurd hblank (by decide)
    simp [code, hne]

/-- The second pass marks the spaces inside quotes, and finds out
whether a quote is left open. -/
theorem quoteLoop_of_str (v : List UInt8) :
    ∀ (u : List UInt8) (quote : Option UInt8) (cmd : Buf) (n : Nat),
      (∀ c ∈ v, isBlank c → c = SPACE) → cmd.Str 0 (u ++ v) → v.length < n →
      ∃ cmd', quoteLoop n u.length quote.isSome (quote.getD 0) cmd =
          some ((v.foldl nextQuote quote).isSome, cmd') ∧ cmd'.size = cmd.size ∧
        cmd'.Str 0 (u ++ (marked quote v).map code) := by
  induction v with
  | nil =>
    intro u quote cmd n _ h hn
    obtain ⟨n, rfl⟩ := Nat.exists_eq_add_one_of_ne_zero (Nat.ne_of_gt hn)
    rw [List.append_nil] at h
    have hlen := Buf.strlen?_of_str h
    exact ⟨cmd, by simp [quoteLoop, hlen], rfl, by simpa [marked] using h⟩
  | cons c v ih =>
    intro u quote cmd n hspaces h hn
    rw [List.length_cons] at hn
    obtain ⟨n, rfl⟩ := Nat.exists_eq_add_one_of_ne_zero (Nat.ne_zero_of_lt hn)
    have hget := h.byte
    rw [Nat.zero_add] at hget
    have hlt : u.length < (u ++ c :: v).length := by
      rw [List.length_append, List.length_cons]
      omega
    have hcode := code_marked quote (hspaces c List.mem_cons_self)
    -- whatever the character becomes, the rest is up to the next passes
    have hnext : ∀ (d : UInt8) (cmd' : Buf), cmd'.Str 0 (u ++ d :: v) → cmd'.size = cmd.size →
        (if c = SPACE ∧ quote.isSome then SHELL_ALT_SPACE else c) = d →
        ∃ cmd'', quoteLoop n (u.length + 1) (nextQuote quote c).isSome
            ((nextQuote quote c).getD 0) cmd' =
              some (((c :: v).foldl nextQuote quote).isSome, cmd'') ∧ cmd''.size = cmd.size ∧
          cmd''.Str 0 (u ++ (marked quote (c :: v)).map code) := by
      intro d cmd' h' hsize hd
      obtain ⟨cmd'', hloop, hsize', h''⟩ := ih (u ++ [d]) (nextQuote quote c) cmd' n
        (fun x hx => hspaces x (List.mem_cons_of_mem c hx)) (by simpa using h') (by omega)
      rw [List.length_append, List.length_singleton] at hloop
      refine ⟨cmd'', by rw [List.foldl_cons]; exact hloop, hsize'.trans hsize, ?_⟩
      rw [marked, List.map_cons, hcode, hd]
      simpa using h''
    rw [quoteLoop_succ (Buf.strlen?_of_str h) hlt hget]
    by_cases hspace : c = SPACE ∧ quote.isSome = true
    · obtain ⟨cmd', hput, hsize, h', -⟩ :=
        Buf.str_of_replace (d := SHELL_ALT_SPACE) h (by decide)
      rw [Nat.zero_add] at hput
      rw [if_pos hspace, hput]
      exact hnext SHELL_ALT_SPACE cmd' h' hsize (if_pos hspace)
    · rw [if_neg hspace]
      exact hnext c cmd h rfl (if_neg hspace)

/-! ### Spaces -/

/-- The spaces at the place are deleted. -/
theorem deleteLoop_of_str (v : List UInt8) :
    ∀ (u : List UInt8) (cmd : Buf) (n : Nat), cmd.Str 0 (u ++ v) → v.length < n →
      ∃ cmd', deleteLoop n u.length cmd = some cmd' ∧ cmd'.size = cmd.size ∧
        cmd'.Str 0 (u ++ v.dropWhile isSpace) := by
  induction v with
  | nil =>
    intro u cmd n h hn
    obtain ⟨n, rfl⟩ := Nat.exists_eq_add_one_of_ne_zero (Nat.ne_of_gt hn)
    have hget := Buf.Str.terminator (by rwa [List.append_nil] at h : cmd.Str 0 u)
    rw [Nat.zero_add] at hget
    exact ⟨cmd, by simp [deleteLoop, hget], rfl, h⟩
  | cons c v ih =>
    intro u cmd n h hn
    rw [List.length_cons] at hn
    obtain ⟨n, rfl⟩ := Nat.exists_eq_add_one_of_ne_zero (Nat.ne_zero_of_lt hn)
    have hget := h.byte
    rw [Nat.zero_add] at hget
    by_cases hspace : c = SPACE
    · subst hspace
      have hlen := Buf.strlen?_of_str h.drop_left
      obtain ⟨cmd', hmove, hsize, h'⟩ := Buf.str_of_delete h
      rw [Nat.zero_add, List.length_cons] at hlen hmove
      obtain ⟨cmd'', hloop, hsize', h''⟩ := ih u cmd' n h' (by omega)
      refine ⟨cmd'', ?_, hsize'.trans hsize, by simpa [isSpace] using h''⟩
      have hne : SPACE ≠ 0 := by decide
      simp [deleteLoop, hget, hne, hlen, hmove, hloop]
    · refine ⟨cmd, by simp [deleteLoop, hget, hspace], rfl, ?_⟩
      rw [List.dropWhile_cons_of_neg (by simpa [isSpace] using hspace)]
      exact h

/-- Where the next space is. -/
theorem strchr?_space (h : cmd.Str 0 (u ++ (w ++ SPACE :: v))) (hw : ∀ x ∈ w, isSpace x = false) :
    cmd.strchr? u.length SPACE = some (some (u ++ w).length) := by
  have hrest := h.drop_left
  rw [Nat.zero_add] at hrest
  rw [Buf.strchr?_of_str (by decide) hrest]
  have hfind : (w ++ SPACE :: v).findIdx? (· = SPACE) = some w.length := by
    have hnone : w.findIdx? (fun x => decide (x = SPACE)) = none :=
      List.findIdx?_eq_none_iff.mpr fun x hx => hw x hx
    rw [List.findIdx?_append, hnone, List.findIdx?_cons]
    simp
  rw [hfind, List.length_append]
  rfl

/-- No more space. -/
theorem strchr?_none (h : cmd.Str 0 u) : cmd.strchr? u.length SPACE = some none := by
  have hrest := Buf.Str.drop_left (s := []) (by rwa [List.append_nil] : cmd.Str 0 (u ++ []))
  rw [Nat.zero_add] at hrest
  rw [Buf.strchr?_of_str (by decide) hrest]
  rfl

/-- The last character of the text, if there is one, is a space. -/
def EndsInSpace (v : List UInt8) : Prop := ∀ c, v.getLast? = some c → c = SPACE

theorem EndsInSpace.of_append (h : EndsInSpace (u ++ v)) : EndsInSpace v :=
  fun c hc => h c (by rw [List.getLast?_append, hc, Option.some_or])

/-- From a space on, the words of the text with one space behind each. -/
theorem collapseLoop_of_str (n : Nat) :
    ∀ (u v : List UInt8) (cmd : Buf), cmd.Str 0 (u ++ SPACE :: v) → v.length < n →
      EndsInSpace v →
      ∃ cmd', collapseLoop n (some u.length) cmd = some cmd' ∧ cmd'.size = cmd.size ∧
        cmd'.Str 0 (u ++ SPACE :: joined SPACE (words isSpace v)) := by
  induction n with
  | zero => intro u v cmd _ hn; exact absurd hn (Nat.not_lt_zero _)
  | succ n ih =>
    intro u v cmd h hn hend
    have hfits := h.fits
    rw [List.length_append, List.length_cons] at hfits
    have hassoc : ∀ t, u ++ SPACE :: t = (u ++ [SPACE]) ++ t := fun t => by simp
    have hlen : (u ++ [SPACE]).length = u.length + 1 := by simp
    rw [hassoc] at h
    obtain ⟨cmd₁, hdelete, hsize₁, h₁⟩ :=
      deleteLoop_of_str v (u ++ [SPACE]) cmd cmd.size h (by omega)
    rw [hlen] at hdelete
    have hsplit := List.takeWhile_append_dropWhile (p := isSpace) (l := v)
    rw [← Lib.words_dropWhile v]
    obtain hnil | hword | ⟨w, c, rest, hw, hc, hdrop⟩ := Lib.exists_word isSpace v
    · -- nothing is left
      rw [hnil, List.append_nil] at h₁
      have hnext := strchr?_none h₁
      rw [hlen] at hnext
      refine ⟨cmd₁, ?_, hsize₁, ?_⟩
      · simp [collapseLoop, hdelete, hnext]
      · rw [hnil, Lib.words_nil, Lib.joined_nil]
        exact h₁
    · -- the text does not end in a word
      exfalso
      rw [← hsplit] at hend
      obtain ⟨hne, hall⟩ := hword
      have hlast := List.getLast?_eq_some_getLast hne
      have hspace := hend.of_append _ hlast
      have hnot := hall _ (List.getLast_mem hne)
      rw [hspace] at hnot
      exact absurd hnot (by decide)
    · obtain rfl : c = SPACE := by simpa [isSpace] using hc
      rw [hdrop] at h₁
      have hnext := strchr?_space h₁ hw.2
      rw [hlen] at hnext
      have hend' : EndsInSpace rest := by
        rw [← hsplit, hdrop] at hend
        exact EndsInSpace.of_append (u := w ++ [SPACE]) (by simpa using hend.of_append)
      have hle := (List.dropWhile_suffix (p := isSpace) (l := v)).length_le
      rw [hdrop, List.length_append, List.length_cons] at hle
      rw [← List.append_assoc] at h₁
      obtain ⟨cmd₂, hloop, hsize₂, h₂⟩ := ih _ rest cmd₁ h₁ (by omega) hend'
      refine ⟨cmd₂, ?_, hsize₂.trans hsize₁, ?_⟩
      · simp only [collapseLoop, hdelete, hnext, Option.bind_eq_bind, Option.bind_some]
        exact hloop
      · rw [hdrop, Lib.words_append_sep hw hc, Lib.joined_cons]
        simpa using h₂

/-! ### Arguments -/

/-- The words stand one behind the other, each with its terminator. -/
def Laid (cmd : Buf) : Nat → List (List UInt8) → Prop
  | _, []      => True
  | p, w :: ws => cmd.Str p w ∧ Laid cmd (p + w.length + 1) ws

/-- Where they begin. -/
def offsets : Nat → List (List UInt8) → List Nat
  | _, []      => []
  | p, w :: ws => p :: offsets (p + w.length + 1) ws

/-- What is written in front of the words does not change them. -/
theorem Laid.frame {cmd cmd' : Buf} {lo : Nat} {ws : List (List UInt8)} (h : Laid cmd p ws)
    (hsize : cmd'.size = cmd.size) (hlo : lo ≤ p) (hagree : ∀ x, lo ≤ x → cmd.mem x = cmd'.mem x) :
    Laid cmd' p ws := by
  induction ws generalizing p with
  | nil => trivial
  | cons w ws ih =>
    exact ⟨h.1.frame hsize fun x hx _ => hagree x (by omega), ih h.2 (by omega)⟩

/-- A terminator is stored at the end of the first word. -/
theorem str_of_cut_space (h : cmd.Str p (w ++ SPACE :: v)) :
    ∃ cmd', cmd.put? (p + w.length) [0] = some cmd' ∧ cmd'.size = cmd.size ∧ cmd'.Str p w ∧
      cmd'.Str (p + w.length + 1) v ∧ ∀ x, x ≠ p + w.length → cmd.mem x = cmd'.mem x := by
  have hfits := h.fits
  rw [List.length_append, List.length_cons] at hfits
  obtain ⟨cmd', hput, hsize, hword⟩ := Buf.str_of_cut h
  have hstored : cmd' = { cmd with mem := cmd.mem.store (p + w.length) [0] } := by
    rw [Buf.put?_of_le (by simp; omega)] at hput
    exact (Option.some.inj hput).symm
  have hother : ∀ x, x ≠ p + w.length → cmd.mem x = cmd'.mem x := by
    intro x hx
    rw [hstored]
    rcases Nat.lt_or_ge x (p + w.length) with hlt | hge
    · exact (Mem.store_of_lt _ _ _ hlt).symm
    · exact (Mem.store_of_ge _ _ _ (by rw [List.length_singleton]; omega)).symm
  refine ⟨cmd', hput, hsize, hword, ?_, hother⟩
  exact h.drop_left.tail.frame hsize fun x hx _ => hother x (by omega)

/-- The words of the text, when there are not too many of them. -/
theorem splitLoop_of_str (ws : List (List UInt8)) :
    ∀ (n p : Nat) (argv : List Nat) (cmd : Buf), cmd.Str p (joined SPACE ws) →
      (∀ w ∈ ws, IsWord isSpace w) → ws.length < n → argv.length ≤ SHELL_MAX_ARGS →
      ∃ cmd' found, splitLoop n p argv cmd = some (found, cmd') ∧ cmd'.size = cmd.size ∧
        (∀ x, x < p → cmd.mem x = cmd'.mem x) ∧
        if argv.length + ws.length ≤ SHELL_MAX_ARGS then
          found = some (argv ++ offsets p ws) ∧ Laid cmd' p ws
        else found = none := by
  induction ws with
  | nil =>
    intro n p argv cmd h _ hn hargv
    obtain ⟨n, rfl⟩ := Nat.exists_eq_add_one_of_ne_zero (Nat.ne_of_gt hn)
    have hnone : cmd.strchr? p SPACE = some none := Buf.strchr?_of_str (by decide) h
    refine ⟨cmd, some argv, by simp [splitLoop, hnone], rfl, fun _ _ => rfl, ?_⟩
    rw [if_pos (by simpa using hargv)]
    exact ⟨by simp [offsets], trivial⟩
  | cons w ws ih =>
    intro n p argv cmd h hwords hn hargv
    rw [List.length_cons] at hn ⊢
    obtain ⟨n, rfl⟩ := Nat.exists_eq_add_one_of_ne_zero (Nat.ne_zero_of_lt hn)
    have hw := hwords w List.mem_cons_self
    rw [Lib.joined_cons] at h
    have hfind : cmd.strchr? p SPACE = some (some (p + w.length)) := by
      have hnone : w.findIdx? (fun x => decide (x = SPACE)) = none :=
        List.findIdx?_eq_none_iff.mpr fun x hx => hw.2 x hx
      rw [Buf.strchr?_of_str (by decide) h, List.findIdx?_append, hnone, List.findIdx?_cons]
      simp
    obtain ⟨cmd₁, hput, hsize₁, hword, hrest, hother⟩ := str_of_cut_space h
    by_cases hfull : argv.length = SHELL_MAX_ARGS
    · -- there is one word more than `argv` has room for
      refine ⟨cmd₁, none, ?_, hsize₁, fun x hx => hother x (by omega), ?_⟩
      · simp [splitLoop, hfind, hput, hfull]
      · rw [if_neg (by omega)]
    · -- the words behind this one lie above it
      obtain ⟨cmd₂, found, hloop, hsize₂, hbelow, hfound⟩ := ih n (p + w.length + 1)
        (argv ++ [p]) cmd₁ hrest (fun v hv => hwords v (List.mem_cons_of_mem w hv)) (by omega)
        (by rw [List.length_append, List.length_singleton]; omega)
      refine ⟨cmd₂, found, ?_, hsize₂.trans hsize₁, ?_, ?_⟩
      · simp [splitLoop, hfind, hput, hfull, hloop]
      · intro x hx
        rw [hother x (by omega), hbelow x (by omega)]
      · rw [List.length_append, List.length_singleton, Nat.add_assoc,
          Nat.add_comm 1 ws.length] at hfound
        split
        · next hle =>
            rw [if_pos hle] at hfound
            refine ⟨by simpa [offsets] using hfound.1, ?_, hfound.2⟩
            exact hword.frame hsize₂ fun x _ hx => hbelow x (by omega)
        · next hgt =>
            rw [if_neg hgt] at hfound
            exact hfound

/-- The last pass puts the spaces of an argument back, and writes
nowhere else. -/
theorem restoreLoop_of_str (v : List UInt8) :
    ∀ (u : List UInt8) (p : Nat) (cmd : Buf) (n : Nat), cmd.Str p (u ++ v) → v.length < n →
      ∃ cmd', restoreLoop n p u.length cmd = some cmd' ∧ cmd'.size = cmd.size ∧
        cmd'.Str p (u ++ v.map restore) ∧
        ∀ x, x < p ∨ p + (u ++ v).length ≤ x → cmd'.mem x = cmd.mem x := by
  induction v with
  | nil =>
    intro u p cmd n h hn
    obtain ⟨n, rfl⟩ := Nat.exists_eq_add_one_of_ne_zero (Nat.ne_of_gt hn)
    have hlen := Buf.strlen?_of_str (by rwa [List.append_nil] at h : cmd.Str p u)
    exact ⟨cmd, by simp [restoreLoop, hlen], rfl, h, fun _ _ => rfl⟩
  | cons c v ih =>
    intro u p cmd n h hn
    rw [List.length_cons] at hn
    obtain ⟨n, rfl⟩ := Nat.exists_eq_add_one_of_ne_zero (Nat.ne_zero_of_lt hn)
    have hlen := Buf.strlen?_of_str h
    have hlt : u.length < (u ++ c :: v).length := by
      rw [List.length_append, List.length_cons]
      omega
    by_cases hc : c = SHELL_ALT_SPACE
    · -- a space that was inside quotes
      obtain ⟨cmd₁, hput, hsize₁, h₁, hother⟩ := Buf.str_of_replace (d := SPACE) h (by decide)
      obtain ⟨cmd₂, hloop, hsize₂, h₂, hframe⟩ :=
        ih (u ++ [SPACE]) p cmd₁ n (by simpa using h₁) (by omega)
      rw [List.length_append, List.length_singleton] at hloop
      refine ⟨cmd₂, ?_, hsize₂.trans hsize₁, by simpa [restore, hc] using h₂, ?_⟩
      · rw [restoreLoop, hlen]
        simp only [Option.bind_eq_bind, Option.bind_some, if_pos hlt, h.byte, if_pos hc, hput,
          hloop]
      · intro x hx
        simp only [List.length_append, List.length_cons, List.length_nil] at hx hframe
        rw [hframe x (by omega), hother x (by omega)]
    · obtain ⟨cmd₂, hloop, hsize₂, h₂, hframe⟩ :=
        ih (u ++ [c]) p cmd n (by simpa using h) (by omega)
      rw [List.length_append, List.length_singleton] at hloop
      refine ⟨cmd₂, ?_, hsize₂, by simpa [restore, hc] using h₂, ?_⟩
      · rw [restoreLoop, hlen]
        simp only [Option.bind_eq_bind, Option.bind_some, if_pos hlt, h.byte, if_neg hc, hloop]
      · intro x hx
        simp only [List.length_append, List.length_cons, List.length_nil] at hx hframe
        exact hframe x (by omega)

/-- The closing quote becomes a terminator. -/
theorem str_of_unquote {t : List UInt8} (h : cmd.Str p (c :: t)) :
    ∃ cmd', cmd.put? (p + t.length) [0] = some cmd' ∧ cmd'.size = cmd.size ∧
      cmd'.Str (p + 1) t.dropLast ∧ ∀ x, x ≠ p + t.length → cmd'.mem x = cmd.mem x := by
  have hfits := h.fits
  rw [List.length_cons] at hfits
  have hother : ∀ x, x ≠ p + t.length → cmd.mem.store (p + t.length) [0] x = cmd.mem x := by
    intro x hx
    rcases Nat.lt_or_ge x (p + t.length) with hlt | hge
    · exact Mem.store_of_lt _ _ _ hlt
    · exact Mem.store_of_ge _ _ _ (by rw [List.length_singleton]; omega)
  have hput : cmd.put? (p + t.length) [0] =
      some { cmd with mem := cmd.mem.store (p + t.length) [0] } := Buf.put?_of_le (by simp; omega)
  refine ⟨_, hput, rfl, ?_, hother⟩
  rcases List.eq_nil_or_concat' t with rfl | ⟨t, d, rfl⟩
  · -- a quote alone: the terminator behind it stays
    refine h.tail.frame rfl fun x hx _ => (hother x ?_).symm
    rw [List.length_nil]
    omega
  · obtain ⟨cmd', hcut, hsize, hstr⟩ := Buf.str_of_cut h.tail
    have hsame : p + 1 + t.length = p + (t ++ [d]).length := by
      rw [List.length_append, List.length_singleton]
      omega
    rw [hsame, hput, Option.some.injEq] at hcut
    rw [List.dropLast_concat, hcut]
    exact hstr

/-- An argument with its spaces, and without its quotes. -/
theorem processArg_of_str (h : cmd.Str p w) (hne : w ≠ []) :
    ∃ q cmd', processArg p cmd = some (q, cmd') ∧ cmd'.size = cmd.size ∧
      cmd'.Str q (unquote (w.map restore)) ∧ p ≤ q ∧
      q + (unquote (w.map restore)).length ≤ p + w.length ∧
      ∀ x, x < p ∨ p + w.length ≤ x → cmd'.mem x = cmd.mem x := by
  have hfits := h.fits
  obtain ⟨cmd₁, hrestore, hsize₁, h₁, hother₁⟩ :=
    restoreLoop_of_str w [] p cmd cmd.size h (by omega)
  rw [List.length_nil] at hrestore
  rw [List.nil_append] at h₁ hother₁
  have hlength : (w.map restore).length = w.length := List.length_map _
  rw [← hlength] at hother₁ ⊢
  have hne : w.map restore ≠ [] := by simpa using hne
  generalize w.map restore = r at h₁ hother₁ hne ⊢
  cases r with
  | nil => exact absurd rfl hne
  | cons c t =>
    have hfirst := h₁.head
    have hlen := Buf.strlen?_of_str h₁
    have hlast := h₁.last (List.cons_ne_nil c t)
    have hgetLast := List.getLast?_eq_some_getLast (List.cons_ne_nil c t)
    by_cases hquote : c = SQUOTE ∨ c = DQUOTE
    · by_cases hsame : c = (c :: t).getLast (List.cons_ne_nil c t)
      · obtain ⟨cmd₂, hput, hsize₂, h₂, hother₂⟩ := str_of_unquote h₁
        have hunquote : unquote (c :: t) = t.dropLast := by
          rw [unquote, if_pos ⟨hquote, hgetLast.trans (congrArg some hsame.symm)⟩]
        refine ⟨p + 1, cmd₂, ?_, hsize₂.trans hsize₁, hunquote ▸ h₂, Nat.le_succ p, ?_, ?_⟩
        · have hend : p + (c :: t).length - 1 = p + t.length := by
            rw [List.length_cons]
            omega
          rw [hend] at hlast
          simp only [processArg, hrestore, hfirst, hlen, Option.bind_eq_bind, Option.bind_some,
            if_pos hquote, hend, hlast, if_pos hsame, hput]
        · rw [hunquote, List.length_dropLast, List.length_cons]
          omega
        · intro x hx
          rw [List.length_cons] at hx hother₁
          rw [hother₂ x (by omega), hother₁ x hx]
      · have hunquote : unquote (c :: t) = c :: t := by
          rw [unquote, if_neg]
          rintro ⟨-, hl⟩
          exact hsame (Option.some.inj (hl.symm.trans hgetLast))
        refine ⟨p, cmd₁, ?_, hsize₁, by rwa [hunquote], Nat.le_refl p,
          Nat.le_of_eq (by rw [hunquote]), hother₁⟩
        simp only [processArg, hrestore, hfirst, hlen, Option.bind_eq_bind, Option.bind_some,
          if_pos hquote, hlast, if_neg hsame]
    · have hunquote : unquote (c :: t) = c :: t := by
        rw [unquote, if_neg (fun h => hquote h.1)]
      refine ⟨p, cmd₁, ?_, hsize₁, by rwa [hunquote], Nat.le_refl p,
          Nat.le_of_eq (by rw [hunquote]), hother₁⟩
      simp only [processArg, hrestore, hfirst, Option.bind_eq_bind, Option.bind_some,
        if_neg hquote]

/-- All arguments are processed, and then read. -/
theorem processArgs_of_laid (ws : List (List UInt8)) :
    ∀ (p : Nat) (cmd : Buf), Laid cmd p ws → (∀ w ∈ ws, w ≠ []) →
      ∃ argv cmd', processArgs (offsets p ws) cmd = some (argv, cmd') ∧ cmd'.size = cmd.size ∧
        argv.mapM cmd'.text? = some (ws.map fun w => unquote (w.map restore)) ∧
        ∀ x, x < p → cmd'.mem x = cmd.mem x := by
  induction ws with
  | nil => exact fun p cmd _ _ => ⟨[], cmd, rfl, rfl, rfl, fun _ _ => rfl⟩
  | cons w ws ih =>
    intro p cmd h hne
    obtain ⟨q, cmd₁, harg, hsize₁, h₁, hle, hfits, hother₁⟩ :=
      processArg_of_str h.1 (hne w List.mem_cons_self)
    have hrest : Laid cmd₁ (p + w.length + 1) ws :=
      h.2.frame hsize₁ (Nat.le_refl _) fun x hx => (hother₁ x (by omega)).symm
    obtain ⟨argv, cmd₂, hargs, hsize₂, htexts, hother₂⟩ :=
      ih (p + w.length + 1) cmd₁ hrest fun v hv => hne v (List.mem_cons_of_mem w hv)
    have h₂ := h₁.frame hsize₂ fun x _ hx => (hother₂ x (by omega)).symm
    refine ⟨q :: argv, cmd₂, ?_, hsize₂.trans hsize₁, ?_, ?_⟩
    · simp [offsets, processArgs, harg, hargs]
    · rw [List.mapM_cons, Buf.text?_of_str h₂, htexts]
      rfl
    · intro x hx
      rw [hother₂ x (by omega), hother₁ x (by omega)]

end Alcor.Proofs.Shell
