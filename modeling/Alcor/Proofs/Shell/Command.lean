import Alcor.Proofs.Shell.Tokens

/-!
# `Alcor.Proofs.Shell.Command`: which arguments a command gets

On a line in a block with room for a line feed, the whole of
`shellh_execute_command` does what `executed` says about the words of
the line. The results about the arguments and about safety follow from
this one equation. It is put together from what each pass makes of the
text in the block (`Tokens.lean`).

* `execute_eq`: the function is `executed`.
* `handler_gets_words`: the handler gets exactly the words of the line.
* `returns_iff`: when the function comes to its end without leaving the
  block or using a `NULL`.
* `not_always_returns`: an unknown command that is not typed in.
-/

set_option autoImplicit false

namespace Alcor.Proofs.Shell

open Lib (Buf Mem words joined IsWord lower)
open Alcor.Shell

variable {c : UInt8}

/-! ### The marked line -/

theorem isBlank_blank (c : UInt8) : isBlank (blank c) = isBlank c := by
  unfold blank
  split
  · next h => obtain rfl | rfl | rfl := h <;> rfl
  · rfl

theorem blank_of_not_isBlank (h : isBlank c = false) : blank c = c := by
  unfold blank
  refine if_neg fun hc => ?_
  obtain rfl | rfl | rfl := hc <;> exact absurd h (by decide)

theorem eq_space_of_isBlank_blank (h : isBlank (blank c) = true) : blank c = SPACE := by
  unfold blank at h ⊢
  split
  · rfl
  · next hc =>
      rw [if_neg hc] at h
      simp only [isBlank, Bool.or_eq_true, decide_eq_true_eq] at h
      tauto

theorem nextQuote_of_isBlank (h : isBlank c = true) (quote : Option UInt8) :
    nextQuote quote c = quote := by
  refine if_neg fun hc => ?_
  obtain rfl | rfl := hc <;> exact absurd h (by decide)

theorem nextQuote_blank (quote : Option UInt8) (c : UInt8) :
    nextQuote quote (blank c) = nextQuote quote c := by
  cases h : isBlank c with
  | true =>
    rw [nextQuote_of_isBlank h, nextQuote_of_isBlank ((isBlank_blank c).trans h)]
  | false => rw [blank_of_not_isBlank h]

theorem foldl_nextQuote_blank (line : List UInt8) (quote : Option UInt8) :
    (line.map blank).foldl nextQuote quote = line.foldl nextQuote quote := by
  induction line generalizing quote with
  | nil => rfl
  | cons c line ih => rw [List.map_cons, List.foldl_cons, List.foldl_cons, nextQuote_blank, ih]

/-- The first pass does not change the marked line. -/
theorem marked_blank (line : List UInt8) (quote : Option UInt8) :
    marked quote (line.map blank) = marked quote line := by
  induction line generalizing quote with
  | nil => rfl
  | cons c line ih =>
    rw [List.map_cons, marked, marked, nextQuote_blank, isBlank_blank, ih]
    cases h : isBlank c with
    | true => rfl
    | false => rw [blank_of_not_isBlank h]

theorem marked_append (u v : List UInt8) (quote : Option UInt8) :
    marked quote (u ++ v) = marked quote u ++ marked (u.foldl nextQuote quote) v := by
  induction u generalizing quote with
  | nil => rfl
  | cons c u ih => rw [List.cons_append, marked, marked, List.cons_append, ih, List.foldl_cons]

theorem balanced_append_lf (line : List UInt8) :
    QuotesBalanced (line ++ [LF]) ↔ QuotesBalanced line := by
  rw [QuotesBalanced, QuotesBalanced, List.foldl_append, List.foldl_cons, List.foldl_nil,
    nextQuote_of_isBlank (by decide)]

theorem marked_append_lf {line : List UInt8} (h : QuotesBalanced line) :
    marked none (line ++ [LF]) = marked none line ++ [none] := by
  rw [marked_append, h]
  rfl

theorem isSpace_code (x : Option UInt8) : isSpace (code x) = x.isNone := by
  cases x with
  | none => rfl
  | some c =>
    by_cases h : c = SPACE
    · rw [h]
      rfl
    · rw [code, if_neg h]
      simpa [isSpace] using h

/-- Whatever stands for a character, it is put back in the end. -/
theorem restore_code {w : List (Option UInt8)} (hw : ∀ x ∈ w, x.isNone = false) :
    (w.map code).map restore = (w.filterMap id).map restore := by
  induction w with
  | nil => rfl
  | cons x w ih =>
    cases x with
    | none => exact absurd (hw none List.mem_cons_self) (by decide)
    | some c =>
      have hc : restore (code (some c)) = restore c := by
        by_cases h : c = SPACE
        · rw [h]
          rfl
        · rw [code, if_neg h]
      have hrest := ih fun x hx => hw x (List.mem_cons_of_mem _ hx)
      simp only [List.map_cons, List.filterMap_cons, id, hc, hrest]

/-- The words of the text that the passes leave. -/
theorem words_code (line : List UInt8) :
    (words isSpace ((marked none line).map code)).map (fun w => unquote (w.map restore)) =
      commandArgs line := by
  rw [Lib.words_map isSpace_code, commandArgs, lineWords, List.map_map, List.map_map]
  refine List.map_congr_left fun w hw => ?_
  simp only [Function.comp_apply]
  rw [restore_code (Lib.isWord_of_mem hw).2]

/-- The line feed that is added does not count. -/
theorem lineWords_append_lf {line : List UInt8} (h : QuotesBalanced line) :
    lineWords (line ++ [LF]) = lineWords line := by
  rw [lineWords, lineWords, marked_append_lf h, Lib.words_concat_sep rfl]

/-! ### The whole function -/

/-- What is done with a line. -/
def executed (lang : Lang) (interactiveMode : Bool) (line : List UInt8) : Outcome :=
  if ¬QuotesBalanced line then
    { printed := some "Invalid quoted string\n", ended := .returned none }
  else if lineWords line = [] then { ended := .returned none }
  else if SHELL_MAX_ARGS < (lineWords line).length then
    { printed := some "Error: too many arguments\n", ended := .returned none }
  else dispatch lang interactiveMode (commandArgs line)

variable {cmd : Buf} {lang : Lang} {interactiveMode : Bool} {line : List UInt8}

/-- The spaces are collapsed: what is left are the words with a space behind each, and perhaps one
in front. -/
theorem collapse_of_str {t : List UInt8} (h : cmd.Str 0 (t ++ [SPACE])) :
    ∃ p cmd₁ lead, cmd.strchr? 0 SPACE = some p ∧ collapseLoop cmd.size p cmd = some cmd₁ ∧
      cmd₁.size = cmd.size ∧ cmd₁.Str 0 (lead ++ joined SPACE (words isSpace t)) ∧
      (lead = [SPACE] ∨ lead = [] ∧ words isSpace t ≠ []) := by
  have hfits := h.fits
  have hend : EndsInSpace (t ++ [SPACE]) := fun c hc => by simpa using hc.symm
  have hwords : words isSpace (t ++ [SPACE]) = words isSpace t := Lib.words_concat_sep rfl t
  obtain ⟨x, v, hsplit, hx⟩ :=
    List.eq_append_cons_of_mem (List.mem_append_right t (List.mem_singleton_self SPACE))
  rw [hsplit] at h hend hwords hfits
  rw [List.length_append, List.length_cons] at hfits
  have hnotSpace : ∀ c ∈ x, isSpace c = false := by
    intro c hc
    simp only [isSpace, decide_eq_false_iff_not]
    rintro rfl
    exact hx hc
  -- `strchr` stops at the first space, and the loop begins behind it
  have hfind := strchr?_space (u := []) (by simpa using h) hnotSpace
  obtain ⟨cmd₁, hloop, hsize, h₁⟩ := collapseLoop_of_str cmd.size x v cmd h (by omega)
    (EndsInSpace.of_append (u := x ++ [SPACE]) (by simpa using hend))
  cases x with
  | nil =>
    rw [List.nil_append, Lib.words_cons_sep rfl] at hwords
    rw [hwords] at h₁
    exact ⟨_, cmd₁, [SPACE], hfind, hloop, hsize, h₁, .inl rfl⟩
  | cons c x =>
    rw [Lib.words_append_sep ⟨List.cons_ne_nil c x, hnotSpace⟩ rfl] at hwords
    rw [← Lib.joined_cons, hwords] at h₁
    exact ⟨_, cmd₁, [], hfind, hloop, hsize, h₁, .inr ⟨rfl, by simp [← hwords]⟩⟩

/-- The words that the collapsed text is split into. -/
theorem split_of_str {lead : List UInt8} {ws : List (List UInt8)}
    (h : cmd.Str 0 (lead ++ joined SPACE ws)) (hlead : lead = [SPACE] ∨ lead = [])
    (hws : ∀ w ∈ ws, IsWord isSpace w) (hne : ws ≠ []) :
    ∃ first p cmd₁ found, cmd.get? 0 = some first ∧ p = (if first = SPACE then 1 else 0) ∧
      addSpace cmd p = some cmd ∧
      splitLoop cmd.size p [] cmd = some (found, cmd₁) ∧ cmd₁.size = cmd.size ∧
      if ws.length ≤ SHELL_MAX_ARGS then found = some (offsets p ws) ∧ Laid cmd₁ p ws
      else found = none := by
  have hfits := h.fits
  rw [List.length_append] at hfits
  have hjoined : joined SPACE ws ≠ [] := mt Lib.joined_eq_nil_iff.mp hne
  have hcount := Lib.length_le_length_joined (c := SPACE) ws
  -- the first word begins behind the space, if there is one
  have hstart : ∃ first, cmd.get? 0 = some first ∧
      (if first = SPACE then 1 else 0) = lead.length := by
    obtain rfl | rfl := hlead
    · exact ⟨SPACE, h.head, rfl⟩
    · cases ws with
      | nil => exact absurd rfl hne
      | cons w ws =>
        have hw := hws w List.mem_cons_self
        cases w with
        | nil => exact absurd rfl hw.1
        | cons c w =>
          rw [List.nil_append, Lib.joined_cons, List.cons_append] at h
          have hc : c ≠ SPACE := by
            have hnot := hw.2 c List.mem_cons_self
            simpa [isSpace] using hnot
          exact ⟨c, h.head, if_neg hc⟩
  obtain ⟨first, hfirst, hp⟩ := hstart
  have hrest := h.drop_left
  rw [Nat.zero_add] at hrest
  have hlast := hrest.last hjoined
  have hspace : (joined SPACE ws).getLast hjoined = SPACE := by
    have hend := Lib.getLast?_joined (c := SPACE) hne
    rw [List.getLast?_eq_some_getLast hjoined] at hend
    exact Option.some.inj hend
  obtain ⟨cmd₁, found, hloop, hsize, -, hfound⟩ := splitLoop_of_str ws cmd.size lead.length []
    cmd hrest hws (by omega) (Nat.zero_le _)
  rw [List.length_nil, Nat.zero_add, List.nil_append] at hfound
  rw [hspace] at hlast
  have hadd : addSpace cmd lead.length = some cmd := by
    simp [addSpace, Buf.strlen?_of_str hrest, hlast]
  exact ⟨first, lead.length, cmd₁, found, hfirst, hp.symm, hadd, hloop, hsize, hfound⟩

/-- The line ends in a line feed once one is added where it is missing. -/
theorem line_feed_of_str (h : cmd.Str 0 line) (hroom : line.length + 2 ≤ cmd.size)
    (hne : line ≠ []) :
    ∃ cmd₁ t, addLineFeed cmd line.length = some cmd₁ ∧ cmd₁.size = cmd.size ∧
      cmd₁.Str 0 (t ++ [LF]) ∧ (QuotesBalanced t ↔ QuotesBalanced line) ∧
      (QuotesBalanced line → lineWords t = lineWords line) := by
  have hlast := h.last hne
  rw [Nat.zero_add] at hlast
  by_cases hlf : line.getLast hne = LF
  · -- the line has one already
    rcases List.eq_nil_or_concat' line with rfl | ⟨t, d, rfl⟩
    · exact absurd rfl hne
    · rw [List.getLast_concat] at hlf
      subst hlf
      have hbalanced := balanced_append_lf t
      rw [List.getLast_concat] at hlast
      refine ⟨cmd, t, by rw [addLineFeed, hlast]; rfl, rfl, h, hbalanced.symm,
        fun hb => (lineWords_append_lf (hbalanced.mp hb)).symm⟩
  · obtain ⟨cmd₁, hcat, hsize, h₁⟩ :=
      Buf.strcat?_of_str h (t := [LF]) (by decide) (by simpa using by omega)
    exact ⟨cmd₁, line, by simp [addLineFeed, hlast, hlf, hcat], hsize, h₁, Iff.rfl,
      fun _ => rfl⟩

/-- The text of the line after the passes over white space and quotes. -/
theorem marked_text {t : List UInt8} (h : QuotesBalanced t) :
    (marked none ((t ++ [LF]).map blank)).map code = (marked none t).map code ++ [SPACE] := by
  rw [marked_blank, marked_append_lf h, List.map_append]
  rfl

/-- There are words in the collapsed text, so it is not the space alone. -/
theorem collapsed_ne_space {lead : List UInt8} {ws : List (List UInt8)}
    (hlead : lead = [SPACE] ∨ lead = []) (hws : ∀ w ∈ ws, IsWord isSpace w) (hne : ws ≠ []) :
    lead ++ joined SPACE ws ≠ [SPACE] := by
  intro heq
  obtain rfl | rfl := hlead
  · exact hne (Lib.joined_eq_nil_iff.mp (@List.append_cancel_left _ [SPACE] _ _ heq))
  · cases ws with
    | nil => exact hne rfl
    | cons w ws =>
      have hw := hws w List.mem_cons_self
      cases w with
      | nil => exact hw.1 rfl
      | cons c w =>
        -- a word and the space behind it are more than one character
        rw [List.nil_append, Lib.joined_cons, List.cons_append, List.cons.injEq] at heq
        exact absurd heq.2 (by simp)

/-- What `shellh_execute_command` does with a line in its block. -/
theorem execute_eq (h : cmd.Str 0 line) (hroom : line.length + 2 ≤ cmd.size) :
    shellhExecuteCommand lang interactiveMode cmd = some (executed lang interactiveMode line) := by
  rw [shellhExecuteCommand, Buf.strlen?_of_str h]
  by_cases hempty : line.length = 0
  · obtain rfl := List.length_eq_zero_iff.mp hempty
    rfl
  have hne : line ≠ [] := fun hnil => hempty (by rw [hnil]; rfl)
  -- the line feed, the other white space and the quotes, one pass after the other
  obtain ⟨cmd₁, t, hadd, hsize₁, h₁, hbalanced, hwords⟩ := line_feed_of_str h hroom hne
  have hfits := h₁.fits
  obtain ⟨cmd₂, hblank, hsize₂, h₂⟩ := blankLoop_of_str (t ++ [LF]) [] cmd₁ cmd₁.size h₁ (by omega)
  rw [List.nil_append] at h₂
  obtain ⟨cmd₃, hquote, hsize₃, h₃⟩ := quoteLoop_of_str ((t ++ [LF]).map blank) [] none cmd₂
    cmd₂.size (fun c hc hb => by
      obtain ⟨d, -, rfl⟩ := List.mem_map.mp hc
      exact eq_space_of_isBlank_blank hb) h₂ (by rw [List.length_map]; omega)
  rw [List.nil_append] at h₃
  rw [foldl_nextQuote_blank] at hquote
  simp only [List.length_nil, Option.isSome_none, Option.getD_none] at hblank hquote
  simp only [Option.bind_eq_bind, Option.bind_some, if_neg hempty, hadd, hblank, hquote]
  have hfold : ((t ++ [LF]).foldl nextQuote none).isSome = true ↔ ¬QuotesBalanced line := by
    rw [← hbalanced, ← balanced_append_lf t, QuotesBalanced, Option.isSome_iff_ne_none]
  by_cases hopen : QuotesBalanced line
  · have hclosed : ¬((t ++ [LF]).foldl nextQuote none).isSome = true := fun hs => hfold.mp hs hopen
    -- the spaces that are left outside of quotes are collapsed
    rw [marked_text (hbalanced.mpr hopen)] at h₃
    obtain ⟨p, cmd₄, lead, hfind, hcollapse, hsize₄, h₄, hlead⟩ := collapse_of_str h₃
    have hws : ∀ w ∈ words isSpace ((marked none t).map code), IsWord isSpace w :=
      fun w hw => Lib.isWord_of_mem hw
    have hargs := words_code t
    have hcount := congrArg List.length hargs
    rw [commandArgs, List.length_map, List.length_map, hwords hopen] at hcount
    rw [commandArgs, hwords hopen, ← commandArgs] at hargs
    simp only [if_neg hclosed, hfind, hcollapse, Buf.text?_of_str h₄, Option.bind_some]
    -- from here on only the number of words matters, and that they are words
    generalize words isSpace ((marked none t).map code) = ws at h₄ hlead hws hargs hcount
    have hnil : lineWords line = [] ↔ ws = [] := by
      rw [← List.length_eq_zero_iff, ← hcount, List.length_eq_zero_iff]
    rw [executed, if_neg (not_not.mpr hopen)]
    by_cases hblankLine : ws = []
    · -- nothing but white space
      obtain rfl | ⟨-, hwords⟩ := hlead
      · rw [if_pos (by rw [hblankLine]; rfl), if_pos (hnil.mpr hblankLine)]
      · exact absurd hblankLine hwords
    · have htext := collapsed_ne_space (hlead.imp_right And.left) hws hblankLine
      -- the words of the text are cut apart and counted
      obtain ⟨first, p, cmd₅, found, hfirst, hp, haddSpace, hsplit, -, hfound⟩ :=
        split_of_str h₄ (hlead.imp_right And.left) hws hblankLine
      rw [if_neg htext, if_neg (mt hnil.mp hblankLine)]
      simp only [hfirst, ← hp, haddSpace, hsplit, Option.bind_some]
      by_cases hmany : ws.length ≤ SHELL_MAX_ARGS
      · rw [if_pos hmany] at hfound
        obtain ⟨rfl, hlaid⟩ := hfound
        obtain ⟨argv, cmd₆, hprocess, -, htexts, -⟩ :=
          processArgs_of_laid ws p cmd₅ hlaid fun w hw => (hws w hw).1
        rw [if_neg (by omega)]
        simp only [hprocess, htexts, Option.bind_some, hargs]
      · -- too many arguments
        rw [if_neg hmany] at hfound
        rw [if_pos (by omega), hfound]
  · -- a quote is left open
    rw [if_pos (hfold.mpr hopen), executed, if_pos hopen]

/-! ### The arguments -/

theorem mem_marked {quote : Option UInt8} (h : some c ∈ marked quote line) :
    c = SPACE ∨ c ∈ line := by
  induction line generalizing quote with
  | nil => cases h
  | cons d line ih =>
    rw [marked, List.mem_cons] at h
    obtain h | h := h
    · split at h
      · split at h
        · exact .inl (Option.some.inj h)
        · cases h
      · exact .inr (Option.some.inj h ▸ List.mem_cons_self)
    · exact (ih h).imp_right (List.mem_cons_of_mem d)

/-- Without a `SHELL_ALT_SPACE` the arguments are the words without their quotes. -/
theorem commandArgs_eq (halt : SHELL_ALT_SPACE ∉ line) :
    commandArgs line = (lineWords line).map unquote := by
  refine List.map_congr_left fun w hw => congrArg unquote ?_
  obtain ⟨v, hv, rfl⟩ := List.mem_map.mp hw
  refine (List.map_congr_left fun c hc => ?_).trans (List.map_id _)
  obtain ⟨x, hx, rfl⟩ := List.mem_filterMap.mp hc
  refine if_neg fun heq => ?_
  obtain hspace | hmem := mem_marked (Lib.mem_of_mem_words hv hx)
  · rw [hspace] at heq
    exact absurd heq (by decide)
  · exact halt (heq ▸ hmem)

/-! ### The command -/

variable {arg : List UInt8} {args : List (List UInt8)}

/-- Only the entry behind the commands has no name, and only `exit` has no handler. -/
theorem shellCommands_ok (lang : Lang) : ∀ pcmd ∈ shellCommands lang,
    (pcmd.cmd = none → pcmd = noCommand) ∧
      (pcmd.cmd ≠ none →
        (pcmd.handlerFunc = none ↔ pcmd.cmd.map lower = some (lower (ascii "exit")))) := by
  cases lang <;> decide +kernel

theorem findCommand_mem (pcmds : List ShellCommand) (arg : List UInt8) :
    findCommand pcmds arg ∈ pcmds ∨ findCommand pcmds arg = noCommand := by
  induction pcmds with
  | nil => exact .inr rfl
  | cons pcmd pcmds ih =>
    rw [findCommand]
    split
    · exact .inl List.mem_cons_self
    · split
      · exact .inl List.mem_cons_self
      · exact ih.imp_left (List.mem_cons_of_mem pcmd)

theorem findCommand_name {pcmds : List ShellCommand} {name : List UInt8}
    (h : (findCommand pcmds arg).cmd = some name) : lower name = lower arg := by
  induction pcmds with
  | nil => cases h
  | cons pcmd pcmds ih =>
    rw [findCommand] at h
    split at h
    · next hnone =>
        rw [hnone] at h
        cases h
    · next name' hsome =>
        split at h
        · next hsame =>
            rw [hsome, Option.some.injEq] at h
            exact h ▸ hsame
        · exact ih h

/-- A name in front of the end of the table is found. -/
theorem findCommand_isSome {pcmds : List ShellCommand} (rest : List ShellCommand)
    (hnames : ∀ pcmd ∈ pcmds, pcmd.cmd ≠ none)
    (h : ∃ pcmd ∈ pcmds, pcmd.cmd.map lower = some (lower arg)) :
    (findCommand (pcmds ++ rest) arg).cmd ≠ none := by
  induction pcmds with
  | nil =>
    obtain ⟨pcmd, hmem, -⟩ := h
    cases hmem
  | cons pcmd pcmds ih =>
    rw [List.cons_append, findCommand]
    split
    · next hnone => exact absurd hnone (hnames pcmd List.mem_cons_self)
    · next name hname =>
        split
        · rw [hname]
          exact Option.some_ne_none name
        · next hother =>
            refine ih (fun e he => hnames e (List.mem_cons_of_mem pcmd he)) ?_
            obtain ⟨e, hmem, he⟩ := h
            obtain rfl | hmem := List.mem_cons.mp hmem
            · rw [hname] at he
              exact absurd (Option.some.inj he) hother
            · exact ⟨e, hmem, he⟩

/-- The names of the table are in front of its end. -/
theorem shellCommands_split (lang : Lang) : ∃ pcmds, shellCommands lang = pcmds ++ [noCommand] ∧
    ∀ pcmd ∈ pcmds, pcmd.cmd ≠ none := by
  refine ⟨(shellCommands lang).dropLast, ?_, ?_⟩
  · cases lang <;> rfl
  · cases lang <;> decide +kernel

/-- A command is found if its name is in the table. -/
theorem findCommand_iff (lang : Lang) (arg : List UInt8) :
    (findCommand (shellCommands lang) arg).cmd ≠ none ↔ Known lang arg := by
  constructor
  · intro h
    obtain ⟨name, hname⟩ := Option.ne_none_iff_exists'.mp h
    obtain hmem | hnone := findCommand_mem (shellCommands lang) arg
    · exact ⟨_, hmem, by rw [hname, Option.map_some, findCommand_name hname]⟩
    · exact absurd (congrArg ShellCommand.cmd hnone) h
  · rintro ⟨pcmd, hmem, hname⟩
    obtain ⟨pcmds, hsplit, hnames⟩ := shellCommands_split lang
    rw [hsplit]
    refine findCommand_isSome [noCommand] hnames ⟨pcmd, ?_, hname⟩
    rw [hsplit] at hmem
    obtain hmem | hmem := List.mem_append.mp hmem
    · exact hmem
    · rw [List.mem_singleton.mp hmem] at hname
      cases hname

theorem findCommand_ok (lang : Lang) (arg : List UInt8) :
    ((findCommand (shellCommands lang) arg).cmd = none →
      (findCommand (shellCommands lang) arg).handlerFunc = none) ∧
    ((findCommand (shellCommands lang) arg).cmd ≠ none →
      ((findCommand (shellCommands lang) arg).handlerFunc = none ↔
        lower arg = lower (ascii "exit"))) := by
  obtain hmem | hnone := findCommand_mem (shellCommands lang) arg
  · obtain ⟨hnone, hexit⟩ := shellCommands_ok lang _ hmem
    refine ⟨fun h => by rw [hnone h]; rfl, fun h => ?_⟩
    obtain ⟨name, hname⟩ := Option.ne_none_iff_exists'.mp h
    rw [hexit h, hname, Option.map_some, findCommand_name hname, Option.some.injEq]
  · rw [hnone]
    exact ⟨fun _ => rfl, fun h => absurd rfl h⟩

/-- The handler of the command runs with all arguments. -/
theorem dispatch_ran (lang : Lang) (interactiveMode : Bool) (arg : List UInt8)
    (args : List (List UInt8)) :
    (dispatch lang interactiveMode (arg :: args)).ran =
      if allowed lang interactiveMode (findCommand (shellCommands lang) arg) then
        (findCommand (shellCommands lang) arg).handlerFunc.map (·, arg :: args)
      else none := by
  have hok := (findCommand_ok lang arg).1
  rw [dispatch]
  cases hcmd : (findCommand (shellCommands lang) arg).cmd with
  | none => simp [hok hcmd]
  | some name =>
    simp only
    split
    · cases (findCommand (shellCommands lang) arg).handlerFunc <;> rfl
    · rfl

/-- The dispatch is safe when the command is known, or its name need not be looked at, unless the
handler that is called is `NULL`. -/
theorem dispatch_returns_iff (lang : Lang) (interactiveMode : Bool) (arg : List UInt8)
    (args : List (List UInt8)) :
    (∃ pcmd, (dispatch lang interactiveMode (arg :: args)).ended = .returned pcmd) ↔
      (interactiveMode = true ∨ Known lang arg) ∧
        ¬(lang = .tinyscheme ∧ lower arg = lower (ascii "exit")) := by
  have hknown := findCommand_iff lang arg
  have hok := (findCommand_ok lang arg).2
  rw [dispatch]
  cases hcmd : (findCommand (shellCommands lang) arg).cmd with
  | none =>
    rw [hcmd] at hknown
    have hexit : Known lang (ascii "exit") := by
      cases lang <;> decide +kernel
    have hnotExit : lower arg ≠ lower (ascii "exit") := by
      intro hsame
      refine hknown.mpr ?_ rfl
      obtain ⟨pcmd, hmem, hname⟩ := hexit
      exact ⟨pcmd, hmem, by rw [hname, hsame]⟩
    have hunknown : ¬Known lang arg := fun h => hknown.mpr h rfl
    cases interactiveMode <;> simp [hunknown, hnotExit]
  | some name =>
    have hk : Known lang arg := hknown.mp (by rw [hcmd]; exact Option.some_ne_none name)
    have hhandler := hok (by rw [hcmd]; exact Option.some_ne_none name)
    simp only [hk, or_true, true_and]
    cases hfunc : (findCommand (shellCommands lang) arg).handlerFunc with
    | none =>
      rw [hfunc] at hhandler
      have hexit := hhandler.mp rfl
      cases lang <;> simp [allowed, hfunc, hexit]
    | some handler =>
      rw [hfunc] at hhandler
      have hnotExit : lower arg ≠ lower (ascii "exit") := fun h => by cases hhandler.mpr h
      split <;> simp [hnotExit]

/-- **Words**: the handler of the command gets exactly the words of
the line, without their quotes and with the spaces inside of them. A
line with too many words or an open quote runs no handler. -/
theorem handler_gets_words (lang : Lang) (interactiveMode : Bool) (cmd : Buf) (line : List UInt8)
    (h : cmd.Str 0 line) (hroom : line.length + 2 ≤ cmd.size) (halt : SHELL_ALT_SPACE ∉ line) :
    (QuotesBalanced line → ∀ arg args, (lineWords line).map unquote = arg :: args →
      args.length < SHELL_MAX_ARGS →
      ∃ outcome, shellhExecuteCommand lang interactiveMode cmd = some outcome ∧
        outcome.ran =
          if allowed lang interactiveMode (findCommand (shellCommands lang) arg) then
            (findCommand (shellCommands lang) arg).handlerFunc.map (·, arg :: args)
          else none) ∧
    (¬QuotesBalanced line ∨ SHELL_MAX_ARGS < (lineWords line).length →
      ∃ outcome, shellhExecuteCommand lang interactiveMode cmd = some outcome ∧
        outcome.ran = none) := by
  rw [execute_eq h hroom]
  constructor
  · intro hbalanced arg args hwords hfew
    have hlen := congrArg List.length hwords
    rw [List.length_map, List.length_cons] at hlen
    have hnil : lineWords line ≠ [] := fun hn => by
      rw [hn] at hwords
      cases hwords
    refine ⟨_, rfl, ?_⟩
    rw [executed, if_neg (not_not.mpr hbalanced), if_neg hnil, if_neg (by omega),
      commandArgs_eq halt, hwords, dispatch_ran]
  · intro hbad
    refine ⟨_, rfl, ?_⟩
    unfold executed
    split
    · rfl
    · next hbalanced =>
        split
        · rfl
        · rw [if_pos (hbad.resolve_left fun hopen => hbalanced hopen)]

/-- A line in a block that has room for a line feed. -/
def lineBlock (line : List UInt8) : Buf := ⟨fun n => (line ++ [0]).getD n 0, line.length + 2⟩

theorem lineBlock_str {line : List UInt8} (h : 0 ∉ line) : (lineBlock line).Str 0 line := by
  refine ⟨?_, h, by simp [lineBlock]⟩
  rw [Mem.holds_iff_getElem]
  intro k hk
  rw [Nat.zero_add]
  show (line ++ [0]).getD k 0 = _
  rw [List.getD_eq_getElem?_getD, List.getElem?_eq_getElem hk]
  rfl

/-- The hypotheses of `handler_gets_words` hold of a line with tabs,
spaces and both kinds of quotes. -/
theorem handler_gets_words_cp :
    ∃ outcome, shellhExecuteCommand .lua false (lineBlock (ascii " cp '/a b'\t\"/c'd\" ")) =
        some outcome ∧
      outcome.ran = some (.cp, [ascii "cp", ascii "/a b", ascii "/c'd"]) := by
  obtain ⟨outcome, hexec, hran⟩ := (handler_gets_words .lua false
    (lineBlock (ascii " cp '/a b'\t\"/c'd\" ")) (ascii " cp '/a b'\t\"/c'd\" ")
    (lineBlock_str (by decide)) (Nat.le_refl _) (by decide)).1 (by decide +kernel)
    (ascii "cp") [ascii "/a b", ascii "/c'd"] (by decide +kernel) (by decide)
  exact ⟨outcome, hexec, hran.trans (by decide +kernel)⟩

/-! ### Safety -/

/-- On a line in a block of its length and two bytes, the function comes to its end without leaving
the block or using a `NULL` exactly if the line runs no command, or runs one in interactive mode or
one that exists; in TinyScheme that one must not be `exit`. -/
theorem returns_iff (lang : Lang) (interactiveMode : Bool) (cmd : Buf) (line : List UInt8)
    (h : cmd.Str 0 line) (hsize : cmd.size = line.length + 2) :
    (∃ outcome pcmd, shellhExecuteCommand lang interactiveMode cmd = some outcome ∧
      outcome.ended = .returned pcmd) ↔
    (QuotesBalanced line → ∀ arg args, commandArgs line = arg :: args →
      args.length < SHELL_MAX_ARGS →
      (interactiveMode = true ∨ Known lang arg) ∧
        ¬(lang = .tinyscheme ∧ lower arg = lower (ascii "exit"))) := by
  have hlen : (commandArgs line).length = (lineWords line).length := List.length_map _
  simp only [execute_eq h (Nat.le_of_eq hsize.symm), Option.some.injEq, exists_and_left,
    exists_eq_left']
  rw [executed]
  by_cases hbalanced : QuotesBalanced line
  · rw [if_neg (not_not.mpr hbalanced)]
    cases hargs : commandArgs line with
    | nil =>
      rw [hargs] at hlen
      rw [if_pos (List.length_eq_zero_iff.mp hlen.symm)]
      exact ⟨fun _ _ arg args hnil => (by cases hnil), fun _ => ⟨none, rfl⟩⟩
    | cons arg args =>
      rw [hargs, List.length_cons] at hlen
      rw [if_neg fun hnil => by rw [hnil] at hlen; cases hlen]
      by_cases hmany : SHELL_MAX_ARGS < (lineWords line).length
      · rw [if_pos hmany]
        refine ⟨fun _ _ arg' args' heq hfew => ?_, fun _ => ⟨none, rfl⟩⟩
        obtain ⟨rfl, rfl⟩ := List.cons.inj heq
        omega
      · rw [if_neg hmany, dispatch_returns_iff]
        constructor
        · intro hsafe _ arg' args' heq _
          obtain ⟨rfl, -⟩ := List.cons.inj heq
          exact hsafe
        · exact fun hall => hall hbalanced arg args rfl (by omega)
  · rw [if_pos hbalanced]
    exact ⟨fun _ hb => absurd hb hbalanced, fun _ => ⟨none, rfl⟩⟩

/-- The hypotheses of `returns_iff` hold of the line `ver`, which
returns. -/
theorem returns_ver :
    ∃ outcome pcmd, shellhExecuteCommand .lua false (lineBlock (ascii "ver")) = some outcome ∧
      outcome.ended = .returned pcmd := by
  refine (returns_iff .lua false (lineBlock (ascii "ver")) (ascii "ver")
    (lineBlock_str (by decide)) rfl).mpr fun _ arg args hargs _ => ?_
  have hver : commandArgs (ascii "ver") = [ascii "ver"] := by decide +kernel
  rw [hver, List.cons.injEq] at hargs
  rw [← hargs.1]
  decide +kernel

/-- An unknown command that is not typed in passes `NULL` to `strcasecmp`. -/
theorem not_always_returns :
    shellhExecuteCommand .lua false (lineBlock (ascii "x")) =
      some { printed := some SHELL_ERRMSG, ended := .nullString } ∧
    ¬∃ outcome pcmd, shellhExecuteCommand .lua false (lineBlock (ascii "x")) = some outcome ∧
      outcome.ended = .returned pcmd := by
  have hx : shellhExecuteCommand .lua false (lineBlock (ascii "x")) =
      some { printed := some SHELL_ERRMSG, ended := .nullString } := by decide +kernel
  refine ⟨hx, ?_⟩
  rintro ⟨outcome, pcmd, hexec, hended⟩
  rw [hx, Option.some.injEq] at hexec
  rw [← hexec] at hended
  cases hended

end Alcor.Proofs.Shell
