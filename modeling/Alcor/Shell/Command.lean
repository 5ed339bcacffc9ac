import Alcor.Lib.Memory
import Alcor.Lib.Str
import Alcor.Lib.Words

/-!
# `Alcor.Shell.Command`: the execution of a command line

`shellh_execute_command` of `src/shell/shell.c` on the block that holds
the line. An access outside of the block makes every function here
`none`; a loop gets as many passes as its string has bytes, and `none`
is also a loop that needs more. `lineWords` and `unquote` say what the
words of a line are.
-/

set_option autoImplicit false

namespace Alcor.Shell

open Lib (Buf lower)

def TAB : UInt8 := 9
def LF : UInt8 := 10
def CR : UInt8 := 13
def SPACE : UInt8 := 32

/-- `"`. -/
def DQUOTE : UInt8 := 34

/-- `'`. -/
def SQUOTE : UInt8 := 39

def SHELL_ALT_SPACE : UInt8 := 7
def SHELL_MAX_ARGS : Nat := 10
def SHELL_ERRMSG : String := "Invalid command, type 'help' for help\n"

/-! ### The commands -/

/-- The language that is built. -/
inductive Lang where
  | tinyscheme
  | picolisp
  | picoc
  | lua
  deriving DecidableEq, Repr

/-- The functions `shell_...`. -/
inductive Handler where
  | tinyscheme | picolisp | picoc | lua | luac
  | help | recv | ver | ls | cat | cp | wofmt | mkdir | advRm | advMv | iv
  deriving DecidableEq, Repr

/-- `SHELL_COMMAND`; `none` is `NULL`. -/
structure ShellCommand where
  cmd : Option (List UInt8)
  handlerFunc : Option Handler
  deriving DecidableEq, Repr

/-- The characters of a C literal. -/
def ascii (s : String) : List UInt8 := s.toList.map fun c => UInt8.ofNat c.toNat

/-- The commands of the language. -/
def langCommands : Lang → List ShellCommand
  | .tinyscheme => [⟨some (ascii "tinyscheme"), some .tinyscheme⟩]
  | .picolisp   => [⟨some (ascii "picolisp"), some .picolisp⟩]
  | .picoc      => [⟨some (ascii "picoc"), some .picoc⟩]
  | .lua        => [⟨some (ascii "lua"), some .lua⟩, ⟨some (ascii "luac"), some .luac⟩]

/-- The entry behind the commands. -/
def noCommand : ShellCommand := ⟨none, none⟩

/-- `shell_commands`. -/
def shellCommands (lang : Lang) : List ShellCommand :=
  langCommands lang ++
    [⟨some (ascii "help"), some .help⟩, ⟨some (ascii "recv"), some .recv⟩,
      ⟨some (ascii "ver"), some .ver⟩, ⟨some (ascii "exit"), none⟩,
      ⟨some (ascii "ls"), some .ls⟩, ⟨some (ascii "dir"), some .ls⟩,
      ⟨some (ascii "cat"), some .cat⟩, ⟨some (ascii "type"), some .cat⟩,
      ⟨some (ascii "cp"), some .cp⟩, ⟨some (ascii "wofmt"), some .wofmt⟩,
      ⟨some (ascii "mkdir"), some .mkdir⟩, ⟨some (ascii "rm"), some .advRm⟩,
      ⟨some (ascii "mv"), some .advMv⟩, ⟨some (ascii "iv"), some .iv⟩, noCommand]

/-! ### The passes over the line -/

/-- Adds a line feed where it is missing. -/
def addLineFeed (cmd : Buf) (len : Nat) : Option Buf := do
  let last ← cmd.get? (len - 1)
  if last ≠ LF then cmd.strcat? 0 [LF] else some cmd

/-- Changes `\r`, `\n` and `\t` to spaces. -/
def blankLoop : Nat → Nat → Buf → Option Buf
  | 0,     _, _ => none
  | n + 1, p, cmd => do
      let c ← cmd.get? p
      if c = 0 then some cmd
      else
        let cmd ← if c = CR ∨ c = LF ∨ c = TAB then cmd.put? p [SPACE] else some cmd
        blankLoop n (p + 1) cmd

/-- Transforms the spaces of quoted strings; `insideQuotes` and the line at the end. -/
def quoteLoop : Nat → Nat → Bool → UInt8 → Buf → Option (Bool × Buf)
  | 0,     _, _, _, _ => none
  | n + 1, i, insideQuotes, quoteChar, cmd => do
      let len ← cmd.strlen? 0
      if i < len then
        let c ← cmd.get? i
        if c = SQUOTE ∨ c = DQUOTE then
          if !insideQuotes then quoteLoop n (i + 1) true c cmd
          else if c = quoteChar then quoteLoop n (i + 1) false 0 cmd
          else quoteLoop n (i + 1) insideQuotes quoteChar cmd
        else if c = SPACE ∧ insideQuotes then
          let cmd ← cmd.put? i [SHELL_ALT_SPACE]
          quoteLoop n (i + 1) insideQuotes quoteChar cmd
        else quoteLoop n (i + 1) insideQuotes quoteChar cmd
      else some (insideQuotes, cmd)

/-- Deletes the spaces at `temp`. -/
def deleteLoop : Nat → Nat → Buf → Option Buf
  | 0,     _, _ => none
  | n + 1, temp, cmd => do
      let c ← cmd.get? temp
      if c ≠ 0 ∧ c = SPACE then
        let len ← cmd.strlen? temp
        let cmd ← cmd.memmove? temp (temp + 1) len
        deleteLoop n temp cmd
      else some cmd

/-- Transforms consecutive spaces into one, from the space at `p` on. -/
def collapseLoop : Nat → Option Nat → Buf → Option Buf
  | _,     none,   cmd => some cmd
  | 0,     some _, _   => none
  | n + 1, some p, cmd => do
      let cmd ← deleteLoop cmd.size (p + 1) cmd
      let p ← cmd.strchr? (p + 1) SPACE
      collapseLoop n p cmd

/-- Adds a final space where it is missing. -/
def addSpace (cmd : Buf) (p : Nat) : Option Buf := do
  let len ← cmd.strlen? p
  let last ← cmd.get? (p + len - 1)
  if last ≠ SPACE then cmd.strcat? p [SPACE] else some cmd

/-- Computes `argv`; no `argv` when there are too many arguments. -/
def splitLoop : Nat → Nat → List Nat → Buf → Option (Option (List Nat) × Buf)
  | 0,     _, _, _ => none
  | n + 1, p, argv, cmd => do
      match ← cmd.strchr? p SPACE with
      | none      => some (some argv, cmd)
      | some temp =>
        let cmd ← cmd.put? temp [0]
        if argv.length = SHELL_MAX_ARGS then some (none, cmd)
        else splitLoop n (temp + 1) (argv ++ [p]) cmd

/-- Puts back the spaces of an argument. -/
def restoreLoop : Nat → Nat → Nat → Buf → Option Buf
  | 0,     _, _, _ => none
  | n + 1, p, i, cmd => do
      let len ← cmd.strlen? p
      if i < len then
        let c ← cmd.get? (p + i)
        let cmd ← if c = SHELL_ALT_SPACE then cmd.put? (p + i) [SPACE] else some cmd
        restoreLoop n p (i + 1) cmd
      else some cmd

/-- The additional processing of an argument: its spaces, and its quotes. -/
def processArg (p : Nat) (cmd : Buf) : Option (Nat × Buf) := do
  let cmd ← restoreLoop cmd.size p 0 cmd
  let first ← cmd.get? p
  if first = SQUOTE ∨ first = DQUOTE then
    let len ← cmd.strlen? p
    let last ← cmd.get? (p + len - 1)
    if first = last then
      let cmd ← cmd.put? (p + len - 1) [0]
      some (p + 1, cmd)
    else some (p, cmd)
  else some (p, cmd)

/-- The processing of all arguments. -/
def processArgs : List Nat → Buf → Option (List Nat × Buf)
  | [],        cmd => some ([], cmd)
  | p :: argv, cmd => do
      let (p, cmd) ← processArg p cmd
      let (argv, cmd) ← processArgs argv cmd
      some (p :: argv, cmd)

/-! ### The dispatch -/

/-- How `shellh_execute_command` ends. -/
inductive Ended where
  /-- It returns a command, or `NULL`. -/
  | returned (pcmd : Option ShellCommand)
  /-- It passes `NULL` to `strcasecmp`. -/
  | nullString
  /-- It calls a handler that is `NULL`. -/
  | nullHandler
  deriving DecidableEq, Repr

/-- What `shellh_execute_command` does. -/
structure Outcome where
  /-- The message that it prints. -/
  printed : Option String := none
  /-- The handler that it calls, with its arguments. -/
  ran : Option (Handler × List (List UInt8)) := none
  ended : Ended
  deriving DecidableEq, Repr

/-- The loop that matches the user command. -/
def findCommand : List ShellCommand → List UInt8 → ShellCommand
  | [],           _   => noCommand
  | pcmd :: pcmds, arg =>
    match pcmd.cmd with
    | none      => pcmd
    | some name => if lower name = lower arg then pcmd else findCommand pcmds arg

/-- The condition in front of the call of the handler, in the build of a language. -/
def allowed (lang : Lang) (interactiveMode : Bool) (pcmd : ShellCommand) : Bool :=
  let except (name : String) : Bool :=
    pcmd.handlerFunc.isSome &&
      (interactiveMode || pcmd.cmd.map lower != some (lower (ascii name)))
  match lang with
  | .tinyscheme => true
  | .picolisp   => except "picolisp"
  | .picoc      => except "picoc"
  | .lua        => except "lua"

/-- From the match of the command on. -/
def dispatch (lang : Lang) (interactiveMode : Bool) (argv : List (List UInt8)) : Outcome :=
  match argv with
  | []       => { ended := .nullString }
  | arg :: _ =>
    let pcmd := findCommand (shellCommands lang) arg
    match pcmd.cmd with
    | none      =>
      { printed := some SHELL_ERRMSG,
        ended := if interactiveMode then .returned (some pcmd) else .nullString }
    | some name =>
      let ended := Ended.returned
        (if !interactiveMode && lower name == lower (ascii "exit") then none else some pcmd)
      if allowed lang interactiveMode pcmd then
        match pcmd.handlerFunc with
        | none         => { ended := .nullHandler }
        | some handler => { ran := some (handler, argv), ended }
      else { ended }

/-- `shellh_execute_command` with the line in its block. -/
def shellhExecuteCommand (lang : Lang) (interactiveMode : Bool) (cmd : Buf) : Option Outcome := do
  let len ← cmd.strlen? 0
  if len = 0 then some { ended := .returned none }
  else
    let cmd ← addLineFeed cmd len
    let cmd ← blankLoop cmd.size 0 cmd
    let (insideQuotes, cmd) ← quoteLoop cmd.size 0 false 0 cmd
    if insideQuotes then
      some { printed := some "Invalid quoted string\n", ended := .returned none }
    else
      let p ← cmd.strchr? 0 SPACE
      let cmd ← collapseLoop cmd.size p cmd
      let text ← cmd.text? 0
      if text = [SPACE] then some { ended := .returned none }
      else
        let first ← cmd.get? 0
        let p := if first = SPACE then 1 else 0
        let cmd ← addSpace cmd p
        let (argv, cmd) ← splitLoop cmd.size p [] cmd
        match argv with
        | none      =>
          some { printed := some "Error: too many arguments\n", ended := .returned none }
        | some argv =>
          let (argv, cmd) ← processArgs argv cmd
          let args ← argv.mapM cmd.text?
          some (dispatch lang interactiveMode args)

/-! ### The words of a line -/

/-- White space. -/
def isBlank (c : UInt8) : Bool := c = SPACE || c = TAB || c = CR || c = LF

/-- The quote that is open behind a character. -/
def nextQuote (quote : Option UInt8) (c : UInt8) : Option UInt8 :=
  if c = SQUOTE ∨ c = DQUOTE then
    match quote with
    | none   => some c
    | some q => if c = q then none else quote
  else quote

/-- The line behind an open quote or none: white space outside of quotes is `none`, and inside it is
a space. -/
def marked : Option UInt8 → List UInt8 → List (Option UInt8)
  | _,     []      => []
  | quote, c :: cs =>
    (if isBlank c then if quote.isSome then some SPACE else none else some c) ::
      marked (nextQuote quote c) cs

/-- Every quote of the line is closed. -/
def QuotesBalanced (line : List UInt8) : Prop := line.foldl nextQuote none = none

instance (line : List UInt8) : Decidable (QuotesBalanced line) :=
  inferInstanceAs (Decidable (_ = _))

/-- The words of a line, with their quotes. -/
def lineWords (line : List UInt8) : List (List UInt8) :=
  (Lib.words (·.isNone) (marked none line)).map (·.filterMap id)

/-- A word without the quotes around it. -/
def unquote (w : List UInt8) : List UInt8 :=
  match w with
  | []     => []
  | c :: w => if (c = SQUOTE ∨ c = DQUOTE) ∧ (c :: w).getLast? = some c then w.dropLast else c :: w

/-- What the last pass makes of a character. -/
def restore (c : UInt8) : UInt8 := if c = SHELL_ALT_SPACE then SPACE else c

/-- The arguments of a line; a `SHELL_ALT_SPACE` of the line itself becomes a space, too. -/
def commandArgs (line : List UInt8) : List (List UInt8) :=
  (lineWords line).map fun w => unquote (w.map restore)

/-- The argument is the name of a command. -/
def Known (lang : Lang) (arg : List UInt8) : Prop :=
  ∃ pcmd ∈ shellCommands lang, pcmd.cmd.map lower = some (lower arg)

instance (lang : Lang) (arg : List UInt8) : Decidable (Known lang arg) :=
  inferInstanceAs (Decidable (∃ pcmd ∈ _, _))

end Alcor.Shell
