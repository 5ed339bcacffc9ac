import Mathlib.Data.List.Basic
import Alcor.Uart.Handlers

/-!
# `Alcor.Adc.Bindings`: the ADC module of picoLisp and Lua

`src/modules/adc.c`: the channels that `adc-sample` sets up, and the
samples that `adc-getsamples` and `adc-insertsamples` take. The samples are those
that are available when `adc_wait_samples` returns, with
`adc_get_processed_sample` as the first of them, and 0 without one. Lists of
picoLisp are lists of numbers here, and a table of Lua gives a value or
nil for each index.
-/

set_option autoImplicit false

namespace Alcor.Adc.Bindings

open Alcor.Uart.Bindings (intlog2)

/-! ### Setting up channels -/

/-- What a call finds. -/
structure Board where
  /-- `platform_adc_exists`. -/
  platformAdcExists : Nat → Bool
  /-- `adc_setup_channel` of the channel, for this logarithm of the count, gives `PLATFORM_OK`. -/
  setupOk : Nat → Nat → Bool

/-- What a call does: the channels it sets up with the logarithm of the count, whether it starts the
sequence, and the error it reports. -/
structure Sampling where
  setUp : List (Nat × Nat)
  started : Bool
  error : Option String
  deriving DecidableEq

/-- The body of the loops: one channel. -/
def setupOne (b : Board) (count id : Nat) (done : List (Nat × Nat)) :
    Except Sampling (List (Nat × Nat)) :=
  if !b.platformAdcExists id then .error ⟨done, false, some s!"adc {id} does not exist"⟩
  else
    let done := done ++ [(id, intlog2 count)]
    if !b.setupOk id (intlog2 count) then .error ⟨done, false, some "sampling setup failed"⟩
    else .ok done

/-- The loop of `adc_sample` for Lua, over the elements of the table. -/
def luaSetup (b : Board) (count : Nat) : List Nat → List (Nat × Nat) → Sampling
  | [],        done => ⟨done, true, none⟩
  | id :: ids, done =>
    match setupOne b count id done with
    | .error s => s
    | .ok done => luaSetup b count ids done

/-- The loop of `plisp_adc_sample`, for a number of passes: each looks at the first element. -/
def plispSetup (b : Board) (count first : Nat) : Nat → List (Nat × Nat) → Sampling
  | 0,          done => ⟨done, true, none⟩
  | passes + 1, done =>
    match setupOne b count first done with
    | .error s => s
    | .ok done => plispSetup b count first passes done

/-- The count is one that both accept. -/
def countOk (count : Nat) : Bool := decide (¬ (count = 0 ∨ count &&& (count - 1) ≠ 0))

/-- `adc_sample` for Lua, with a table of channels. -/
def luaAdcSample (b : Board) (ids : List Nat) (count : Nat) : Sampling :=
  if !countOk count then ⟨[], false, some "count must be power of 2 and > 0"⟩
  else luaSetup b count ids []

/-- `plisp_adc_sample`, with a list of channels. NIL is not a cell. -/
def plispAdcSample (b : Board) (ids : List Nat) (count : Nat) : Sampling :=
  if !countOk count then ⟨[], false, some "count must be power of 2 and > 0"⟩
  else
    match ids with
    | []         => ⟨[], false, some "invalid channel selection"⟩
    | first :: _ => plispSetup b count first ids.length []

/-! ### Taking samples -/

/-- `adc_get_processed_sample`, of the samples that are available. -/
def adcGetProcessedSample : List Nat → Nat × List Nat
  | []      => (0, [])
  | x :: xs => (x, xs)

/-- `adc_wait_samples`, an `u16`. -/
def adcWaitSamples (avail : List Nat) : Nat := avail.length % 2 ^ 16

/-- The number of samples for a request: all of them for 0, and not more than there are. -/
def effectiveCount (count : Nat) (avail : List Nat) : Nat :=
  let bcnt := adcWaitSamples avail
  let count := count % 2 ^ 16
  let count := if count = 0 then bcnt else count
  if count > bcnt then bcnt else count

/-- The loop of `adc_getsamples` for Lua: the table from an index on, and what is left. -/
def luaTake : Nat → List Nat → List Nat × List Nat
  | 0,     avail => ([], avail)
  | n + 1, avail =>
    let (x, avail) := adcGetProcessedSample avail
    let (xs, avail) := luaTake n avail
    (x :: xs, avail)

/-- `adc_getsamples` for Lua. -/
def luaAdcGetsamples (count : Nat) (avail : List Nat) : List Nat × List Nat :=
  luaTake (effectiveCount count avail) avail

/-- The loop of `plisp_adc_getsamples`: each sample is put in front. -/
def plispTake : Nat → List Nat → List Nat → List Nat × List Nat
  | 0,     y, avail => (y, avail)
  | n + 1, y, avail =>
    let (x, avail) := adcGetProcessedSample avail
    plispTake n (x :: y) avail

/-- `plisp_adc_getsamples`. The loop runs from 1 while it is below `count - 1`, without a sign. -/
def plispAdcGetsamples (count : Nat) (avail : List Nat) : List Nat × List Nat :=
  let count := effectiveCount count avail
  let (x, avail) := adcGetProcessedSample avail
  plispTake ((count + 2 ^ 32 - 1) % 2 ^ 32 - 1) [x] avail

/-! ### Inserting samples -/

/-- The loop of `ins_element`, from an index down to 1. -/
def insLoop (tab : List Nat) : Nat → List Nat → List Nat
  | 0,     temp => temp
  -- `car( nth( i + 1, tab ) )`; NIL behind the list stays out of reach
  | i + 1, temp => insLoop tab i ((tab.drop i).headD 0 :: temp)

/-- `ins_element`. -/
def insElement (list : List Nat) (pos value : Nat) : List Nat :=
  insLoop list (pos - 1) (value :: list.drop (pos - 1))

/-- The loop of `plisp_adc_insertsamples`, `n` more times. -/
def plispInsert : Nat → Nat → List Nat → List Nat → List Nat
  | 0,     _, tab, _     => tab
  | n + 1, i, tab, avail =>
    let (x, avail) := adcGetProcessedSample avail
    plispInsert n (i + 1) (insElement tab i x) avail

/-- `plisp_adc_insertsamples`. -/
def plispAdcInsertsamples (tab : List Nat) (startidx count : Nat) (avail : List Nat) :
    Except String (List Nat) :=
  let count := count % 2 ^ 16
  if startidx = 0 then .error "idx must be > 0"
  else if count = 0 then .error "count must be > 0"
  else .ok (plispInsert count startidx tab avail)

/-- A table. -/
abbrev Table := Nat → Option Nat

/-- The table with the elements of a list. -/
def tableOf (l : List Nat) : Table
  | 0     => none
  | i + 1 => l[i]?

/-- The loop of `adc_insertsamples` for Lua, `n` more times. -/
def luaInsert (bcnt startidx : Nat) : Nat → Nat → Table → List Nat → Table
  | 0,     _, t, _     => t
  | n + 1, i, t, avail =>
    if i < bcnt + startidx then
      let (x, avail) := adcGetProcessedSample avail
      luaInsert bcnt startidx n (i + 1) (Function.update t i (some x)) avail
    else luaInsert bcnt startidx n (i + 1) (Function.update t i none) avail

/-- `adc_insertsamples` for Lua. -/
def luaAdcInsertsamples (t : Table) (startidx count : Nat) (avail : List Nat) :
    Except String Table :=
  let count := count % 2 ^ 16
  if startidx = 0 then .error "idx must be > 0"
  else if count = 0 then .error "count must be > 0"
  else .ok (luaInsert (adcWaitSamples avail) startidx count startidx t avail)

/-! ### Both languages -/

/-- A call in both languages. An insertion starts within or just past the list. -/
inductive Call where
  | sample (b : Board) (ids : List Nat) (count : Nat)
  | getsamples (count : Nat) (avail : List Nat)
  | insertsamples (tab : List Nat) (offset : Fin (tab.length + 1)) (count : Nat) (avail : List Nat)

/-- The same channels are set up; the same samples are returned and left; and the list is the one in
the table. -/
def Call.AsLua : Call → Prop
  | .sample b ids count                   =>
    (plispAdcSample b ids count).setUp = (luaAdcSample b ids count).setUp
  | .getsamples count avail               =>
    plispAdcGetsamples count avail = luaAdcGetsamples count avail
  | .insertsamples tab offset count avail =>
    (plispAdcInsertsamples tab (offset + 1) count avail).map tableOf =
      luaAdcInsertsamples (tableOf tab) (offset + 1) count avail

/-- The condition. All channels are the first, or it is refused; there is one sample to take; or as
many as are asked for are there, and are put behind the list. -/
def Call.Right : Call → Prop
  | .sample b ids count                   =>
    countOk count = false ∨ (∀ first ∈ ids.head?,
      b.platformAdcExists first = false ∨ b.setupOk first (intlog2 count) = false ∨
        ∀ id ∈ ids, id = first)
  | .getsamples count avail               =>
    adcWaitSamples avail = 1 ∨ (count % 2 ^ 16 = 1 ∧ 1 ≤ adcWaitSamples avail)
  | .insertsamples tab offset count avail =>
    count % 2 ^ 16 = 0 ∨ (offset = tab.length ∧ count % 2 ^ 16 ≤ adcWaitSamples avail)

end Alcor.Adc.Bindings
