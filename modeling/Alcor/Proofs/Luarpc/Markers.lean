import Alcor.Proofs.Luarpc.RoundTrip

/-!
# `Alcor.Proofs.Luarpc.Markers`: which bytes the reader is safe on

`scanVariable` reads values without a stack, only with its height: a
marker has its place at the end of a table or of a function, and nowhere
else, and a value has a slot. The reader does what it says as long as
nothing is out of place, and breaks its contract as soon as something is.

* `enough`: no more passes are ever made than there are bytes for.
* `follows`: the reader does what was scanned, by one induction for
  values, tables and functions.
* `Matches.robust_iff`: a reader is robust where nothing is misplaced. A
  table may end with either marker; a function must be one string, a key
  must not be `nil` or a NaN, what is referred to must be there, and a
  string must be shorter than `2 ^ 31` bytes.
* `deserialiser_iff` is about one call and about the arguments of a
  command.
-/

set_option autoImplicit false

namespace Alcor.Proofs.Luarpc

open Alcor.Luarpc

variable {n : Nat} {bs : List UInt8} {N : Type}

/-! ### Reading without a stack -/

/-- What stands at the start of some bytes. -/
inductive Scan (N : Type) where
  /-- The bytes end, or a tag is unknown. -/
  | stops
  /-- Something is out of place. -/
  | misplaced
  | value (v : Value N) (rest : List UInt8)
  | marker (rest : List UInt8)

section Scan
variable {T : NumberType} (tpt : Transport) (lua : LuaState T.Carrier)

/-- A value that has a slot above so many others. -/
def scanned (height : Nat) (v : Value T.Carrier) (bs : List UInt8) : Scan T.Carrier :=
  if height < lua.slots bs.length then .value v bs else .misplaced

/-- What a path refers to. -/
def scanIndex (height : Nat) (bs : List UInt8) : Scan T.Carrier :=
  match readString tpt bs with
  | none                   => .misplaced
  | some none              => .stops
  | some (some (path, bs)) =>
    if tokens path = [] ∨ lua.slots bs.length < height + indexSlots (tokens path) then .misplaced
    else
      match lua.fields (tokens path) with
      | none   => .misplaced
      | some v => .value v bs

mutual

/-- A value or a marker, above so many other values. -/
def scanVariable : Nat → Nat → List UInt8 → Scan T.Carrier
  | 0,     _,      _  => .misplaced
  | n + 1, height, bs =>
    match bs with
    | []        => .stops
    | tag :: bs =>
      if tag = RPC_NIL then scanned lua height .nil bs
      else if tag = RPC_BOOLEAN then
        match bs with
        | []      => .stops
        | b :: bs => scanned lua height (.boolean (b != 0)) bs
      else if tag = RPC_NUMBER then
        match transportReadNumber tpt T bs with
        | none                => .misplaced
        | some none           => .stops
        | some (some (x, bs)) => scanned lua height (.number x) bs
      else if tag = RPC_STRING then
        match readString tpt bs with
        | none                => .misplaced
        | some none           => .stops
        | some (some (s, bs)) => scanned lua height (.string s) bs
      else if tag = RPC_TABLE then
        if height < lua.slots bs.length then scanTable n height .done bs else .misplaced
      else if tag = RPC_TABLE_END then .marker bs
      else if tag = RPC_FUNCTION then scanFunction n height [] bs
      else if tag = RPC_FUNCTION_END then .marker bs
      else if tag = RPC_REMOTE then scanIndex tpt lua height bs
      else .stops

/-- Entries up to a marker; the table stands above so many other values. -/
def scanTable : Nat → Nat → Entries T.Carrier → List UInt8 → Scan T.Carrier
  | 0,     _,      _,   _  => .misplaced
  | n + 1, height, acc, bs =>
    match scanVariable n (height + 1) bs with
    | .marker bs    => .value (.table acc) bs
    | .value key bs =>
      match scanVariable n (height + 2) bs with
      | .marker _       => .misplaced
      | .value value bs =>
        if isKey lua.numEq key then scanTable n height (acc.set lua.numEq key value) bs
        else .misplaced
      | out             => out
    | out           => out

/-- One string up to a marker, above so many other values. -/
def scanFunction : Nat → Nat → List (Value T.Carrier) → List UInt8 → Scan T.Carrier
  | 0,     _,      _,    _  => .misplaced
  | n + 1, height, done, bs =>
    match scanVariable n (height + done.length) bs with
    | .marker bs  =>
      match done with
      | [v] => .value v bs
      | _   => .misplaced
    | .value v bs =>
      match checkString lua v with
      | none   => .misplaced
      | some s =>
        if lua.canLoad bs (height + done.length) then
          scanFunction n height (lua.loadbuffer s :: done) bs
        else .misplaced
    | out         => out

end

/-- What stands at the start of the bytes. -/
def scan (height : Nat) (bs : List UInt8) : Scan T.Carrier :=
  scanVariable tpt lua (2 * bs.length + 2) height bs

end Scan

/-! ### Enough passes -/

section Enough
variable {T : NumberType} {tpt : Transport} {lua : LuaState T.Carrier}

/-- The bytes that are left of so many. -/
def Scan.Within {N : Type} (n : Nat) : Scan N → Prop
  | .value _ rest | .marker rest => rest.length < n
  | _                            => True

theorem readString_shorter {rest s : List UInt8} (h : readString tpt bs = some (some (s, rest))) :
    rest.length ≤ bs.length := by
  rw [readString, transportReadU32] at h
  by_cases hfour : bs.length < 4
  · rw [if_pos hfour] at h
    cases h
  · rw [if_neg hfour] at h
    dsimp only at h
    split at h
    · cases h
    split at h
    · cases h
    cases h
    simp only [List.length_drop]
    omega

theorem readNumber_shorter {rest : List UInt8} {x : T.Carrier}
    (h : transportReadNumber tpt T bs = some (some (x, rest))) : rest.length ≤ bs.length := by
  rw [transportReadNumber] at h
  dsimp only at h
  repeat' split at h
  all_goals cases h
  all_goals
    rw [List.length_drop]
    omega

theorem scanned_within (height : Nat) (v : Value T.Carrier) (bs : List UInt8) :
    (scanned lua height v bs).Within (bs.length + 1) := by
  rw [scanned]
  split
  · exact Nat.lt_succ_self _
  · trivial

theorem scanIndex_shorter (height : Nat) (bs : List UInt8) :
    (scanIndex tpt lua height bs).Within (bs.length + 1) := by
  rw [scanIndex]
  rcases h : readString tpt bs with _ | _ | ⟨path, rest⟩
  · trivial
  · trivial
  · by_cases hpath : tokens path = [] ∨
        lua.slots rest.length < height + indexSlots (tokens path)
    · simp only [if_pos hpath]
      trivial
    · simp only [if_neg hpath]
      cases lua.fields (tokens path) with
      | none => trivial
      | some v => exact Nat.lt_succ_of_le (readString_shorter h)

/-- With so many passes one more changes nothing, and a byte is read. -/
def Enough (tpt : Transport) (lua : LuaState T.Carrier) (n : Nat) : Prop :=
  (∀ height bs, 2 * bs.length + 2 ≤ n →
    scanVariable tpt lua (n + 1) height bs = scanVariable tpt lua n height bs ∧
      (scanVariable tpt lua n height bs).Within bs.length) ∧
  (∀ height acc bs, 2 * bs.length + 3 ≤ n →
    scanTable tpt lua (n + 1) height acc bs = scanTable tpt lua n height acc bs ∧
      (scanTable tpt lua n height acc bs).Within bs.length) ∧
  (∀ height done bs, 2 * bs.length + 3 ≤ n →
    scanFunction tpt lua (n + 1) height done bs = scanFunction tpt lua n height done bs ∧
      (scanFunction tpt lua n height done bs).Within bs.length)

theorem Scan.Within.mono {m : Nat} {s : Scan N} (h : s.Within n) (hnm : n ≤ m) : s.Within m := by
  cases s with
  | stops => trivial
  | misplaced => trivial
  | value v rest => exact Nat.lt_of_lt_of_le h hnm
  | marker rest => exact Nat.lt_of_lt_of_le h hnm

/-- One pass more does not change what is scanned of a value, if it
did not of what is inside. -/
theorem enough_variable (h : Enough tpt lua n) (height : Nat) (bs : List UInt8)
    (hbs : 2 * bs.length + 2 ≤ n + 1) :
    scanVariable tpt lua (n + 2) height bs = scanVariable tpt lua (n + 1) height bs ∧
      (scanVariable tpt lua (n + 1) height bs).Within bs.length := by
  obtain ⟨-, htable, hfunction⟩ := h
  rw [scanVariable.eq_def tpt lua (n + 2), scanVariable.eq_def tpt lua (n + 1)]
  simp only
  cases bs with
  | nil => exact ⟨rfl, trivial⟩
  | cons tag bs =>
    rw [List.length_cons] at hbs
    have htable := htable height .done bs (by omega)
    have hfunction := hfunction height [] bs (by omega)
    dsimp only
    rw [htable.1, hfunction.1]
    refine ⟨rfl, ?_⟩
    simp only [List.length_cons]
    split
    · exact scanned_within ..
    split
    · cases bs with
      | nil => trivial
      | cons b bs => exact (scanned_within ..).mono (Nat.le_succ _)
    split
    · rcases hx : transportReadNumber tpt T bs with _ | _ | ⟨x, rest⟩
      · trivial
      · trivial
      · exact (scanned_within ..).mono (Nat.succ_le_succ (readNumber_shorter hx))
    split
    · rcases hs : readString tpt bs with _ | _ | ⟨s, rest⟩
      · trivial
      · trivial
      · exact (scanned_within ..).mono (Nat.succ_le_succ (readString_shorter hs))
    split
    · split
      · exact htable.2.mono (Nat.le_succ _)
      · trivial
    split
    · exact Nat.lt_succ_self _
    split
    · exact hfunction.2.mono (Nat.le_succ _)
    split
    · exact Nat.lt_succ_self _
    split
    · exact scanIndex_shorter height bs
    · trivial

/-- Nor what is scanned of a table. -/
theorem enough_table (h : Enough tpt lua n) (height : Nat) (acc : Entries T.Carrier)
    (bs : List UInt8) (hbs : 2 * bs.length + 3 ≤ n + 1) :
    scanTable tpt lua (n + 2) height acc bs = scanTable tpt lua (n + 1) height acc bs ∧
      (scanTable tpt lua (n + 1) height acc bs).Within bs.length := by
  obtain ⟨hvariable, htable, -⟩ := h
  rw [scanTable.eq_def tpt lua (n + 2), scanTable.eq_def tpt lua (n + 1)]
  simp only
  obtain ⟨hsame, hwithin⟩ := hvariable (height + 1) bs (by omega)
  rw [hsame]
  generalize scanVariable tpt lua n (height + 1) bs = s at hwithin
  cases s with
  | stops => exact ⟨rfl, trivial⟩
  | misplaced => exact ⟨rfl, trivial⟩
  | marker rest => exact ⟨rfl, hwithin⟩
  | value key rest =>
    have hkey : rest.length < bs.length := hwithin
    obtain ⟨hsame, hwithin⟩ := hvariable (height + 2) rest (by omega)
    simp only
    rw [hsame]
    generalize scanVariable tpt lua n (height + 2) rest = s at hwithin
    cases s with
    | stops => exact ⟨rfl, trivial⟩
    | misplaced => exact ⟨rfl, trivial⟩
    | marker rest' => exact ⟨rfl, trivial⟩
    | value value rest' =>
      have hvalue : rest'.length < rest.length := hwithin
      simp only
      obtain ⟨hsame, hwithin⟩ := htable height (acc.set lua.numEq key value) rest' (by omega)
      cases isKey lua.numEq key with
      | false => exact ⟨rfl, trivial⟩
      | true => exact ⟨hsame, hwithin.mono (by omega)⟩

/-- Nor what is scanned of a function. -/
theorem enough_function (h : Enough tpt lua n) (height : Nat) (done : List (Value T.Carrier))
    (bs : List UInt8) (hbs : 2 * bs.length + 3 ≤ n + 1) :
    scanFunction tpt lua (n + 2) height done bs = scanFunction tpt lua (n + 1) height done bs ∧
      (scanFunction tpt lua (n + 1) height done bs).Within bs.length := by
  obtain ⟨hvariable, -, hfunction⟩ := h
  rw [scanFunction.eq_def tpt lua (n + 2), scanFunction.eq_def tpt lua (n + 1)]
  simp only
  obtain ⟨hsame, hwithin⟩ := hvariable (height + done.length) bs (by omega)
  rw [hsame]
  generalize scanVariable tpt lua n (height + done.length) bs = s at hwithin
  cases s with
  | stops => exact ⟨rfl, trivial⟩
  | misplaced => exact ⟨rfl, trivial⟩
  | marker rest =>
    match done with
    | []          => exact ⟨rfl, trivial⟩
    | [v]         => exact ⟨rfl, hwithin⟩
    | v :: w :: d => exact ⟨rfl, trivial⟩
  | value v rest =>
    have hvalue : rest.length < bs.length := hwithin
    simp only
    cases checkString lua v with
    | none => exact ⟨rfl, trivial⟩
    | some s =>
      obtain ⟨hsame, hwithin⟩ :=
        hfunction height (lua.loadbuffer s :: done) rest (by omega)
      by_cases hcan : lua.canLoad rest (height + done.length)
      · simp only [if_pos hcan]
        exact ⟨hsame, hwithin.mono (by omega)⟩
      · simp only [if_neg hcan]
        exact ⟨trivial, trivial⟩

/-- The passes are enough: no more of them are ever made than there are bytes for. -/
theorem enough (n : Nat) : Enough tpt lua n := by
  induction n with
  | zero =>
    refine ⟨fun height bs h => ?_, fun height acc bs h => ?_, fun height done bs h => ?_⟩
    · omega
    · omega
    · omega
  | succ n ih => exact ⟨enough_variable ih, enough_table ih, enough_function ih⟩

/-- Any number of passes from there on reads the same. -/
theorem scanVariable_eq_scan (height : Nat) (bs : List UInt8) (more : Nat) :
    scanVariable tpt lua (2 * bs.length + 2 + more) height bs = scan tpt lua height bs := by
  induction more with
  | zero => rfl
  | succ more ih => rw [← Nat.add_assoc, ((enough _).1 height bs (by omega)).1, ih]

end Enough

/-! ### The reader follows -/

/-- A call of the reader does what was scanned. -/
inductive Matches {N : Type} (stack : List (Value N)) : Scan N → Outcome N → Prop where
  | stops : Matches stack .stops .threw
  | broken : Matches stack .misplaced .broken
  | raised : Matches stack .misplaced .raised
  | value (v : Value N) (bs : List UInt8) : Matches stack (.value v bs) (.ok true bs (v :: stack))
  | marker (bs : List UInt8) : Matches stack (.marker bs) (.ok false bs stack)

section Follows
variable {T : NumberType} {tpt : Transport} {lua : LuaState T.Carrier}
variable {stack : List (Value T.Carrier)}

theorem Matches.checked {stack : List (Value N)} {s : Scan N} {out : Outcome N}
    (h : Matches stack s out) : Matches stack s (out.checked stack) := by
  cases h with
  | stops => exact .stops
  | broken => exact .broken
  | raised => exact .raised
  | value v bs =>
    rw [Outcome.checked, if_pos (by rfl)]
    exact .value v bs
  | marker bs =>
    rw [Outcome.checked, if_pos (by rfl)]
    exact .marker bs

theorem matches_pushed (v : Value T.Carrier) (bs : List UInt8) (stack : List (Value T.Carrier)) :
    Matches stack (scanned lua stack.length v bs) (push lua bs v stack) := by
  rw [scanned, push]
  split
  · exact .value v bs
  · exact .broken

theorem matches_index (bs : List UInt8) (stack : List (Value T.Carrier)) :
    Matches stack (scanIndex tpt lua stack.length bs) (readIndex tpt lua bs stack) := by
  rw [scanIndex, readIndex]
  rcases readString tpt bs with _ | _ | ⟨path, bs⟩
  · exact .broken
  · exact .stops
  · by_cases hpath : tokens path = [] ∨
        lua.slots bs.length < stack.length + indexSlots (tokens path)
    · simp only [if_pos hpath]
      exact .broken
    · simp only [if_neg hpath]
      cases lua.fields (tokens path) with
      | none => exact .raised
      | some v => exact .value _ _

/-- A key and a value on a table. -/
theorem rawset_entry {key value : Value T.Carrier} {entries : Entries T.Carrier} :
    rawset lua.numEq (stack.length + 1) (value :: key :: .table entries :: stack) =
      if isKey lua.numEq key then
        some (some (.table (entries.set lua.numEq key value) :: stack))
      else some none := by
  rw [rawset, if_neg (by rw [List.length_cons]; omega)]
  cases isKey lua.numEq key <;> simp

/-- A key without a value on a table. -/
theorem rawset_missing {key : Value T.Carrier} {table : Value T.Carrier} :
    rawset lua.numEq (stack.length + 1) (key :: table :: stack) = none := by
  rw [rawset, if_pos (Nat.lt_succ_self _)]

/-- The value on top is loaded. -/
theorem loadTop_value {v : Value T.Carrier} {done : List (Value T.Carrier)} :
    loadTop lua stack.length bs (v :: (done ++ stack)) =
      match checkString lua v with
      | none   => some none
      | some s =>
        if lua.canLoad bs (stack.length + done.length) then
          some (some (lua.loadbuffer s :: (done ++ stack)))
        else none := by
  have hlength : (done ++ stack).length = stack.length + done.length := by
    rw [List.length_append, Nat.add_comm]
  have habove : ¬stack.length + done.length < stack.length := by omega
  cases hstring : checkString lua v with
  | none   => simp only [loadTop, hlength, if_neg habove, hstring]
  | some s => simp only [loadTop, hlength, if_neg habove, hstring]

/-- Values, tables and functions, for so many calls and passes inside of each other. -/
def Follows (tpt : Transport) (lua : LuaState T.Carrier) (n : Nat) : Prop :=
  (∀ bs stack, Matches stack (scanVariable tpt lua n stack.length bs)
    (readVariable tpt lua n bs stack)) ∧
  (∀ acc bs stack, Matches stack (scanTable tpt lua n stack.length acc bs)
    (readTable tpt lua n (stack.length + 1) bs (.table acc :: stack))) ∧
  (∀ done bs stack, Matches stack (scanFunction tpt lua n stack.length done bs)
    (Outcome.checked stack (readFunction tpt lua n stack.length bs (done ++ stack))))

/-- A value, from the tables and functions inside. -/
theorem follows_variable (h : Follows tpt lua n) (bs : List UInt8)
    (stack : List (Value T.Carrier)) :
    Matches stack (scanVariable tpt lua (n + 1) stack.length bs)
      (readVariable tpt lua (n + 1) bs stack) := by
  obtain ⟨-, htable, hfunction⟩ := h
  rw [scanVariable.eq_def, readVariable.eq_def]
  simp only
  cases bs with
  | nil => exact Matches.stops.checked
  | cons tag bs =>
    simp only
    split
    · exact (matches_pushed _ _ _).checked
    split
    · cases bs with
      | nil => exact Matches.stops.checked
      | cons b bs => exact (matches_pushed _ _ _).checked
    split
    · rcases transportReadNumber tpt T bs with _ | _ | ⟨x, bs⟩
      · exact Matches.broken.checked
      · exact Matches.stops.checked
      · exact (matches_pushed _ _ _).checked
    split
    · rcases readString tpt bs with _ | _ | ⟨s, bs⟩
      · exact Matches.broken.checked
      · exact Matches.stops.checked
      · exact (matches_pushed _ _ _).checked
    split
    · split
      · exact (htable .done bs stack).checked
      · exact Matches.broken.checked
    split
    · exact (Matches.marker _).checked
    split
    · exact hfunction [] bs stack
    split
    · exact (Matches.marker _).checked
    split
    · exact (matches_index bs stack).checked
    · exact Matches.stops.checked

/-- The entries of a table, from the values inside. -/
theorem follows_table (h : Follows tpt lua n) (acc : Entries T.Carrier) (bs : List UInt8)
    (stack : List (Value T.Carrier)) :
    Matches stack (scanTable tpt lua (n + 1) stack.length acc bs)
      (readTable tpt lua (n + 1) (stack.length + 1) bs (.table acc :: stack)) := by
  obtain ⟨hvariable, htable, -⟩ := h
  rw [scanTable.eq_def, readTable.eq_def]
  simp only
  generalize hs : scanVariable tpt lua n (stack.length + 1) bs = s
  generalize ho : readVariable tpt lua n bs (.table acc :: stack) = out
  have hkey := hvariable bs (.table acc :: stack)
  rw [List.length_cons, hs, ho] at hkey
  cases hkey with
  | stops => exact .stops
  | broken => exact .broken
  | raised => exact .raised
  | marker bs => exact .value _ _
  | value key bs =>
    simp only
    generalize hs' : scanVariable tpt lua n (stack.length + 2) bs = s
    generalize ho' : readVariable tpt lua n bs (key :: .table acc :: stack) = out
    have hvalue := hvariable bs (key :: .table acc :: stack)
    rw [List.length_cons, List.length_cons, hs', ho'] at hvalue
    cases hvalue with
    | stops => exact .stops
    | broken => exact .broken
    | raised => exact .raised
    | marker bs =>
      -- the table takes the place of a key, and what is below it that of the table
      simp only
      rw [rawset_missing]
      exact .broken
    | value value bs =>
      simp only
      rw [rawset_entry]
      cases isKey lua.numEq key with
      | false => exact .raised
      | true => exact htable _ bs stack

/-- The body of a function, from the values inside. -/
theorem follows_function (h : Follows tpt lua n) (done : List (Value T.Carrier))
    (bs : List UInt8) (stack : List (Value T.Carrier)) :
    Matches stack (scanFunction tpt lua (n + 1) stack.length done bs)
      (Outcome.checked stack
        (readFunction tpt lua (n + 1) stack.length bs (done ++ stack))) := by
  obtain ⟨hvariable, -, hfunction⟩ := h
  rw [scanFunction.eq_def, readFunction.eq_def]
  simp only
  generalize hs : scanVariable tpt lua n (stack.length + done.length) bs = s
  generalize ho : readVariable tpt lua n bs (done ++ stack) = out
  have hbody := hvariable bs (done ++ stack)
  rw [List.length_append, Nat.add_comm, hs, ho] at hbody
  cases hbody with
  | stops => exact .stops
  | broken => exact .broken
  | raised => exact .raised
  | marker bs =>
    simp only
    -- as many functions are left as strings were read
    rcases done with _ | ⟨v, _ | ⟨w, d⟩⟩
    · rw [Outcome.checked, if_neg (by simp)]
      exact .broken
    · exact (Matches.value v bs).checked
    · rw [Outcome.checked, if_neg (by simp; omega)]
      exact .broken
  | value v bs =>
    simp only
    rw [loadTop_value]
    cases checkString lua v with
    | none => exact .raised
    | some s =>
      by_cases hcan : lua.canLoad bs (stack.length + done.length)
      · simp only [if_pos hcan]
        exact hfunction (lua.loadbuffer s :: done) bs stack
      · simp only [if_neg hcan]
        exact .broken

/-- The reader does what was scanned. -/
theorem follows (n : Nat) : Follows tpt lua n := by
  induction n with
  | zero =>
    refine ⟨fun bs stack => ?_, fun acc bs stack => ?_, fun done bs stack => ?_⟩
    · exact .broken
    · exact .broken
    · exact .broken
  | succ n ih => exact ⟨follows_variable ih, follows_table ih, follows_function ih⟩

/-! ### What the reader promises -/

/-- An exception, one more value and a result of 1, or nothing more and a result of 0. -/
def Robust {N : Type} (stack : List (Value N)) (out : Outcome N) : Prop :=
  out = .threw ∨ (∃ v rest, out = .ok true rest (v :: stack)) ∨ ∃ rest, out = .ok false rest stack

/-- An exception, or as many values as there are arguments. -/
def RobustArguments {N : Type} (n : Nat) (stack : List (Value N)) (out : Outcome N) : Prop :=
  out = .threw ∨ ∃ vs rest, vs.length = n ∧ out = .ok true rest (vs ++ stack)

/-- Nothing is out of place, above so many other values. -/
def WellPlaced (tpt : Transport) (lua : LuaState T.Carrier) (height : Nat) (bs : List UInt8) :
    Prop :=
  scan tpt lua height bs ≠ .misplaced

/-- Nothing is out of place in so many arguments, and no marker is one of them. -/
def ArgumentsPlaced (tpt : Transport) (lua : LuaState T.Carrier) :
    Nat → Bool → Nat → List UInt8 → Prop
  | 0,     missing, _,      _  => missing = false
  | n + 1, missing, height, bs =>
    match scan tpt lua height bs with
    | .stops      => True
    | .misplaced  => False
    | .value _ bs => ArgumentsPlaced tpt lua n missing (height + 1) bs
    | .marker bs  => ArgumentsPlaced tpt lua n true height bs

variable (tpt lua) in
theorem matches_scan (bs : List UInt8) (stack : List (Value T.Carrier)) :
    Matches stack (scan tpt lua stack.length bs) (readVariableAll tpt lua bs stack) :=
  (follows _).1 bs stack

/-- A reader is robust where nothing is misplaced. -/
theorem Matches.robust_iff {stack : List (Value N)} {s : Scan N} {out : Outcome N}
    (h : Matches stack s out) : Robust stack out ↔ s ≠ .misplaced := by
  cases h with
  | stops => exact ⟨fun _ => nofun, fun _ => .inl rfl⟩
  | broken => exact ⟨(by rintro (h | ⟨v, rest, h⟩ | ⟨rest, h⟩) <;> cases h), fun h => absurd rfl h⟩
  | raised => exact ⟨(by rintro (h | ⟨v, rest, h⟩ | ⟨rest, h⟩) <;> cases h), fun h => absurd rfl h⟩
  | value v bs => exact ⟨fun _ => nofun, fun _ => .inr (.inl ⟨v, bs, rfl⟩)⟩
  | marker bs => exact ⟨fun _ => nofun, fun _ => .inr (.inr ⟨bs, rfl⟩)⟩

variable (tpt lua) in
/-- The arguments, above those that were read: `done` values for `count` of them. -/
theorem arguments_iff (stack : List (Value T.Carrier)) (n : Nat) :
    ∀ (count : Nat) (bs : List UInt8) (done : List (Value T.Carrier)), done.length ≤ count →
      (RobustArguments (count + n) stack (readArguments tpt lua n bs (done ++ stack)) ↔
        ArgumentsPlaced tpt lua n (decide (done.length ≠ count)) (done ++ stack).length bs) := by
  induction n with
  | zero =>
    intro count bs done hdone
    rw [readArguments, ArgumentsPlaced, decide_eq_false_iff_not, not_not]
    constructor
    · rintro (h | ⟨vs, rest, hvs, h⟩)
      · cases h
      · injection h with _ _ h
        rw [List.append_cancel_right h]
        exact hvs
    · exact fun h => .inr ⟨done, bs, h, rfl⟩
  | succ n ih =>
    intro count bs done hdone
    rw [readArguments, ArgumentsPlaced]
    generalize hs : scan tpt lua (done ++ stack).length bs = s
    generalize ho : readVariableAll tpt lua bs (done ++ stack) = out
    have hread := matches_scan tpt lua bs (done ++ stack)
    rw [hs, ho] at hread
    cases hread with
    | stops => exact ⟨fun _ => trivial, fun _ => .inl rfl⟩
    | broken => exact ⟨(by rintro (h | ⟨vs, rest, -, h⟩) <;> cases h), False.elim⟩
    | raised => exact ⟨(by rintro (h | ⟨vs, rest, -, h⟩) <;> cases h), False.elim⟩
    | value v bs =>
      have hmissing : decide ((v :: done).length ≠ count + 1) =
          decide (done.length ≠ count) := by
        rw [List.length_cons]
        exact decide_eq_decide.mpr (by omega)
      have h := ih (count + 1) bs (v :: done) (by rw [List.length_cons]; omega)
      rw [hmissing, Nat.add_right_comm] at h
      exact h
    | marker bs =>
      -- one is missing from here on
      have hmissing : decide (done.length ≠ count + 1) = true := decide_eq_true (by omega)
      have h := ih (count + 1) bs done (by omega)
      rw [hmissing, Nat.add_right_comm] at h
      exact h

/-- **Bytes from the peer**: a call is robust where nothing is out of
place, and so is a list of arguments. What is out of place is found by
a scan of the bytes alone, which goes along with the reader
(`matches_scan`). -/
theorem deserialiser_iff (T : NumberType) (tpt : Transport) (lua : LuaState T.Carrier)
    (stack : List (Value T.Carrier)) (bs : List UInt8) :
    (Robust stack (readVariableAll tpt lua bs stack) ↔ WellPlaced tpt lua stack.length bs) ∧
    ∀ n, RobustArguments n stack (readArguments tpt lua n bs stack) ↔
      ArgumentsPlaced tpt lua n false stack.length bs := by
  constructor
  · exact (matches_scan tpt lua bs stack).robust_iff
  · intro n
    have h := arguments_iff tpt lua stack n 0 bs [] le_rfl
    rwa [Nat.zero_add] at h

/-- `{ [ true ] = ` and the end of the table. -/
theorem value_missing :
    ¬ (∀ (T : NumberType) (tpt : Transport) (lua : LuaState T.Carrier)
      (stack : List (Value T.Carrier)) (bs : List UInt8),
      Robust stack (readVariableAll tpt lua bs stack) ∧
        ∀ n, RobustArguments n stack (readArguments tpt lua n bs stack)) := by
  intro h
  have hread : readVariableAll intTransport plainLua [4, 2, 1, 5] [] = .broken := rfl
  have hrobust := (h (intType 4) intTransport plainLua [] [4, 2, 1, 5]).1
  rw [hread] at hrobust
  rcases hrobust with h | ⟨v, rest, h⟩ | ⟨rest, h⟩
  · cases h
  · cases h
  · cases h

end Follows

end Alcor.Proofs.Luarpc
