import Alcor.Lua.Rotable

/-!
# `Alcor.Proofs.Lua.Rotable`: when a rotable is a table

* `auxfind_of_asks` and `findentry_of_mem`: a key is found where it is.
* `getcstr_of_ge`: a name of the maximum length becomes the empty string
  and is not found by its own value; `short_of_iterates` says that every
  iteration ends there or goes elsewhere.
* `next_of_found` and `next_outside`: what `luaR_next` does behind a key.
  A key that is not found leaves the position to what was in memory.
* `behaves_iff` is the result: a rotable behaves as a table, with a given
  key, exactly if its names are shorter than the maximum and the key is
  known.
-/

set_option autoImplicit false

namespace Alcor.Proofs.Lua

open Lib (CStr)
open Alcor.Lua

variable {strkey : Option CStr} {numkey : BitVec 32} {k : Nat}

section Find
variable {V : Type}

/-- What `luaR_findentry` is asked for. -/
def Asks (strkey : Option CStr) (numkey : BitVec 32) : RoKey → Prop
  | .strkey s => strkey = some s
  | .numkey n => strkey = none ∧ numkey = n

/-- The search looks at an entry: it is the one, or the search goes on
behind it. -/
theorem auxfind_cons (strkey : Option CStr) (numkey : BitVec 32) (e : RoKey × V)
    (rest : List (RoKey × V)) (i : Nat) :
    (Asks strkey numkey e.1 ∧ luaRAuxfind strkey numkey (e :: rest) i = some (e.2, i)) ∨
      (¬ Asks strkey numkey e.1 ∧ luaRAuxfind strkey numkey (e :: rest) i =
        luaRAuxfind strkey numkey rest (i + 1)) := by
  obtain ⟨key, value⟩ := e
  cases strkey with
  | none =>
    cases key with
    -- a number is asked for
    | strkey k => exact .inr ⟨fun h => (by cases h), rfl⟩
    | numkey n =>
      by_cases h : n = numkey
      · exact .inl ⟨⟨rfl, h.symm⟩, by simp [luaRAuxfind, h]⟩
      · exact .inr ⟨fun hasks => h hasks.2.symm, by simp [luaRAuxfind, h]⟩
  | some s =>
    cases key with
    | strkey k =>
      by_cases h : k.bytes = s.bytes
      · have hsame : s = k := by
          obtain ⟨bytes, hbytes⟩ := k
          obtain ⟨bytes', hbytes'⟩ := s
          cases h
          rfl
        exact .inl ⟨congrArg some hsame, by simp [luaRAuxfind, h]⟩
      · refine .inr ⟨fun hasks => h ?_, by simp [luaRAuxfind, h]⟩
        rw [Option.some.inj hasks]
    | numkey n => exact .inr ⟨fun h => (by cases h.1), rfl⟩

/-- A key is asked for by one question only. -/
theorem asks_unique {key key' : RoKey} (h : Asks strkey numkey key)
    (h' : Asks strkey numkey key') : key = key' := by
  cases key with
  | strkey s =>
    cases key' with
    | strkey s' => exact congrArg RoKey.strkey (Option.some.inj (h.symm.trans h'))
    | numkey n => exact absurd (h.symm.trans h'.1) (by simp)
  | numkey n =>
    cases key' with
    | strkey s => exact absurd (h'.symm.trans h.1) (by simp)
    | numkey n' => exact congrArg RoKey.numkey (h.2.symm.trans h'.2)

theorem auxfind_of_not_asks (entries : List (RoKey × V)) :
    ∀ i, (∀ e ∈ entries, ¬ Asks strkey numkey e.1) →
      luaRAuxfind strkey numkey entries i = none := by
  induction entries with
  | nil => exact fun _ _ => rfl
  | cons e rest ih =>
    intro i h
    rcases auxfind_cons strkey numkey e rest i with ⟨hasks, -⟩ | ⟨-, hrest⟩
    · exact absurd hasks (h e List.mem_cons_self)
    · rw [hrest]
      exact ih _ fun e' he' => h e' (List.mem_cons_of_mem _ he')

/-- With distinct keys the entry of a key is the one that is found. -/
theorem auxfind_of_asks (entries : List (RoKey × V)) :
    ∀ i, entries.Pairwise (fun a b => a.1 ≠ b.1) → ∀ k e, entries[k]? = some e →
      Asks strkey numkey e.1 → luaRAuxfind strkey numkey entries i = some (e.2, i + k) := by
  induction entries with
  | nil => exact fun _ _ k e h => by cases h
  | cons e' rest ih =>
    intro i hdistinct k e hk hasks
    obtain ⟨hne, hrest⟩ := List.pairwise_cons.mp hdistinct
    rcases auxfind_cons strkey numkey e' rest i with ⟨hasks', hfound⟩ | ⟨hasks', hnext⟩
    · cases k with
      | zero =>
        obtain rfl := Option.some.inj hk
        exact hfound
      | succ k =>
        -- an entry in front of it has another key
        exact absurd (asks_unique hasks' hasks) (hne e (List.mem_of_getElem? hk))
    · cases k with
      | zero =>
        obtain rfl := Option.some.inj hk
        exact absurd hasks hasks'
      | succ k =>
        rw [hnext, ih (i + 1) hrest k e hk hasks, Nat.add_assoc, Nat.add_comm 1 k]

variable {t : Rotable V}

theorem findentry_of_mem {e : RoKey × V} (hk : t.entries[k]? = some e)
    (hasks : Asks strkey numkey e.1) : luaRFindentry t strkey numkey = some (e.2, k) := by
  rw [luaRFindentry, auxfind_of_asks t.entries 0 t.distinct k e hk hasks, Nat.zero_add]

theorem findentry_of_not_mem (h : ∀ e ∈ t.entries, ¬ Asks strkey numkey e.1) :
    luaRFindentry t strkey numkey = none :=
  auxfind_of_not_asks t.entries 0 h

/-- A name that is short enough is its own C string. -/
theorem getcstr_of_lt {s : CStr} (h : s.bytes.length < LUA_MAX_ROTABLE_NAME) :
    luaRGetcstr s.bytes LUA_MAX_ROTABLE_NAME = s := by
  have hall : s.bytes.takeWhile (fun b => decide (b ≠ 0)) = s.bytes := by
    rw [List.takeWhile_eq_self_iff]
    intro b hb
    exact decide_eq_true fun hzero => s.nulFree (hzero ▸ hb)
  obtain ⟨bytes, hbytes⟩ := s
  rw [luaRGetcstr, if_neg (Nat.not_lt.mpr h), upToNul]
  simp only [hall]

/-- A longer one becomes the empty string. -/
theorem getcstr_of_ge {bytes : List UInt8} (h : LUA_MAX_ROTABLE_NAME ≤ bytes.length) :
    luaRGetcstr bytes LUA_MAX_ROTABLE_NAME = ⟨[], List.not_mem_nil⟩ :=
  if_pos (Nat.lt_succ_of_le h)

end Find

section Next
variable {N V : Type} {num : KeyNumbers N} {t : Rotable V}
variable {key : LuaKey N} {e : RoKey × V}

/-! ### One call -/

/-- What `luaR_next` looks for. -/
def asked (num : KeyNumbers N) : LuaKey N → Option (Option CStr × BitVec 32)
  | .nil          => none
  | .string bytes => some (some (luaRGetcstr bytes LUA_MAX_ROTABLE_NAME), 0)
  | .number n     => some (none, num.toKey n)
  | .other        => none

theorem next_of_asked (h : asked num key = some (strkey, numkey)) (keypos : BitVec 32)
    (val : Option V) :
    luaRNext num t keypos key val =
      luaRNextHelper num t (luaRAdvance (luaRFindentry t strkey numkey) keypos) := by
  cases key with
  | nil => cases h
  | string bytes =>
    obtain ⟨rfl, rfl⟩ := Prod.mk.inj (Option.some.inj h)
    rfl
  | number n =>
    obtain ⟨rfl, rfl⟩ := Prod.mk.inj (Option.some.inj h)
    rfl
  | other => cases h

/-- A key is known if an entry has it. -/
theorem known_of_asked (h : asked num key = some (strkey, numkey)) :
    t.Known num key ↔ ∃ e ∈ t.entries, Asks strkey numkey e.1 := by
  cases key with
  | nil => cases h
  | string bytes =>
    obtain ⟨rfl, rfl⟩ := Prod.mk.inj (Option.some.inj h)
    refine exists_congr fun e => and_congr_right fun _ => ?_
    cases e.1 with
    | strkey s => simp [Asks, eq_comm]
    | numkey n => simp [Asks]
  | number n =>
    obtain ⟨rfl, rfl⟩ := Prod.mk.inj (Option.some.inj h)
    refine exists_congr fun e => and_congr_right fun _ => ?_
    cases e.1 with
    | strkey s => simp [Asks]
    | numkey m => simp [Asks, eq_comm]
  | other => cases h

theorem helper_of_getElem? (h : t.entries[k]? = some e) :
    luaRNextHelper num t k = some (e.1.value num, some e.2) := by
  rw [luaRNextHelper, h]

theorem helper_length : luaRNextHelper num t t.entries.length = some (.nil, none) := by
  rw [luaRNextHelper, List.getElem?_eq_none (Nat.le_refl _)]
  exact if_pos rfl

theorem helper_eq_none (h : t.entries.length < k) : luaRNextHelper num t k = none := by
  rw [luaRNextHelper, List.getElem?_eq_none (Nat.le_of_lt h)]
  exact if_neg (Nat.ne_of_gt h)

theorem helper_ne_none (h : k ≤ t.entries.length) : luaRNextHelper num t k ≠ none := by
  rcases Nat.lt_or_eq_of_le h with hlt | rfl
  · rw [helper_of_getElem? (List.getElem?_eq_getElem hlt)]
    exact Option.some_ne_none _
  · rw [helper_length]
    exact Option.some_ne_none _

/-- Behind a key that is found. -/
theorem next_of_found (h : asked num key = some (strkey, numkey)) (hk : t.entries[k]? = some e)
    (hasks : Asks strkey numkey e.1) (keypos : BitVec 32) (val : Option V) :
    luaRNext num t keypos key val = luaRNextHelper num t (k + 1) := by
  have hlt := (List.getElem?_eq_some_iff.mp hk).1
  have hfits := t.fits
  rw [next_of_asked h, findentry_of_mem hk hasks]
  show luaRNextHelper num t ((k + 1) % 2 ^ 32) = _
  rw [Nat.mod_eq_of_lt (by omega)]

/-- Behind a key that is not found, if `keypos` is great. -/
theorem next_outside (h : asked num key = some (strkey, numkey))
    (hnone : ∀ e ∈ t.entries, ¬ Asks strkey numkey e.1) (val : Option V) :
    luaRNext num t 0x7fffffff key val = none := by
  rw [next_of_asked h, findentry_of_not_mem hnone]
  exact helper_eq_none t.fits

/-- A call stays in front of the terminator, whatever is in `keypos`, exactly if the key is
known. -/
theorem inside_iff (key : LuaKey N) :
    (∀ keypos val, luaRNext num t keypos key val ≠ none) ↔ t.Known num key := by
  cases hasked : asked num key with
  | none =>
    cases key with
    | nil => exact iff_of_true (fun _ _ => helper_ne_none (Nat.zero_le _)) trivial
    | other => exact iff_of_true (fun _ _ => Option.some_ne_none _) trivial
    | string bytes => cases hasked
    | number n => cases hasked
  | some question =>
    obtain ⟨strkey, numkey⟩ := question
    rw [known_of_asked hasked]
    constructor
    · intro hinside
      by_contra hnone
      -- `keypos` is not set, and this one is behind every table
      refine hinside 0x7fffffff none (next_outside hasked ?_ none)
      exact fun e he hasks => hnone ⟨e, he, hasks⟩
    · rintro ⟨e, he, hasks⟩ keypos val
      obtain ⟨k, hk⟩ := List.mem_iff_getElem?.mp he
      rw [next_of_found hasked hk hasks]
      exact helper_ne_none (List.getElem?_eq_some_iff.mp hk).1

/-! ### An iteration -/

/-- The keys of a table with short names are found again. -/
theorem asks_of_short (hshort : t.ShortNames) (he : e ∈ t.entries) :
    ∃ strkey numkey, asked num (e.1.value num) = some (strkey, numkey) ∧
      Asks strkey numkey e.1 := by
  obtain ⟨key, value⟩ := e
  cases key with
  | strkey s =>
    refine ⟨_, _, rfl, ?_⟩
    rw [getcstr_of_lt (hshort _ he s rfl)]
    rfl
  | numkey n => exact ⟨_, _, rfl, rfl, num.toKey_ofKey n⟩

/-- An iteration that is in front of the `k`-th entry shows the entries from there on. -/
theorem walk_from (hshort : t.ShortNames) (keypos : Nat → BitVec 32) (n : Nat) :
    ∀ k key, k + n = t.entries.length →
      (∀ pos val, luaRNext num t pos key val = luaRNextHelper num t k) →
      luaRWalk num t keypos (n + 1) key = some ((t.shown num).drop k) := by
  induction n with
  | zero =>
    intro k key hk hnext
    rw [luaRWalk, hnext, show k = t.entries.length by omega, helper_length]
    simp [Rotable.shown]
  | succ n ih =>
    intro k key hk hnext
    have hlt : k < t.entries.length := by omega
    have he := List.getElem?_eq_getElem hlt
    obtain ⟨strkey, numkey, hasked, hasks⟩ :=
      asks_of_short hshort (List.getElem_mem hlt)
    have hrest := ih (k + 1) (t.entries[k].1.value num) (by omega)
      (fun pos val => next_of_found hasked he hasks pos val)
    -- the entry is shown, and the iteration is behind it
    have hdrop : (t.shown num).drop k =
        (t.entries[k].1.value num, some t.entries[k].2) :: (t.shown num).drop (k + 1) := by
      have hlen : k < (t.shown num).length := by simpa [Rotable.shown] using hlt
      rw [List.drop_eq_getElem_cons hlen]
      simp [Rotable.shown]
    rw [luaRWalk, hnext, helper_of_getElem? he, hdrop]
    cases hvalue : t.entries[k].1.value num with
    | nil => cases hkey : t.entries[k].1 <;> rw [hkey] at hvalue <;> cases hvalue
    | _ =>
      rw [hvalue] at hrest
      simp only [hrest, Option.map_some]

/-- Two keys with the same value are the same. -/
theorem value_inj {key key' : RoKey} (h : key.value num = key'.value num) : key = key' := by
  cases key with
  | strkey s =>
    cases key' with
    | strkey s' =>
      obtain ⟨bytes, hbytes⟩ := s
      obtain ⟨bytes', hbytes'⟩ := s'
      cases h
      rfl
    | numkey n => cases h
  | numkey n =>
    cases key' with
    | strkey s => cases h
    | numkey n' =>
      have hnum : num.ofKey n = num.ofKey n' := LuaKey.number.inj h
      rw [← num.toKey_ofKey n, hnum, num.toKey_ofKey]

theorem value_ne_nil (key : RoKey) : key.value num ≠ .nil := by
  cases key <;> simp [RoKey.value]

/-- The key that is shown tells the position. -/
theorem helper_inj {j : Nat} {val val' : Option V}
    (hj : luaRNextHelper num t j = some (key, val))
    (hk : luaRNextHelper num t k = some (key, val')) : j = k := by
  have hle {i : Nat} {x : LuaKey N × Option V} (h : luaRNextHelper num t i = some x) :
      i ≤ t.entries.length := by
    by_contra hlt
    rw [helper_eq_none (Nat.lt_of_not_le hlt)] at h
    cases h
  -- an entry has a key of its own, and the terminator has none
  rcases Nat.lt_or_eq_of_le (hle hj) with hj' | rfl
  · rw [helper_of_getElem? (List.getElem?_eq_getElem hj'), Option.some.injEq, Prod.mk.injEq] at hj
    rcases Nat.lt_or_eq_of_le (hle hk) with hk' | rfl
    · rw [helper_of_getElem? (List.getElem?_eq_getElem hk'), Option.some.injEq,
        Prod.mk.injEq] at hk
      have hkey := value_inj (hj.1.trans hk.1.symm)
      by_contra hne
      have hpairs := List.pairwise_iff_getElem.mp t.distinct
      rcases Nat.lt_or_gt_of_ne hne with hlt | hgt
      · exact hpairs j k hj' hk' hlt hkey
      · exact hpairs k j hk' hj' hgt hkey.symm
    · rw [helper_length, Option.some.injEq, Prod.mk.injEq] at hk
      exact absurd (hj.1.trans hk.1.symm) (value_ne_nil _)
  · rw [helper_length, Option.some.injEq, Prod.mk.injEq] at hj
    rcases Nat.lt_or_eq_of_le (hle hk) with hk' | rfl
    · rw [helper_of_getElem? (List.getElem?_eq_getElem hk'), Option.some.injEq,
        Prod.mk.injEq] at hk
      exact absurd (hk.1.trans hj.1.symm) (value_ne_nil _)
    · rfl

/-- The key in front of a position. -/
def keyBefore (num : KeyNumbers N) (t : Rotable V) : Nat → LuaKey N
  | 0     => .nil
  | k + 1 => ((t.entries[k]?).map fun e => e.1.value num).getD .nil

/-- An iteration that shows what it should is at every position in its turn. -/
theorem walk_at {c : BitVec 32}
    (h : luaRWalk num t (fun _ => c) (t.entries.length + 1) .nil = some (t.shown num)) :
    ∀ k, k ≤ t.entries.length →
      luaRWalk num t (fun _ => c) (t.entries.length - k + 1) (keyBefore num t k) =
        some ((t.shown num).drop k) := by
  intro k
  induction k with
  | zero => exact fun _ => h
  | succ k ih =>
    intro hlt
    have hwalk := ih (Nat.le_of_succ_le hlt)
    have hlen : k < (t.shown num).length := by
      rw [Rotable.shown, List.length_map]
      exact hlt
    rw [List.drop_eq_getElem_cons hlen, luaRWalk] at hwalk
    -- the call before has returned this key
    have hkey : keyBefore num t (k + 1) = ((t.shown num)[k]).1 := by
      rw [keyBefore, List.getElem?_eq_getElem hlt]
      simp [Rotable.shown]
    rw [show t.entries.length - (k + 1) + 1 = t.entries.length - k by omega, hkey]
    split at hwalk
    · cases hwalk
    · cases hwalk
    · obtain ⟨rest, hrest, heq⟩ := Option.map_eq_some_iff.mp hwalk
      rw [List.cons.injEq] at heq
      rw [← heq.1, hrest, heq.2]

/-- An iteration that shows what it should goes from every entry to the next one. -/
theorem next_of_walk {c : BitVec 32}
    (h : luaRWalk num t (fun _ => c) (t.entries.length + 1) .nil = some (t.shown num))
    (he : t.entries[k]? = some e) :
    ∃ key val val', luaRNext num t c (e.1.value num) none = some (key, val) ∧
      luaRNextHelper num t (k + 1) = some (key, val') := by
  have hlt := (List.getElem?_eq_some_iff.mp he).1
  have hwalk := walk_at h (k + 1) hlt
  rw [keyBefore, he, Option.map_some, Option.getD_some, luaRWalk] at hwalk
  split at hwalk
  · cases hwalk
  · next val hnext =>
      -- it ends, so the entry was the last one
      have hnil := Option.some.inj hwalk
      rw [eq_comm, List.drop_eq_nil_iff, Rotable.shown, List.length_map] at hnil
      refine ⟨_, val, none, hnext, ?_⟩
      rw [show k + 1 = t.entries.length by omega, helper_length]
  · next key val _ hnext =>
      obtain ⟨rest, -, heq⟩ := Option.map_eq_some_iff.mp hwalk
      -- it goes on, with the entry that is to be shown
      have hget : (t.shown num)[k + 1]? = some (key, val) := by
        rw [← List.head?_drop, ← heq]
        rfl
      rw [Rotable.shown, List.getElem?_map, Option.map_eq_some_iff] at hget
      obtain ⟨e', he', hpair⟩ := hget
      obtain ⟨rfl, rfl⟩ := Prod.mk.inj hpair
      exact ⟨_, _, _, hnext, helper_of_getElem? he'⟩

/-- A name of the maximum length ends every iteration that has read it, or leads it elsewhere. -/
theorem short_of_iterates
    (h : ∀ keypos, luaRWalk num t keypos (t.entries.length + 1) .nil = some (t.shown num)) :
    t.ShortNames := by
  intro e he s hs
  by_contra hlong
  obtain ⟨k, hk⟩ := List.mem_iff_getElem?.mp he
  obtain ⟨key, val, val', hnext, hhelper⟩ := next_of_walk (h fun _ => 0x7fffffff) hk
  -- the name is cut to an empty one
  have hasked : asked num (e.1.value num) = some (some ⟨[], List.not_mem_nil⟩, 0) := by
    rw [hs, ← getcstr_of_ge (Nat.le_of_not_lt hlong)]
    rfl
  by_cases hempty : ∃ e' ∈ t.entries, Asks (some ⟨[], List.not_mem_nil⟩) 0 e'.1
  · -- there is an empty key, and the iteration goes on behind it
    obtain ⟨e', he', hasks⟩ := hempty
    obtain ⟨j, hj⟩ := List.mem_iff_getElem?.mp he'
    rw [next_of_found hasked hj hasks] at hnext
    have hjk := helper_inj hnext hhelper
    rw [show j = k by omega, hk, Option.some.injEq] at hj
    subst hj
    rw [hs] at hasks
    rw [← Option.some.inj hasks] at hlong
    exact hlong (by decide)
  · rw [next_outside hasked fun e' he' hasks => hempty ⟨e', he', hasks⟩] at hnext
    cases hnext

/-- **Read-only tables**: a rotable behaves as a table, with this key given to `luaR_next`, exactly
if its names are shorter than the maximum and the key is known. -/
theorem behaves_iff (num : KeyNumbers N) (t : Rotable V) (key : LuaKey N) :
    Behaves num t key ↔ t.ShortNames ∧ t.Known num key := by
  constructor
  · exact fun h => ⟨short_of_iterates h.iterates, (inside_iff key).mp h.inside⟩
  · rintro ⟨hshort, hknown⟩
    refine ⟨?_, ?_, fun keypos => ?_, (inside_iff key).mpr hknown⟩
    · intro e he
      obtain ⟨k, hk⟩ := List.mem_iff_getElem?.mp he
      split
      · next s hs => rw [findentry_of_mem hk (by rw [hs]; rfl), Option.map_some]
      · next n hn => rw [findentry_of_mem hk (by rw [hn]; exact ⟨rfl, rfl⟩), Option.map_some]
    · intro e he
      obtain ⟨k, hk⟩ := List.mem_iff_getElem?.mp he
      split
      · next s hs =>
          -- a short name is looked up as it is
          rw [luaHGetstrRo, getcstr_of_lt (hshort e he s hs),
            findentry_of_mem hk (by rw [hs]; rfl), Option.map_some]
      · next n hn =>
          rw [luaHGetnumRo, findentry_of_mem hk (by rw [hn]; exact ⟨rfl, rfl⟩), Option.map_some]
    · exact walk_from hshort keypos _ 0 .nil (Nat.zero_add _) fun _ _ => rfl

end Next

/-- Numbers that are integers. -/
def intNumbers : KeyNumbers (BitVec 32) := ⟨id, id, fun _ => rfl⟩

/-- A rotable with the key `a` only. -/
def oneKey : Rotable Nat where
  entries := [(.strkey (upToNul [97]), 7)]
  distinct := List.pairwise_singleton _ _
  names := by
    intro e he s hs
    rw [List.mem_singleton.mp he] at hs
    cases hs
    decide
  fits := by decide

/-- The key `b` is not in the table, and `keypos` may be anything. -/
theorem not_always_behaves : ¬ ∀ (t : Rotable Nat) (key : LuaKey (BitVec 32)),
    Behaves intNumbers t key := by
  intro h
  obtain ⟨e, he, hkey⟩ := (inside_iff _).mp (h oneKey (.string [98])).inside
  rw [List.mem_singleton.mp he] at hkey
  revert hkey
  decide

end Alcor.Proofs.Lua
