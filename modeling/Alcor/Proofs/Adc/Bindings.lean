import Alcor.Adc.Bindings

/-!
# `Alcor.Proofs.Adc.Bindings`: picoLisp and Lua take the same samples

Each function of picoLisp is written with the loop of Lua.

* `luaSetup_eq_plispSetup` and `eq_first_of_setUp_eq`: the channels of
  picoLisp are those of Lua when all of them are the first one, as its
  loop sets up the first channel again and again.
* `plispAdcGetsamples_eq`: the samples are those of Lua, in the opposite
  order and short of one.
* `plispInsert_eq` and `luaInsert_apply`: an inserted sample moves what
  is behind it, where Lua replaces it.
* `asLua_iff` puts the three calls together: exactly when a call of
  picoLisp does what that of Lua does.
-/

set_option autoImplicit false

namespace Alcor.Proofs.Adc.Bindings

open Alcor.Adc.Bindings
open Alcor.Uart.Bindings (intlog2)

variable {first : Nat}
variable {b : Board} {count : Nat}

/-! ### Setting up channels -/

theorem setupOne_ok {id : Nat} (hexists : b.platformAdcExists id = true)
    (hsetup : b.setupOk id (intlog2 count) = true) (done : List (Nat × Nat)) :
    setupOne b count id done = .ok (done ++ [(id, intlog2 count)]) := by
  simp [setupOne, hexists, hsetup]

/-- A channel that is refused ends the call, in both languages. -/
theorem setupOne_refused {id : Nat}
    (h : b.platformAdcExists id = false ∨ b.setupOk id (intlog2 count) = false)
    (done : List (Nat × Nat)) : ∃ s, setupOne b count id done = .error s := by
  unfold setupOne
  by_cases hexists : b.platformAdcExists id = true
  · rcases h with h | h
    · simp [h] at hexists
    · simp [hexists, h]
  · simp [hexists]

theorem plispSetup_setUp (hexists : b.platformAdcExists first = true)
    (hsetup : b.setupOk first (intlog2 count) = true) (passes : Nat) :
    ∀ done : List (Nat × Nat), (plispSetup b count first passes done).setUp =
      done ++ List.replicate passes (first, intlog2 count) := by
  induction passes with
  | zero => simp [plispSetup]
  | succ passes ih =>
    intro done
    rw [plispSetup, setupOne_ok hexists hsetup]
    simp [ih, List.replicate_succ]

/-- Lua sets up the channels of the table in order, up to the first that is refused. -/
theorem luaSetup_setUp (ids : List Nat) : ∀ done : List (Nat × Nat),
    ∃ n, (luaSetup b count ids done).setUp = done ++ (ids.take n).map (·, intlog2 count) := by
  induction ids with
  | nil => exact fun done => ⟨0, by simp [luaSetup]⟩
  | cons id ids ih =>
    intro done
    by_cases hexists : b.platformAdcExists id = true
    · -- a channel whose setup fails has been set up, too
      by_cases hsetup : b.setupOk id (intlog2 count) = true
      · obtain ⟨n, hn⟩ := ih (done ++ [(id, intlog2 count)])
        refine ⟨n + 1, ?_⟩
        rw [luaSetup, setupOne_ok hexists hsetup]
        simp [hn]
      · exact ⟨1, by simp [luaSetup, setupOne, hexists, hsetup]⟩
    · exact ⟨0, by simp [luaSetup, setupOne, hexists]⟩

theorem luaSetup_eq_plispSetup (ids : List Nat) (h : ∀ id ∈ ids, id = first) :
    ∀ done : List (Nat × Nat),
      luaSetup b count ids done = plispSetup b count first ids.length done := by
  induction ids with
  | nil => exact fun _ => rfl
  | cons id ids ih =>
    intro done
    obtain rfl : id = first := h id (by simp)
    rw [List.length_cons, luaSetup, plispSetup]
    cases hone : setupOne b count id done with
    | error s => rfl
    | ok done => exact ih (fun id' hid => h id' (List.mem_cons_of_mem _ hid)) done

/-- When the first channel is set up, both calls set up the same only for a list of this channel. -/
theorem eq_first_of_setUp_eq {ids : List Nat} (hexists : b.platformAdcExists first = true)
    (hsetup : b.setupOk first (intlog2 count) = true)
    (h : (plispSetup b count first ids.length []).setUp = (luaSetup b count ids []).setUp) :
    ∀ id ∈ ids, id = first := by
  obtain ⟨n, hn⟩ : ∃ n, (luaSetup b count ids []).setUp =
      [] ++ (ids.take n).map (·, intlog2 count) := luaSetup_setUp ids []
  rw [plispSetup_setUp hexists hsetup, hn, List.nil_append, List.nil_append] at h
  -- picoLisp has set up as many as there are in the list, so Lua has not stopped before its end
  have hlen : ids.length ≤ n := by
    have hlen := congrArg List.length h
    simp only [List.length_replicate, List.length_map, List.length_take] at hlen
    omega
  rw [List.take_of_length_le hlen] at h
  intro id hid
  have hmem : (id, intlog2 count) ∈ List.replicate ids.length (first, intlog2 count) :=
    h ▸ List.mem_map_of_mem hid
  exact congrArg Prod.fst (List.eq_of_mem_replicate hmem)

/-- `adc-sample` does what `adc.sample` does exactly when the count or
the first channel is refused, or all channels are the first one. -/
theorem sample_asLua_iff (b : Board) (ids : List Nat) (count : Nat) :
    (Call.sample b ids count).AsLua ↔ (Call.sample b ids count).Right := by
  unfold Call.AsLua Call.Right plispAdcSample luaAdcSample
  by_cases hcount : countOk count = true
  · cases ids with
    | nil => simp [hcount, luaSetup]
    | cons first ids =>
      simp only [hcount, Bool.not_true, Bool.false_eq_true, if_false, List.head?_cons,
        Option.mem_some_iff, forall_eq', Bool.true_eq_false, false_or]
      by_cases hrefused : b.platformAdcExists first = false ∨
          b.setupOk first (intlog2 count) = false
      · -- both end with the first channel
        obtain ⟨s, hs⟩ := setupOne_refused hrefused []
        have hsame : (plispSetup b count first (first :: ids).length []).setUp =
            (luaSetup b count (first :: ids) []).setUp := by
          rw [List.length_cons, plispSetup, luaSetup, hs]
        exact iff_of_true hsame (by tauto)
      · obtain ⟨hexists, hsetup⟩ := not_or.mp hrefused
        have hiff : (plispSetup b count first (first :: ids).length []).setUp =
            (luaSetup b count (first :: ids) []).setUp ↔ ∀ id ∈ first :: ids, id = first :=
          ⟨eq_first_of_setUp_eq (by simpa using hexists) (by simpa using hsetup),
            fun h => by rw [luaSetup_eq_plispSetup _ h]⟩
        rw [hiff]
        tauto
  · simp [hcount]

/-! ### Taking samples -/

@[simp] theorem length_luaTake (n : Nat) : ∀ avail : List Nat, (luaTake n avail).1.length = n := by
  induction n with
  | zero => exact fun _ => rfl
  | succ n ih => simp [luaTake, ih]

/-- What is put in front of the list is in the opposite order. -/
theorem plispTake_eq (n : Nat) : ∀ y avail : List Nat,
    plispTake n y avail = ((luaTake n avail).1.reverse ++ y, (luaTake n avail).2) := by
  induction n with
  | zero => simp [plispTake, luaTake]
  | succ n ih =>
    intro y avail
    simp [plispTake, ih, luaTake]

/-- The number of samples that the loop of picoLisp takes behind the first. -/
def passes (count : Nat) : Nat := (count + 2 ^ 32 - 1) % 2 ^ 32 - 1

theorem plispAdcGetsamples_eq (count : Nat) (avail : List Nat) :
    plispAdcGetsamples count avail =
      ((luaTake (passes (effectiveCount count avail)) (adcGetProcessedSample avail).2).1.reverse ++
          [(adcGetProcessedSample avail).1],
        (luaTake (passes (effectiveCount count avail)) (adcGetProcessedSample avail).2).2) := by
  unfold plispAdcGetsamples passes
  generalize effectiveCount count avail = n
  simp only
  generalize (n + 2 ^ 32 - 1) % 2 ^ 32 - 1 = passes
  exact plispTake_eq passes _ _

theorem effectiveCount_lt (count : Nat) (avail : List Nat) :
    effectiveCount count avail < 2 ^ 16 := by
  have hmod : adcWaitSamples avail < 2 ^ 16 := Nat.mod_lt _ (by decide)
  simp only [effectiveCount]
  split <;> split <;> omega

/-- Both take one sample, or picoLisp does not take as many as Lua. -/
theorem passes_eq_iff {count : Nat} (h : count < 2 ^ 16) :
    passes count + 1 = count ↔ count = 1 := by
  unfold passes
  omega

theorem effectiveCount_eq_one_iff (count : Nat) (avail : List Nat) :
    effectiveCount count avail = 1 ↔
      adcWaitSamples avail = 1 ∨ (count % 2 ^ 16 = 1 ∧ 1 ≤ adcWaitSamples avail) := by
  simp only [effectiveCount]
  split <;> split <;> omega

theorem getsamples_asLua_iff (count : Nat) (avail : List Nat) :
    (Call.getsamples count avail).AsLua ↔ (Call.getsamples count avail).Right := by
  simp only [Call.AsLua, Call.Right]
  rw [← effectiveCount_eq_one_iff, ← passes_eq_iff (effectiveCount_lt count avail),
    plispAdcGetsamples_eq, luaAdcGetsamples]
  constructor
  · intro h
    have hlen := congrArg (fun r : List Nat × List Nat => r.1.length) h
    simpa using hlen
  · intro h
    have hone := (passes_eq_iff (effectiveCount_lt count avail)).mp h
    rw [hone]
    rfl

/-! ### Inserting samples -/

theorem insLoop_eq (tab : List Nat) (i : Nat) : ∀ temp : List Nat, i ≤ tab.length →
    insLoop tab i temp = tab.take i ++ temp := by
  induction i with
  | zero => simp [insLoop]
  | succ i ih =>
    intro temp hi
    rw [insLoop, ih _ (Nat.le_of_lt hi), List.drop_eq_getElem_cons hi, List.headD_cons,
      List.take_succ_eq_append_getElem hi, List.append_assoc, List.singleton_append]

/-- The element is put in front of the one that has the position. -/
theorem insElement_eq {list : List Nat} {k : Nat} (hk : k ≤ list.length) (value : Nat) :
    insElement list (k + 1) value = list.take k ++ value :: list.drop k := by
  rw [insElement, Nat.add_sub_cancel, insLoop_eq list k _ hk]

theorem plispInsert_eq (n : Nat) : ∀ (k : Nat) (tab avail : List Nat), k ≤ tab.length →
    plispInsert n (k + 1) tab avail = tab.take k ++ (luaTake n avail).1 ++ tab.drop k := by
  induction n with
  | zero => simp [plispInsert, luaTake]
  | succ n ih =>
    intro k tab avail hk
    have hlen : (tab.take k).length = k := List.length_take_of_le hk
    simp only [plispInsert, insElement_eq hk]
    rw [ih (k + 1) _ _ (by simp [hlen])]
    -- the new element is the last of those in front of the next position
    have htake : ∀ x, (tab.take k ++ x :: tab.drop k).take (k + 1) = tab.take k ++ [x] := by
      intro x
      rw [List.take_append, hlen, List.take_of_length_le (by omega)]
      simp
    have hdrop : ∀ x, (tab.take k ++ x :: tab.drop k).drop (k + 1) = tab.drop k := by
      intro x
      rw [List.drop_append, hlen, List.drop_of_length_le (by omega)]
      simp
    rw [htake, hdrop]
    simp [luaTake]

/-- The table of Lua afterwards: samples while there are some, then nil, and outside of the range
what was there. -/
theorem luaInsert_apply (bcnt startidx j n : Nat) : ∀ (i : Nat) (t : Table) (avail : List Nat),
    luaInsert bcnt startidx n i t avail j =
      if i ≤ j ∧ j < i + n then
        if j < bcnt + startidx then (luaTake n avail).1[j - i]? else none
      else t j := by
  induction n with
  | zero =>
    intro i t avail
    rw [luaInsert, if_neg (by omega)]
  | succ n ih =>
    intro i t avail
    rw [luaInsert]
    by_cases hji : j = i
    · -- later passes leave the index of this one
      subst hji
      have hself : ¬ (j + 1 ≤ j ∧ j < j + 1 + n) := by omega
      rw [if_pos (show j ≤ j ∧ j < j + (n + 1) by omega), Nat.sub_self]
      by_cases hlt : j < bcnt + startidx
      · simp only [hlt, if_true, ih, luaTake]
        rw [if_neg hself, Function.update_self, List.getElem?_cons_zero]
      · simp only [hlt, if_false, ih]
        rw [if_neg hself, Function.update_self]
    · -- this pass leaves the index of a later one
      have hupd : ∀ v, Function.update t i v j = t j :=
        fun v => Function.update_of_ne hji v t
      by_cases hlt : i < bcnt + startidx
      · simp only [hlt, if_true, ih, hupd, luaTake]
        by_cases hin : i ≤ j ∧ j < i + (n + 1)
        · obtain ⟨k, rfl⟩ : ∃ k, j = i + (k + 1) := ⟨j - i - 1, by omega⟩
          rw [if_pos hin, if_pos (by omega)]
          simp only [Nat.add_sub_cancel_left, List.getElem?_cons_succ,
            show i + (k + 1) - (i + 1) = k by omega]
        · rw [if_neg hin, if_neg (by omega)]
      · simp only [hlt, if_false, ih, hupd]
        by_cases hin : i ≤ j ∧ j < i + (n + 1)
        · rw [if_pos hin, if_pos (by omega), if_neg (by omega), if_neg (by omega)]
        · rw [if_neg hin, if_neg (by omega)]

variable {tab avail : List Nat} {n offset : Nat}

/-- The list of picoLisp as a table. -/
def plispTable (tab : List Nat) (offset n : Nat) (avail : List Nat) : Table :=
  tableOf (tab.take offset ++ (luaTake n avail).1 ++ tab.drop offset)

/-- The table of Lua. -/
def luaTable (tab : List Nat) (offset n : Nat) (avail : List Nat) : Table :=
  luaInsert (adcWaitSamples avail) (offset + 1) n (offset + 1) (tableOf tab) avail

theorem table_eq_of_end (hn : n ≤ adcWaitSamples avail) :
    plispTable tab tab.length n avail = luaTable tab tab.length n avail := by
  funext j
  rw [plispTable, luaTable, luaInsert_apply]
  cases j with
  | zero => rw [if_neg (by omega)]; rfl
  | succ j =>
    -- the samples are behind the list, in both
    simp only [tableOf, List.take_length, List.drop_length, List.append_nil]
    by_cases hin : tab.length + 1 ≤ j + 1 ∧ j + 1 < tab.length + 1 + n
    · rw [if_pos hin, if_pos (by omega), List.getElem?_append_right (by omega)]
      congr 1
      omega
    · rw [if_neg hin]
      by_cases hj : j < tab.length
      · rw [List.getElem?_append_left hj]
      · rw [List.getElem?_eq_none (by simp; omega), List.getElem?_eq_none (by omega)]

/-- In front of the end of the list, picoLisp has an element behind that of Lua. -/
theorem table_ne_of_lt (hn : n ≠ 0) (hlt : offset < tab.length) :
    plispTable tab offset n avail ≠ luaTable tab offset n avail := by
  intro h
  have hend := congrFun h (tab.length + n)
  obtain ⟨k, rfl⟩ : ∃ k, n = k + 1 := ⟨n - 1, by omega⟩
  rw [plispTable, luaTable, luaInsert_apply, if_neg (by omega), ← Nat.add_assoc] at hend
  simp only [tableOf] at hend
  have hin : tab.length + k < (tab.take offset ++ (luaTake (k + 1) avail).1 ++
      tab.drop offset).length := by
    simp only [List.length_append, List.length_take, length_luaTake, List.length_drop]
    omega
  rw [List.getElem?_eq_getElem hin, List.getElem?_eq_none (by omega)] at hend
  cases hend

/-- Behind the samples that are available, Lua has nil, and picoLisp takes one all the same. -/
theorem table_ne_of_short (hoffset : offset ≤ tab.length) (hn : adcWaitSamples avail < n) :
    plispTable tab offset n avail ≠ luaTable tab offset n avail := by
  intro h
  have hend := congrFun h (offset + adcWaitSamples avail + 1)
  rw [plispTable, luaTable, luaInsert_apply, if_pos (by omega), if_neg (by omega)] at hend
  simp only [tableOf] at hend
  have hin : offset + adcWaitSamples avail < (tab.take offset ++ (luaTake n avail).1 ++
      tab.drop offset).length := by
    simp only [List.length_append, List.length_take, length_luaTake, List.length_drop]
    omega
  rw [List.getElem?_eq_getElem hin] at hend
  cases hend

/-- `adc-insertsamples` does what `adc.insertsamples` does exactly
when there is nothing to insert, or when the samples are there and go
behind the list. -/
theorem insertsamples_asLua_iff (tab : List Nat) (offset : Fin (tab.length + 1)) (count : Nat)
    (avail : List Nat) :
    (Call.insertsamples tab offset count avail).AsLua ↔
      (Call.insertsamples tab offset count avail).Right := by
  simp only [Call.AsLua, Call.Right, plispAdcInsertsamples, luaAdcInsertsamples]
  have hoffset : offset.val ≤ tab.length := Nat.le_of_lt_succ offset.isLt
  rw [if_neg (Nat.succ_ne_zero _), if_neg (Nat.succ_ne_zero _)]
  by_cases hcount : count % 2 ^ 16 = 0
  · rw [if_pos hcount, if_pos hcount]
    exact iff_of_true rfl (.inl hcount)
  · rw [if_neg hcount, if_neg hcount, plispInsert_eq _ _ _ _ hoffset]
    simp only [Except.map, Except.ok.injEq, hcount, false_or]
    rw [← plispTable, ← luaTable]
    constructor
    · intro h
      have hend : offset.val = tab.length := by
        by_contra hne
        exact table_ne_of_lt hcount (by omega) h
      refine ⟨hend, ?_⟩
      by_contra hshort
      exact table_ne_of_short hoffset (by omega) h
    · rintro ⟨hend, hn⟩
      rw [hend]
      exact table_eq_of_end hn

/-! ### Both languages -/

/-- A call of picoLisp does what that of Lua does, exactly when all
channels are the first or the call is refused, when it takes one
sample, and when it puts samples that are there behind the list. -/
theorem asLua_iff (c : Call) : c.AsLua ↔ c.Right := by
  cases c with
  | sample b ids count => exact sample_asLua_iff b ids count
  | getsamples count avail => exact getsamples_asLua_iff count avail
  | insertsamples tab offset count avail => exact insertsamples_asLua_iff tab offset count avail

/-- Of the channels 0 and 1, picoLisp sets up 0 twice. -/
theorem not_always_asLua : ¬ ∀ c : Call, c.AsLua := by
  intro h
  have hright := (sample_asLua_iff _ _ _).mp (h (.sample ⟨fun _ => true, fun _ _ => true⟩ [0, 1] 4))
  rcases hright with hcount | hfirst
  · exact absurd hcount (by decide)
  · simp at hfirst

end Alcor.Proofs.Adc.Bindings
