import Alcor.Lua.Strings
import Mathlib.Data.List.Nodup

/-!
# `Alcor.Proofs.Lua.Strings`: when the string table stays consistent

What holds of the table (`Table`) and of the creations that wait
(`Waiting`) between any two events. The strings of a creation that waits
are not in the table: the lookup did not find them, and nothing of the
same bytes may be created meanwhile.

* `rehashTo_spec`: a table that is rehashed has the same strings in
  other buckets (`Lib.Buckets`), whatever is swept before it or
  interrupts it.
* `luaSNewlstrHelper_spec`, `newlstr_spec`, `grown_spec`, `resume_spec`
  and `linkString_spec` are the stages of a creation.
* `step_spec` is the step lemma, `run_consistent` the result about every
  run; `not_always_consistent` is a run in which a larger table cannot be
  had.
-/

set_option autoImplicit false

namespace Alcor.Proofs.Lua.Strings

open Lib (Mem)
open Lib.Buckets
open Alcor.Lua.Strings Lib.Run

variable {newsize : Nat}
variable {ro : Nat → Bool} {mem : Mem} {s s' : State} {c : Creation}

theorem lmod_lt (h : UInt32) {size : Nat} (hsize : 0 < size) : lmod h size < size :=
  Nat.lt_of_le_of_lt Nat.and_le_right (Nat.sub_lt hsize Nat.one_pos)

/-- What holds of the strings of the table. -/
structure Table (mem : Mem) (s : State) : Prop where
  size_pos : 0 < s.size
  placed : Placed (fun ts => lmod ts.hash s.size) s.hash
  hash : ∀ ts ∈ s.strings, ts.hash = hashOf ts.created
  len : ∀ ts ∈ s.strings, ts.len = ts.created.length
  read : ∀ ts ∈ s.strings, getstr mem ts = ts.created
  unique : (s.strings.map (·.created)).Nodup
  live : ∀ ts ∈ s.live, ts ∈ s.strings ∧ ts.id ∉ s.dead
  fresh : ∀ id ∈ s.dead, id < s.nextId

/-- A creation that waits. -/
structure Waits (mem : Mem) (s : State) (c : Creation) : Prop where
  hash : c.hash = hashOf c.bytes
  readonly : ∀ str, c.readonly = some str → mem.read str c.bytes.length = c.bytes
  absent : ∀ ts ∈ s.strings, ts.created ≠ c.bytes

/-- What holds of the creations that wait. One at most waits to resize the table. -/
structure Waiting (mem : Mem) (s : State) : Prop where
  waits : ∀ f ∈ s.frames, Waits mem s f.creation
  growing : s.frames.countP Frame.grows = if s.resizing then 1 else 0
  newsize : ∀ newsize c, .growing newsize c ∈ s.frames → newsize = s.size * 2

theorem Waits.subset (h : Waits mem s c) (hsub : ∀ ts ∈ s'.strings, ts ∈ s.strings) :
    Waits mem s' c :=
  ⟨h.hash, h.readonly, fun ts hts => h.absent ts (hsub ts hts)⟩

/-! ### Other tables for the same strings -/

/-- The strings are in other buckets, and some are freed. -/
theorem Table.rebuild (h : Table mem s) (hsize : 0 < s'.size)
    (hplaced : Placed (fun ts => lmod ts.hash s'.size) s'.hash)
    (hstrings : ∃ l, s'.strings.Perm l ∧ l.Sublist s.strings)
    (hlive : ∀ ts ∈ s'.live, ts ∈ s.live ∧ ts ∈ s'.strings) (hdead : s'.dead = s.dead)
    (hnextId : s'.nextId = s.nextId) : Table mem s' := by
  obtain ⟨l, hperm, hsub⟩ := hstrings
  have hmem (ts : TString) (hts : ts ∈ s'.strings) : ts ∈ s.strings :=
    hsub.subset (hperm.mem_iff.mp hts)
  refine ⟨hsize, hplaced, fun ts hts => h.hash ts (hmem ts hts),
    fun ts hts => h.len ts (hmem ts hts), fun ts hts => h.read ts (hmem ts hts), ?_,
    fun ts hts => ?_, ?_⟩
  · rw [(hperm.map _).nodup_iff]
    exact h.unique.sublist (hsub.map _)
  · obtain ⟨hold, hnew⟩ := hlive ts hts
    exact ⟨hnew, hdead ▸ (h.live ts hold).2⟩
  · rw [hdead, hnextId]
    exact h.fresh

theorem Table.frames (h : Table mem s) (resizing : Bool) (fs : List Frame) :
    Table mem { s with resizing, frames := fs } :=
  ⟨h.size_pos, h.placed, h.hash, h.len, h.read, h.unique, h.live, h.fresh⟩

/-- The strings of the table after a rehash. -/
theorem rehashTo_spec {hash : List (List TString)} {size : Nat} (hnewsize : 0 < newsize)
    (hle : newsize ≤ hash.length) (hrest : ∀ i b, size ≤ i → hash[i]? = some b → b = []) :
    Placed (fun ts => lmod ts.hash newsize) (rehashTo newsize hash size) ∧
      (rehashTo newsize hash size).flatten.Perm hash.flatten ∧
      (rehashTo newsize hash size).length = hash.length := by
  have hpos (ts : TString) : lmod ts.hash newsize < hash.length :=
    Nat.lt_of_lt_of_le (lmod_lt ts.hash hnewsize) hle
  exact ⟨placed_rehash hrest, flatten_rehash_perm hpos size, length_rehash _ _ _⟩

/-! ### Sweeping -/

/-- `sweepstrstep` frees strings that are dead. -/
theorem sweepstrstep_spec (h : Table mem s) :
    Table mem (sweepstrstep s) ∧ (∀ ts ∈ (sweepstrstep s).strings, ts ∈ s.strings) ∧
      (sweepstrstep s).size = s.size ∧ (sweepstrstep s).frames = s.frames ∧
      (sweepstrstep s).resizing = s.resizing := by
  rw [sweepstrstep]
  split
  · exact ⟨h, fun _ hts => hts, rfl, rfl, rfl⟩
  · next k _ =>
      have hsub := flatten_filter_sublist s.hash k fun ts => !s.dead.contains ts.id
      have hsize : (s.hash.modify k (List.filter fun ts => !s.dead.contains ts.id)).length =
          s.size := List.length_modify ..
      refine ⟨h.rebuild ?_ ?_ ⟨_, List.Perm.refl _, hsub⟩ (fun ts hts => ⟨hts, ?_⟩) rfl rfl,
        fun ts hts => hsub.subset hts, hsize, rfl, rfl⟩
      · exact hsize ▸ h.size_pos
      · simp only [State.size, List.length_modify]
        exact h.placed.filter k _
      · -- a string that is alive is not dead, so it is not filtered out
        obtain ⟨hin, halive⟩ := h.live ts hts
        exact mem_flatten_filter (by simpa using halive) hin

theorem Waiting.sweepstrstep (ht : Table mem s) (h : Waiting mem s) :
    Waiting mem (sweepstrstep s) := by
  obtain ⟨-, hsub, hsize, hframes, hresizing⟩ := sweepstrstep_spec ht
  refine ⟨fun f hf => ?_, ?_, fun newsize c hc => ?_⟩
  · exact (h.waits f (hframes ▸ hf)).subset hsub
  · rw [hframes, hresizing]
    exact h.growing
  · rw [hsize]
    exact h.newsize newsize c (hframes ▸ hc)

/-- No creation waits to resize the table. -/
theorem Waiting.idle (h : Waiting mem s) (hidle : s.resizing = false) :
    s.frames.countP Frame.grows = 0 := by
  have hgrowing := h.growing
  rwa [hidle] at hgrowing

theorem not_growing {fs : List Frame} (hcount : fs.countP Frame.grows = 0) :
    .growing newsize c ∉ fs := by
  intro hc
  exact List.countP_eq_zero.mp hcount _ hc rfl

theorem idle_of_not_stopsResize (h : ¬s.stopsResize newsize = true) : s.resizing = false := by
  rw [State.stopsResize, Bool.or_eq_true, not_or] at h
  exact Bool.eq_false_iff.mpr h.2

/-- A table gets smaller, with all strings in it. -/
theorem take_rehashTo_spec (ht : Table mem s) (h : Waiting mem s) (hidle : s.resizing = false)
    (hnewsize : 0 < newsize) (hle : newsize ≤ s.size) :
    Table mem { s with hash := (rehashTo newsize s.hash s.size).take newsize } ∧
      Waiting mem { s with hash := (rehashTo newsize s.hash s.size).take newsize } := by
  have hrest (i : Nat) (b : List TString) (hi : s.size ≤ i) (hb : s.hash[i]? = some b) :
      b = [] := by
    rw [List.getElem?_eq_none hi] at hb
    cases hb
  obtain ⟨hplaced, hperm, hlen⟩ := rehashTo_spec hnewsize hle hrest
  have hsize : ((rehashTo newsize s.hash s.size).take newsize).length = newsize := by
    rw [List.length_take, hlen]
    exact Nat.min_eq_left hle
  -- what is cut off is empty behind the rehash
  have hstrings : ((rehashTo newsize s.hash s.size).take newsize).flatten.Perm s.strings := by
    rw [hplaced.flatten_take fun ts => lmod_lt ts.hash hnewsize]
    exact hperm
  refine ⟨ht.rebuild ?_ ?_ ⟨s.strings, hstrings, List.Sublist.refl _⟩ (fun ts hts => ?_) rfl rfl,
    ⟨fun f hf => ?_, h.growing, fun newsize c hc => ?_⟩⟩
  · exact Nat.lt_of_lt_of_eq hnewsize hsize.symm
  · simp only [State.size] at hsize ⊢
    rw [hsize]
    exact hplaced.take _
  · exact ⟨hts, hstrings.mem_iff.mpr (ht.live ts hts).1⟩
  · exact (h.waits f hf).subset fun ts hts => hstrings.mem_iff.mp hts
  · -- nothing waits with a size for the table
    exact absurd hc (not_growing (h.idle hidle))

/-- `checkSizes`, where a smaller table can be had. -/
theorem checkSizes_spec (ht : Table mem s) (h : Waiting mem s) {ok : Bool} {frames : Nat}
    (hmet : Met s (.checkSizes ok frames)) :
    Table mem (checkSizes ok frames s) ∧ Waiting mem (checkSizes ok frames s) := by
  rw [checkSizes]
  split
  · next hbig =>
      obtain ⟨ht', -, hsize, -, -⟩ := sweepstrstep_spec ht
      have hw' := h.sweepstrstep ht
      rw [shrink]
      dsimp only
      split
      · exact ⟨ht', hw'⟩
      · next hstops =>
          -- only here a reallocation is tried
          have hok : ok = true := hmet hbig (Bool.eq_false_iff.mpr hstops)
          have hhalf : 0 < s.size / 2 := by
            rw [State.tooBig, Bool.and_eq_true, decide_eq_true_eq, decide_eq_true_eq,
              MINSTRTABSIZE] at hbig
            omega
          have hle : s.size / 2 ≤ (sweepstrstep s).size := by
            rw [hsize]
            exact Nat.div_le_self _ _
          rw [if_pos hok]
          exact take_rehashTo_spec ht' hw' (idle_of_not_stopsResize hstops) hhalf hle
  · exact ⟨ht, h⟩

/-! ### Creations that begin -/

/-- One more creation waits for the memory of its string. -/
theorem Waiting.allocating (h : Waiting mem s) (hc : Waits mem s c) :
    Waiting mem { s with frames := .allocating c :: s.frames } := by
  refine ⟨fun f hf => ?_, ?_, fun newsize c' hc' => ?_⟩
  · rcases List.mem_cons.mp hf with rfl | hf
    · exact hc.subset fun _ hts => hts
    · exact (h.waits f hf).subset fun _ hts => hts
  · rw [List.countP_cons_of_neg Bool.false_ne_true]
    exact h.growing
  · rcases List.mem_cons.mp hc' with heq | hc'
    · cases heq
    · exact h.newsize newsize c' hc'

/-- A creation waits for a larger table. -/
theorem Waiting.grow (h : Waiting mem s) (hidle : s.resizing = false) (hc : Waits mem s c) :
    Waiting mem { s with resizing := true, frames := .growing (s.size * 2) c :: s.frames } := by
  refine ⟨fun f hf => ?_, ?_, fun newsize c' hc' => ?_⟩
  · rcases List.mem_cons.mp hf with rfl | hf
    · exact hc.subset fun _ hts => hts
    · exact (h.waits f hf).subset fun _ hts => hts
  · rw [List.countP_cons_of_pos rfl, h.idle hidle]
    rfl
  · rcases List.mem_cons.mp hc' with heq | hc'
    · cases heq
      rfl
    · exact absurd hc' (not_growing (h.idle hidle))

/-- A creation begins, with a larger table if it can be had. -/
theorem newlstr_spec (ht : Table mem s) (h : Waiting mem s) (hc : Waits mem s c) :
    Table mem (newlstr c s) ∧ Waiting mem (newlstr c s) := by
  rw [newlstr]
  split
  · -- `luaS_resize` sweeps before it looks at the size
    obtain ⟨ht', hsub, hsize, -, -⟩ := sweepstrstep_spec ht
    have hw' := h.sweepstrstep ht
    have hc' := hc.subset hsub
    rw [startGrowing]
    split
    · exact ⟨ht'.frames _ _, hw'.allocating hc'⟩
    · next hstops =>
        refine ⟨ht'.frames _ _, ?_⟩
        rw [← hsize]
        exact hw'.grow (idle_of_not_stopsResize hstops) hc'
  · exact ⟨ht.frames _ _, h.allocating hc⟩

/-- No string of the table has bytes that the lookup does not find. -/
theorem absent_of_find {bytes : List UInt8} (ht : Table mem s)
    (hfind : (s.hash[lmod (hashOf bytes) s.size]?.getD []).find?
      (fun ts => ts.len == bytes.length && getstr mem ts == bytes) = none) :
    ∀ ts ∈ s.strings, ts.created ≠ bytes := by
  rintro ts hts rfl
  -- it would be in the chain that was searched
  have hin := ht.placed.mem_flatten.mp hts
  rw [ht.hash ts hts] at hin
  have hother := List.find?_eq_none.mp hfind ts hin
  rw [ht.len ts hts, ht.read ts hts] at hother
  simp at hother

/-- A creation finds its string, or begins. -/
theorem luaSNewlstrHelper_spec {str : Nat} {bytes : List UInt8} {readonly : Bool}
    (ht : Table mem s) (h : Waiting mem s)
    (hreadonly : readonly = true → mem.read str bytes.length = bytes) :
    Table mem (luaSNewlstrHelper mem str bytes readonly s) ∧
      Waiting mem (luaSNewlstrHelper mem str bytes readonly s) := by
  rw [luaSNewlstrHelper]
  split
  · next ts hfind =>
      have hin : ts ∈ s.strings := by
        have hchain := List.mem_of_find?_eq_some hfind
        cases hbucket : s.hash[lmod (hashOf bytes) s.size]? with
        | none => simp [hbucket] at hchain
        | some b =>
          rw [hbucket] at hchain
          exact List.mem_flatten.mpr ⟨b, List.mem_of_getElem? hbucket, hchain⟩
      refine ⟨⟨ht.size_pos, ht.placed, ht.hash, ht.len, ht.read, ht.unique, fun ts' hts' => ?_,
        fun id hid => ht.fresh id (List.mem_of_mem_filter hid)⟩,
        ⟨fun f hf => ?_, h.growing, h.newsize⟩⟩
      · -- the string that was found is alive again
        rcases List.mem_cons.mp hts' with rfl | hts'
        · exact ⟨hin, fun hdead => by simp at hdead⟩
        · exact ⟨(ht.live ts' hts').1,
            fun hdead => (ht.live ts' hts').2 (List.mem_of_mem_filter hdead)⟩
      · exact (h.waits f hf).subset fun _ hts => hts
  · next hfind =>
      refine newlstr_spec ht h ⟨rfl, fun str' hstr => ?_, absent_of_find ht hfind⟩
      dsimp only at hstr
      split at hstr
      · next hro =>
          cases hstr
          exact hreadonly hro
      · cases hstr

/-! ### Creations that go on -/

theorem getstr_newString (hc : Waits mem s c) (id : Nat) :
    getstr mem (newString c id) = c.bytes := by
  rw [getstr, newString]
  cases hreadonly : c.readonly with
  | some str => exact hc.readonly str hreadonly
  | none     => exact List.take_left

/-- A string gets into the table. Nothing that waits may have the same bytes. -/
theorem linkString_spec (ht : Table mem s) (h : Waiting mem s) (hc : Waits mem s c)
    (hothers : ∀ f ∈ s.frames, f.creation.bytes ≠ c.bytes) :
    Table mem (linkString c s) ∧ Waiting mem (linkString c s) := by
  have hperm : (linkString c s).strings.Perm (newString c s.nextId :: s.strings) :=
    flatten_push_perm (lmod_lt c.hash ht.size_pos)
  have hsize : (linkString c s).size = s.size := length_push _ _ _
  have hmem (ts : TString) :
      ts ∈ (linkString c s).strings ↔ ts = newString c s.nextId ∨ ts ∈ s.strings := by
    rw [hperm.mem_iff, List.mem_cons]
  refine ⟨⟨?_, ?_, fun ts hts => ?_, fun ts hts => ?_, fun ts hts => ?_, ?_, fun ts hts => ?_,
    fun id hid => Nat.lt_succ_of_lt (ht.fresh id hid)⟩, ⟨fun f hf => ?_, h.growing, ?_⟩⟩
  · exact hsize ▸ ht.size_pos
  · rw [hsize]
    exact ht.placed.push
  · rcases (hmem ts).mp hts with rfl | hts
    · exact hc.hash
    · exact ht.hash ts hts
  · rcases (hmem ts).mp hts with rfl | hts
    · rfl
    · exact ht.len ts hts
  · rcases (hmem ts).mp hts with rfl | hts
    · exact getstr_newString hc _
    · exact ht.read ts hts
  · rw [(hperm.map _).nodup_iff, List.map_cons, List.nodup_cons]
    refine ⟨fun hin => ?_, ht.unique⟩
    -- the lookup has not found its bytes, and none came since
    obtain ⟨ts, hts, heq⟩ := List.mem_map.mp hin
    exact hc.absent ts hts heq
  · rcases List.mem_cons.mp hts with rfl | hts
    · exact ⟨(hmem _).mpr (.inl rfl), fun hdead => Nat.lt_irrefl _ (ht.fresh _ hdead)⟩
    · exact ⟨(hmem ts).mpr (.inr (ht.live ts hts).1), (ht.live ts hts).2⟩
  · -- the creations below wait for other bytes
    refine ⟨(h.waits f hf).hash, (h.waits f hf).readonly, fun ts hts => ?_⟩
    rcases (hmem ts).mp hts with rfl | hts
    · exact (hothers f hf).symm
    · exact (h.waits f hf).absent ts hts
  · rw [hsize]
    exact h.newsize

/-- The table is reallocated to twice its size, and rehashed. -/
theorem grown_spec (ht : Table mem s) (h : Waiting mem s) {fs : List Frame}
    (hframes : s.frames = .growing newsize c :: fs) :
    Table mem (resume s) ∧ Waiting mem (resume s) := by
  have hgrowing := h.growing
  have hwaits := h.waits
  have hnewsize := h.newsize
  rw [hframes] at hgrowing hwaits hnewsize
  rw [List.countP_cons_of_pos rfl] at hgrowing
  -- this is the one creation that waits for a larger table
  have hcount : fs.countP Frame.grows = 0 := by
    split at hgrowing <;> omega
  have hpos := ht.size_pos
  have hsize := hnewsize newsize c (List.mem_cons_self ..)
  let hash := s.hash ++ List.replicate (newsize - s.size) []
  have hlen : hash.length = newsize := by
    simp only [hash, List.length_append, List.length_replicate]
    change s.size + _ = _
    omega
  -- the new buckets are empty
  have hflatten : hash.flatten = s.strings := by
    simp only [hash, List.flatten_append, List.flatten_replicate_nil, List.append_nil]
    rfl
  have hrest (i : Nat) (b : List TString) (hi : s.size ≤ i) (hb : hash[i]? = some b) : b = [] := by
    rw [List.getElem?_append_right hi] at hb
    exact List.eq_of_mem_replicate (List.mem_of_getElem? hb)
  obtain ⟨hplaced, hperm, hlen'⟩ := rehashTo_spec (by omega) (Nat.le_of_eq hlen.symm) hrest
  rw [hflatten] at hperm
  rw [resume, hframes]
  refine ⟨ht.rebuild ?_ ?_ ⟨s.strings, hperm, List.Sublist.refl _⟩ (fun ts hts => ?_) rfl rfl,
    ⟨fun f hf => ?_, ?_, fun newsize' c' hc' => ?_⟩⟩
  · exact Nat.lt_of_lt_of_eq (by omega) (hlen'.trans hlen).symm
  · change Placed (fun ts : TString => lmod ts.hash (rehashTo newsize hash s.size).length) _
    rw [hlen'.trans hlen]
    exact hplaced
  · exact ⟨hts, hperm.mem_iff.mpr (ht.live ts hts).1⟩
  · have hsub (ts : TString) (hts : ts ∈ (rehashTo newsize hash s.size).flatten) : ts ∈ s.strings :=
      hperm.mem_iff.mp hts
    rcases List.mem_cons.mp hf with rfl | hf
    · exact (hwaits _ (List.mem_cons_self ..)).subset hsub
    · exact (hwaits f (List.mem_cons_of_mem _ hf)).subset hsub
  · rw [List.countP_cons_of_neg Bool.false_ne_true, hcount]
    rfl
  · rcases List.mem_cons.mp hc' with heq | hc'
    · cases heq
    · exact absurd hc' (not_growing hcount)

/-- Fewer creations wait, none of those that left to resize the table. -/
theorem Waiting.drop (h : Waiting mem s) {n : Nat}
    (hnone : ∀ f ∈ s.frames.take n, f.grows = false) :
    Waiting mem { s with frames := s.frames.drop n } := by
  refine ⟨fun f hf => ?_, ?_, fun newsize c hc => h.newsize newsize c (List.mem_of_mem_drop hc)⟩
  · exact (h.waits f (List.mem_of_mem_drop hf)).subset fun _ hts => hts
  · have htake : (s.frames.take n).countP Frame.grows = 0 :=
      List.countP_eq_zero.mpr fun f hf => Bool.eq_false_iff.mp (hnone f hf)
    have hgrowing := h.growing
    rwa [← List.take_append_drop n s.frames, List.countP_append, htake, Nat.zero_add] at hgrowing

/-- The last creation goes on. -/
theorem resume_spec (ht : Table mem s) (h : Waiting mem s) (hmet : Met s .alloc) :
    Table mem (resume s) ∧ Waiting mem (resume s) := by
  cases hframes : s.frames with
  | nil =>
    rw [resume, hframes]
    exact ⟨ht, h⟩
  | cons f fs =>
    cases f with
    | growing newsize c => exact grown_spec ht h hframes
    | allocating c =>
      simp only [Met, hframes] at hmet
      rw [resume, hframes]
      -- a creation that waits for its string resizes nothing
      have hdrop : Waiting mem { s with frames := fs } := by
        have hone := h.drop (n := 1) (by rw [hframes]; simp [Frame.grows])
        rwa [hframes] at hone
      have hc := h.waits (.allocating c) (hframes ▸ List.mem_cons_self ..)
      exact linkString_spec (ht.frames s.resizing fs) hdrop
        ⟨hc.hash, hc.readonly, hc.absent⟩ hmet

/-! ### Runs -/

/-- Every event that meets the condition keeps the table and what
waits. -/
theorem step_spec {e : Event} (ht : Table mem s) (h : Waiting mem s) (hmet : Met s e)
    (hstep : step ro mem s e = some s') : Table mem s' ∧ Waiting mem s' := by
  rw [step, Option.ite_none_right_eq_some] at hstep
  obtain ⟨hpossible, heq⟩ := hstep
  rw [← Option.some.inj heq]
  cases e with
  | newlstr str bytes =>
    refine luaSNewlstrHelper_spec ht h fun hreadonly => ?_
    -- the bytes are read-only, and there
    rw [Bool.and_eq_true] at hreadonly
    simpa [Event.possible, hreadonly.1] using hpossible
  | newrolstr str bytes =>
    exact luaSNewlstrHelper_spec ht h fun _ => by simpa [Event.possible] using hpossible
  | alloc => exact resume_spec ht h hmet
  | error frames => exact ⟨ht.frames _ _, h.drop hmet⟩
  | atomic dead =>
    simp only [Event.possible, Bool.and_eq_true, List.all_eq_true, decide_eq_true_eq] at hpossible
    refine ⟨⟨ht.size_pos, ht.placed, ht.hash, ht.len, ht.read, ht.unique, fun ts hts => ?_,
      hpossible.2⟩, ⟨fun f hf => ?_, h.growing, h.newsize⟩⟩
    · have halive : ts.id ∉ dead := by simpa using hpossible.1 ts hts
      exact ⟨(ht.live ts hts).1, halive⟩
    · exact (h.waits f hf).subset fun _ hts => hts
  | sweep => exact ⟨(sweepstrstep_spec ht).1, h.sweepstrstep ht⟩
  | checkSizes ok frames => exact checkSizes_spec ht h hmet
  | release keep =>
    refine ⟨⟨ht.size_pos, ht.placed, ht.hash, ht.len, ht.read, ht.unique,
      fun ts hts => ht.live ts (List.mem_of_mem_filter hts), ht.fresh⟩,
      ⟨fun f hf => ?_, h.growing, h.newsize⟩⟩
    exact (h.waits f hf).subset fun _ hts => hts

theorem table_init : Table mem {} where
  size_pos := by decide
  placed := by
    intro i b hb ts hts
    rw [List.eq_of_mem_replicate (List.mem_of_getElem? hb)] at hts
    cases hts
  hash := by rintro ts ⟨⟩
  len := by rintro ts ⟨⟩
  read := by rintro ts ⟨⟩
  unique := List.nodup_nil
  live := by rintro ts ⟨⟩
  fresh := by rintro id ⟨⟩

theorem waiting_init : Waiting mem {} :=
  ⟨by rintro f ⟨⟩, rfl, by rintro newsize c ⟨⟩⟩

theorem consistent_of_table (ht : Table mem s) (h : Waiting mem s) : Consistent mem s := by
  refine ⟨fun ts hts => ?_, fun ts hts ts' hts' heq => ?_, fun ts hts => ?_, fun hresizing => ?_⟩
  · obtain ⟨hin, -⟩ := ht.live ts hts
    rw [← ht.hash ts hin]
    exact ht.placed.mem_flatten.mp hin
  · obtain ⟨hin, -⟩ := ht.live ts hts
    obtain ⟨hin', -⟩ := ht.live ts' hts'
    rw [ht.read ts hin, ht.read ts' hin'] at heq
    exact List.inj_on_of_nodup_map ht.unique hin hin' heq
  · exact ht.read ts (ht.live ts hts).1
  · have hgrowing := h.growing
    rw [hresizing, if_pos rfl] at hgrowing
    exact List.countP_pos_iff.mp (hgrowing ▸ Nat.one_pos)

/-- **The string table**: as long as no error leaves a frame that
resizes the table, a smaller table can always be had, and no creation
ends inside another of the same bytes, the table stays consistent:
every string is in the bucket of its hash, and no two have the same
bytes. -/
theorem run_consistent (es : List Event) (hmet : AllSteps (step ro mem) Met {} es)
    (hrun : run (step ro mem) {} es = some s) : Consistent mem s := by
  have hinv : Table mem s ∧ Waiting mem s :=
    invariant_run (I := fun s => Table mem s ∧ Waiting mem s)
      (fun _ _ _ hs hok hstep => step_spec hs.1 hs.2 hok hstep) es {} s
      ⟨table_init, waiting_init⟩ hmet hrun
  exact consistent_of_table hinv.1 hinv.2

/-- Creates a string inside the creation of another. -/
def nested : List Event := [.newlstr 0 [97], .newlstr 0 [98], .alloc, .alloc]

/-- Two strings, one of which is created while the other waits for its
memory. -/
theorem run_consistent_nested :
    ∃ s, run (step (fun _ => false) fun _ => 0) {} nested = some s ∧ s.strings.length = 2 ∧
      Consistent (fun _ => 0) s := by
  have hmet : AllSteps (step (fun _ => false) fun _ => 0) Met {} nested := by decide
  exact ⟨_, rfl, by decide, run_consistent nested hmet rfl⟩

/-- The strings of one byte. -/
def oneByte (n : Nat) : List Event :=
  (List.range n).flatMap fun i => [.newlstr 0 [UInt8.ofNat i], .alloc]

/-- There is no memory for the larger table at the 33rd string. -/
theorem not_always_consistent :
    ¬∀ (es : List Event) (s : State), run (step (fun _ => false) fun _ => 0) {} es = some s →
      Consistent (fun _ => 0) s := by
  intro h
  have hruns : (run (step (fun _ => false) fun _ => 0) {}
      (oneByte 32 ++ [.newlstr 0 [32], .error 1])).map (fun s => (s.resizing, s.frames.length)) =
        some (true, 0) := by
    decide +kernel
  obtain ⟨s, hrun, hs⟩ := Option.map_eq_some_iff.mp hruns
  obtain ⟨hresizing, hframes⟩ := Prod.mk.inj hs
  obtain ⟨f, hf, -⟩ := (h _ s hrun).resizable hresizing
  rw [List.length_eq_zero_iff.mp hframes] at hf
  cases hf

end Alcor.Proofs.Lua.Strings
