import Alcor.Adc.Smoothing
import Mathlib.Algebra.Order.Group.Nat
import Mathlib.Data.List.Induction

/-!
# `Alcor.Proofs.Adc.Sequence`: the sequence after an update

Between two updates the sequence is that of `last_ch_active` (`Kept`).

* `placed_foldl` and `rebuild_sequenced`: an update leaves the right
  sequence from everywhere.
* `Kept.updated`, `Kept.sampled` and `Kept.step`: every event keeps the
  invariant.
* `none_notMem_rebuild` and `Kept.none_notMem_iff`: what an update reads
  is `NULL` in two cases. It reads the current entry first, which is
  `NULL` while the sequence is empty, and it sets up the sequencer, which
  reads the first entry of an empty sequence as well.
* `updates_iff` is the result about every run.
-/

set_option autoImplicit false

namespace Alcor.Proofs.Adc

open Alcor.Adc.Device Lib.Run

variable {n : Nat}
variable {d d' : Dev n} {chs : List (Fin n)}

/-! ### The channels are placed -/

/-- The active channels of `l` are placed in the sequence of `d`. -/
structure Placed (d : Dev n) (l : List (Fin n)) (p : Dev n × Nat) : Prop where
  chActive : p.1.chActive = d.chActive
  running : p.1.running = d.running
  seqCtr : p.1.seqCtr = (l.filter (isActive d.chActive)).length
  entries : ∀ i, p.1.chState i =
    if i < (l.filter (isActive d.chActive)).length then (l.filter (isActive d.chActive))[i]?
    else d.chState i
  slots : ∀ i id, (l.filter (isActive d.chActive))[i]? = some id → p.1.valuePtr id = some i
  current : p.2 < (l.filter (isActive d.chActive)).length ∨ p.2 = 0

theorem place_chState (d : Dev n) (id : Fin n) (i : Nat) :
    (d.place id).chState i = if i = d.seqCtr then some id else d.chState i :=
  Function.update_apply ..

theorem place_valuePtr (d : Dev n) (id id' : Fin n) :
    (d.place id).valuePtr id' = if id' = id then some d.seqCtr else d.valuePtr id' :=
  Function.update_apply ..

/-- One step of the loop: the next active channel is behind those that
are placed. -/
theorem Placed.snoc {l : List (Fin n)} {p : Dev n × Nat} (h : Placed d l p) (previd : Nat)
    {id : Fin n} (hid : id ∉ l) : Placed d (l ++ [id]) (placeChannel previd p id) := by
  by_cases hact : isActive d.chActive id
  · have hfilter : (l ++ [id]).filter (isActive d.chActive) =
        l.filter (isActive d.chActive) ++ [id] := by
      rw [List.filter_append, List.filter_cons_of_pos hact, List.filter_nil]
    have hplace : placeChannel previd p id =
        (p.1.place id, if id.val = previd then p.1.seqCtr else p.2) := by
      rw [placeChannel, h.chActive, if_pos hact]
    rw [hplace]
    -- the channel is behind those placed so far
    refine ⟨h.chActive, h.running, ?_, fun i => ?_, fun i id' hid' => ?_, ?_⟩
    · rw [hfilter, List.length_append, ← h.seqCtr]
      rfl
    · rw [hfilter, List.length_append, List.length_singleton, place_chState, h.seqCtr,
        h.entries]
      rcases Nat.lt_trichotomy i (l.filter (isActive d.chActive)).length with hlt | heq | hgt
      · rw [if_neg (Nat.ne_of_lt hlt), if_pos hlt, if_pos (Nat.lt_succ_of_lt hlt),
          List.getElem?_append_left hlt]
      · rw [if_pos heq, if_pos (heq ▸ Nat.lt_succ_self _), heq, List.getElem?_concat_length]
      · rw [if_neg (Nat.ne_of_gt hgt), if_neg (Nat.not_lt_of_gt hgt),
          if_neg (Nat.not_lt_of_le hgt)]
    · rw [hfilter] at hid'
      rw [place_valuePtr, h.seqCtr]
      rcases Nat.lt_or_ge i (l.filter (isActive d.chActive)).length with hlt | hge
      · -- a channel placed before is another one
        rw [List.getElem?_append_left hlt] at hid'
        have hmem := List.mem_of_mem_filter (List.mem_of_getElem? hid')
        have hne : id' ≠ id := fun heq => hid (heq ▸ hmem)
        rw [if_neg hne]
        exact h.slots i id' hid'
      · rw [List.getElem?_append_right hge, List.getElem?_singleton] at hid'
        split at hid'
        · next hzero =>
            rw [if_pos (Option.some.inj hid').symm]
            exact congrArg some (Nat.le_antisymm hge (Nat.sub_eq_zero_iff_le.mp hzero))
        · cases hid'
    · rw [hfilter, List.length_append, List.length_singleton]
      split
      · exact .inl (h.seqCtr ▸ Nat.lt_succ_self _)
      · exact h.current.imp_left Nat.lt_succ_of_lt
  · -- it is not active, and nothing changes
    have hfilter : (l ++ [id]).filter (isActive d.chActive) = l.filter (isActive d.chActive) := by
      rw [List.filter_append, List.filter_cons_of_neg hact, List.filter_nil, List.append_nil]
    have hplace : placeChannel previd p id = p := by
      rw [placeChannel, h.chActive, if_neg hact]
    rw [hplace]
    refine ⟨h.chActive, h.running, ?_, ?_, ?_, ?_⟩ <;> rw [hfilter]
    exacts [h.seqCtr, h.entries, h.slots, h.current]

theorem placed_foldl (previd : Nat) (d : Dev n) (l : List (Fin n)) (hnodup : l.Nodup) :
    Placed d l (l.foldl (placeChannel previd) ({ d with seqCtr := 0 }, 0)) := by
  induction l using List.reverseRecOn with
  | nil => exact ⟨rfl, rfl, rfl, fun _ => rfl, fun _ _ h => (nomatch h), .inr rfl⟩
  | append_singleton l id ih =>
    obtain ⟨hl, -, hdisj⟩ := List.nodup_append.mp hnodup
    rw [List.foldl_append]
    exact (ih hl).snoc previd fun hid => hdisj id hid id (List.mem_singleton_self id) rfl

/-! ### The rest of the sequence -/

/-- The entries behind the placed channels are `NULL`. -/
theorem nullRest_eq (k : Nat) :
    ∀ d : Dev n, nullRest k d =
      { d with
        chState := fun i => if d.seqCtr ≤ i ∧ i < d.seqCtr + k then none else d.chState i
        seqCtr := d.seqCtr + k } := by
  induction k with
  | zero =>
    intro d
    have hnone (i : Nat) : ¬ (d.seqCtr ≤ i ∧ i < d.seqCtr + 0) := by omega
    simp only [nullRest, if_neg (hnone _)]
    rfl
  | succ k ih =>
    intro d
    rw [nullRest, ih]
    congr 1
    · funext i
      -- the first entry, and those behind it
      simp only [Function.update_apply]
      grind
    · simp only [Nat.add_assoc, Nat.add_comm 1 k]

/-! ### An update -/

theorem activeChannels_length_le (active : BitVec 32) :
    (activeChannels active : List (Fin n)).length ≤ n :=
  (List.length_filter_le _ _).trans (List.length_finRange).le

/-- The sequence is rebuilt for the active channels, whatever it was before. -/
theorem rebuild_sequenced (previd : Nat) (d : Dev n) (hlen : chs.length ≤ n)
    (hold : ∀ i, d.chState i = chs[i]?) :
    (rebuild previd d).1.Sequenced (activeChannels d.chActive) ∧
      (rebuild previd d).1.chActive = d.chActive ∧
      (rebuild previd d).1.lastChActive = d.chActive ∧
      (rebuild previd d).1.running = d.running := by
  have hplaced := placed_foldl previd d (List.finRange n) (List.nodup_finRange n)
  have hle := activeChannels_length_le (n := n) d.chActive
  rw [rebuild]
  generalize (List.finRange n).foldl (placeChannel previd) ({ d with seqCtr := 0 }, 0) = p
    at hplaced
  obtain ⟨d', tmp⟩ := p
  simp only [nullRest_eq]
  refine ⟨⟨hplaced.seqCtr, fun i => ?_, hplaced.slots, ?_⟩, hplaced.chActive, hplaced.chActive,
    hplaced.running⟩
  · have hentry := hplaced.entries i
    have hctr : d'.seqCtr = (activeChannels d.chActive : List (Fin n)).length := hplaced.seqCtr
    change d'.chState i = if i < (activeChannels d.chActive : List (Fin n)).length then
      (activeChannels d.chActive)[i]? else d.chState i at hentry
    simp only [hctr]
    rw [hentry]
    rcases Nat.lt_or_ge i (activeChannels d.chActive : List (Fin n)).length with hlt | hge
    · rw [if_neg (fun h => Nat.not_le_of_lt hlt h.1), if_pos hlt]
    · rw [if_neg (Nat.not_lt_of_le hge), List.getElem?_eq_none hge, ite_eq_left_iff]
      -- behind the sequence of all channels nothing is ever placed
      intro hbehind
      rw [hold, List.getElem?_eq_none (by omega)]
  · rw [hplaced.seqCtr]
    exact hplaced.current

theorem none_notMem_platformAdcUpdateSequence (hlen : d.seqLen = chs.length)
    (hentries : ∀ i, d.chState i = chs[i]?) : none ∉ platformAdcUpdateSequence d ↔ chs ≠ [] := by
  have hnone (i : Nat) : none = d.chState i ↔ chs.length ≤ i := by
    rw [hentries, eq_comm, List.getElem?_eq_none_iff]
  rw [platformAdcUpdateSequence, List.mem_append, List.mem_singleton, List.mem_map, hnone, hlen,
    ← List.length_pos_iff]
  constructor
  · intro h
    by_contra hzero
    -- without a channel the last entry is the first one, which is `NULL`
    exact h (.inr (by omega))
  · rintro hpos (⟨i, hi, heq⟩ | hle)
    · have hle := (hnone i).mp heq.symm
      have hlt := List.mem_range.mp hi
      omega
    · omega

/-- The sequencer is set up from the entries of the new sequence. -/
theorem none_notMem_rebuild (previd : Nat) (d : Dev n) (hlen : chs.length ≤ n)
    (hold : ∀ i, d.chState i = chs[i]?) :
    none ∉ (rebuild previd d).2 ↔ (activeChannels d.chActive : List (Fin n)) ≠ [] := by
  obtain ⟨hseq, -⟩ := rebuild_sequenced previd d hlen hold
  obtain ⟨d', hentries, hseqLen, hstate⟩ : ∃ d' : Dev n,
      (rebuild previd d).2 = platformAdcUpdateSequence d' ∧
        d'.seqLen = (rebuild previd d).1.seqLen ∧ d'.chState = (rebuild previd d).1.chState :=
    ⟨_, rfl, rfl, rfl⟩
  rw [hentries]
  exact none_notMem_platformAdcUpdateSequence (hseqLen.trans hseq.seqLen)
    fun i => (congrFun hstate i).trans (hseq.entries i)

/-- The device between two updates. -/
def Kept (d : Dev n) : Prop := d.Sequenced (activeChannels d.lastChActive)

theorem Kept.updated (h : Kept d) (nullId : Nat) :
    (adcUpdateDevSequence nullId d).1.Sequenced (activeChannels d.chActive) ∧
      Kept (adcUpdateDevSequence nullId d).1 := by
  rw [adcUpdateDevSequence]
  split
  · obtain ⟨hseq, -, hlast, -⟩ :=
      rebuild_sequenced _ d (activeChannels_length_le _) h.entries
    refine ⟨hseq, ?_⟩
    rw [Kept, hlast]
    exact hseq
  · next hstale =>
      have heq : d.chActive = d.lastChActive := by
        rw [Dev.stale, Bool.or_eq_true, not_or, decide_eq_true_eq, not_ne_iff] at hstale
        exact hstale.1
      exact ⟨heq ▸ h, h⟩

/-- What the update reads is `NULL` when the sequence is empty, and when the new one is. -/
theorem Kept.none_notMem_iff (h : Kept d) (nullId : Nat) :
    none ∉ (adcUpdateDevSequence nullId d).2 ↔
      0 < d.seqLen ∧ (d.stale → ∃ id : Fin n, isActive d.chActive id) := by
  -- the entry that the update looks at first
  have hcur : ¬ none = d.chState d.seqCtr ↔ 0 < d.seqLen := by
    rw [eq_comm, h.entries, List.getElem?_eq_none_iff, ← h.seqLen, Nat.not_le]
    have := h.seqCtr
    omega
  have hactive : (activeChannels d.chActive : List (Fin n)) ≠ [] ↔
      ∃ id : Fin n, isActive d.chActive id := by
    rw [activeChannels, Ne, List.filter_eq_nil_iff]
    push Not
    exact ⟨fun ⟨id, _, hid⟩ => ⟨id, hid⟩, fun ⟨id, hid⟩ => ⟨id, List.mem_finRange id, hid⟩⟩
  rw [adcUpdateDevSequence]
  split
  · next hstale =>
      simp only [hstale, forall_const]
      rw [List.mem_cons, not_or, hcur, ← hactive,
        none_notMem_rebuild _ d (activeChannels_length_le _) h.entries]
  · next hstale =>
      rw [List.mem_singleton, hcur]
      exact ⟨fun hpos => ⟨hpos, fun hs => absurd hs hstale⟩, And.left⟩

/-! ### Runs -/

/-- The sequence is the same, but for the counter. -/
structure SameSequence (d d' : Dev n) : Prop where
  chState : d'.chState = d.chState
  valuePtr : d'.valuePtr = d.valuePtr
  lastChActive : d'.lastChActive = d.lastChActive
  seqLen : d'.seqLen = d.seqLen

theorem SameSequence.trans {a b c : Dev n} (hab : SameSequence a b) (hbc : SameSequence b c) :
    SameSequence a c :=
  ⟨hbc.chState.trans hab.chState, hbc.valuePtr.trans hab.valuePtr,
    hbc.lastChActive.trans hab.lastChActive, hbc.seqLen.trans hab.seqLen⟩

theorem Kept.same (h : Kept d) (hsame : SameSequence d d')
    (hctr : d'.seqCtr = d.seqCtr ∨ d'.seqCtr = 0) : Kept d' := by
  rw [Kept, hsame.lastChActive]
  refine ⟨hsame.seqLen.trans h.seqLen, fun i => (congrFun hsame.chState i).trans (h.entries i),
    fun i id hid => (congrFun hsame.valuePtr id).trans (h.slots i id hid), ?_⟩
  rcases hctr with heq | hzero
  · rw [heq, hsame.seqLen]
    exact h.seqCtr
  · exact .inr hzero

theorem sameSequence_stop (id : Fin n) (d : Dev n) :
    SameSequence d (platformAdcStop id d) ∧ (platformAdcStop id d).seqCtr = d.seqCtr := by
  rw [platformAdcStop]
  split
  · exact ⟨⟨rfl, rfl, rfl, rfl⟩, rfl⟩
  · exact ⟨⟨rfl, rfl, rfl, rfl⟩, rfl⟩

theorem sameSequence_sampleEntry (s : Sampled n) (d : Dev n) :
    SameSequence d (sampleEntry s d) := by
  rw [sampleEntry]
  split
  · next id _ =>
      have hfresh : SameSequence d
          { d with valueFresh := Function.update d.valueFresh id (!s.taken id) } :=
        ⟨rfl, rfl, rfl, rfl⟩
      dsimp only
      split
      · exact hfresh.trans (sameSequence_stop id _).1
      · exact hfresh
  · exact ⟨rfl, rfl, rfl, rfl⟩

theorem sameSequence_sampleEntries (s : Sampled n) (k : Nat) :
    ∀ d : Dev n, SameSequence d (sampleEntries s k d) := by
  induction k with
  | zero => exact fun d => ⟨rfl, rfl, rfl, rfl⟩
  | succ k ih =>
    intro d
    obtain ⟨hstate, hptr, hlast, hlen⟩ := sameSequence_sampleEntry s d
    have hnext : SameSequence d { sampleEntry s d with seqCtr := d.seqCtr + 1 } :=
      ⟨hstate, hptr, hlast, hlen⟩
    exact hnext.trans (ih _)

/-- The handler leaves the sequence, with the counter at its start. -/
theorem Kept.sampled (h : Kept d) (s : Sampled n) : Kept (sampleSequence s d) := by
  obtain ⟨hstate, hptr, hlast, hlen⟩ := sameSequence_sampleEntries s d.seqLen { d with seqCtr := 0 }
  exact h.same ⟨hstate, hptr, hlast, hlen⟩ (.inr rfl)

/-- Every event keeps the invariant. -/
theorem Kept.step {nullId : Nat} {e : Event n} (h : Kept d) (hstep : step nullId d e = some d') :
    Kept d' := by
  cases e with
  | setup id bufOk =>
    obtain rfl := Option.some.inj hstep
    rw [adcSetupChannel]
    split
    · exact h.same ⟨rfl, rfl, rfl, rfl⟩ (.inl rfl)
    · exact h
  | stop id =>
    obtain rfl := Option.some.inj hstep
    obtain ⟨hsame, hctr⟩ := sameSequence_stop id d
    exact h.same hsame (.inl hctr)
  | interrupt s =>
    obtain rfl := Option.some.inj hstep
    rw [adcIntHandler]
    split
    · -- the device goes on, and the sequence is updated
      exact ((h.sampled s).updated nullId).2
    · exact h.sampled s
  | start =>
    obtain rfl := Option.some.inj hstep
    rw [platformAdcStartSequence]
    split
    · exact h
    · exact (h.updated nullId).2.same ⟨rfl, rfl, rfl, rfl⟩ (.inl rfl)
  | force =>
    obtain rfl := Option.some.inj hstep
    exact h.same ⟨rfl, rfl, rfl, rfl⟩ (.inl rfl)
  | update =>
    obtain rfl := Option.some.inj hstep
    exact (h.updated nullId).2

/-- Nothing is active before the first update, and nothing is in the sequence. -/
theorem kept_init : Kept ({} : Dev n) := by
  have hempty : (activeChannels 0 : List (Fin n)) = [] := by
    rw [activeChannels, List.filter_eq_nil_iff]
    intro id _
    simp [isActive]
  rw [Kept, hempty]
  exact ⟨rfl, fun _ => rfl, fun _ _ h => (nomatch h), .inr rfl⟩

/-- Where an event enters the update, the invariant holds there. -/
theorem Kept.entry {e : Event n} (h : Kept d) (hentry : e.entry d = some d') : Kept d' := by
  cases e with
  | interrupt s =>
    obtain ⟨-, hsome⟩ := Option.ite_none_right_eq_some.mp hentry
    obtain rfl := Option.some.inj hsome
    exact h.sampled s
  | start =>
    obtain ⟨-, hsome⟩ := Option.ite_none_left_eq_some.mp hentry
    obtain rfl := Option.some.inj hsome
    exact h
  | update =>
    obtain rfl := Option.some.inj hentry
    exact h
  | setup => cases hentry
  | stop => cases hentry
  | force => cases hentry

/-- Wherever a run from the initialised state enters the update, the
update does what it has to exactly when the sequence is not empty, and
some channel is active if it is rebuilt. -/
theorem updates_iff (nullId : Nat) (d : Dev n) (hreach : Reachable (step nullId) {} d)
    (e : Event n) (d' : Dev n) (hentry : e.entry d = some d') :
    d'.Updates nullId ↔ 0 < d'.seqLen ∧ (d'.stale → ∃ id : Fin n, isActive d'.chActive id) := by
  have hkept : Kept d := invariant_reachable (fun _ _ _ h hstep => h.step hstep) kept_init hreach
  have hkept := hkept.entry hentry
  rw [← hkept.none_notMem_iff nullId]
  exact ⟨Dev.Updates.no_null, fun hnull => ⟨hnull, (hkept.updated nullId).1⟩⟩

/-- A second channel joins the first. -/
theorem updates_iff_second :
    ∃ d : Dev 4, run (step 7) {} [.setup 2 true, .start, .setup 0 true] = some d ∧ d.Updates 7 := by
  refine ⟨_, rfl, (updates_iff 7 _ ⟨[.setup 2 true, .start, .setup 0 true], rfl⟩ .update _ rfl).mpr
    ⟨by decide, fun _ => ⟨0, by decide⟩⟩⟩

/-- The first update finds no current entry. -/
theorem not_always_updates :
    ¬ ∀ (nullId : Nat) (d : Dev 4), Reachable (step nullId) {} d →
      ∀ (e : Event 4) (d' : Dev 4), e.entry d = some d' → d'.Updates nullId := by
  intro h
  have hnull := (h 7 _ ⟨[.setup 2 true], rfl⟩ .start _ rfl).no_null
  revert hnull
  decide

end Alcor.Proofs.Adc
