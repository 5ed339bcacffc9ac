import Alcor.Lua.Egc

/-!
# `Alcor.Proofs.Lua.Egc`: when the memory limit is respected

A request is granted below `memlimit - needbytes`, which is the room that
is left as long as the request is not larger than the limit itself.

* `collectLoop_spec` and `lCheckMemlimit_spec`: a request is refused at
  the second pause of the collector, and a collection that began at the
  first one is completed by then.
* `reallocate_granted` and `lAlloc_spec`: what `l_alloc` returns, with
  the emergency collection behind a failed reallocation.
* `respects_of_met` is one request, and `run_respects` the result about
  every run; `not_always_respects` is a request that is larger than the
  limit.
-/

set_option autoImplicit false

namespace Alcor.Proofs.Lua.Egc

open Alcor.Lua.Egc Lib.Run

variable {s s' : State} {p p' : Progress}

/-! ### The collector -/

/-- The collector leaves these alone. A finalizer that calls
`elua.egc_setup` inside of a collection would change them, and is not
among the steps. -/
structure SameMode (s s' : State) : Prop where
  memlimit : s'.memlimit = s.memlimit
  egcmode : s'.egcmode = s.egcmode
  blockGc : s'.blockGc = s.blockGc

theorem SameMode.trans {a b c : State} (hab : SameMode a b) (hbc : SameMode b c) : SameMode a c :=
  ⟨hbc.memlimit.trans hab.memlimit, hbc.egcmode.trans hab.egcmode, hbc.blockGc.trans hab.blockGc⟩

theorem SameMode.hasMode (h : SameMode s s') (bit : Nat) : s'.hasMode bit = s.hasMode bit := by
  rw [State.hasMode, State.hasMode, h.egcmode]

/-- At a pause no collection is under way. -/
def AtRest (s : State) (p : Progress) : Prop := s.gcstate = .pause → p.begun = false

/-- A collection is under way, or completed. -/
def Started (p : Progress) : Prop := p.begun = true ∨ 0 < p.cycles

/-- What a part of the collector does. -/
structure Advances (s : State) (p : Progress) (s' : State) (p' : Progress) : Prop where
  same : SameMode s s'
  atRest : AtRest s p → AtRest s' p'
  started : Started p → Started p'

/-- One step of the collector goes on in its cycle, or starts one from
a pause. -/
theorem singlestep_advances (x : Single) (s : State) (p : Progress) :
    Advances s p (singlestep x s p).1 (singlestep x s p).2 ∧
      (s.gcstate = .pause → Started (singlestep x s p).2) := by
  rw [singlestep]
  cases hgc : s.gcstate with
  | pause =>
    exact ⟨⟨⟨rfl, rfl, rfl⟩, fun _ h => (by cases h), fun _ => Or.inl rfl⟩, fun _ => Or.inl rfl⟩
  -- the phases between leave no pause and count nothing
  | propagate =>
    refine ⟨⟨⟨rfl, rfl, rfl⟩, fun _ h => ?_, id⟩, fun h => by cases h⟩
    cases hmore : x.more <;> simp [hmore] at h
  | sweepstring =>
    refine ⟨⟨⟨rfl, rfl, rfl⟩, fun _ h => ?_, id⟩, fun h => by cases h⟩
    cases hmore : x.more <;> simp [hmore] at h
  | sweep =>
    refine ⟨⟨⟨rfl, rfl, rfl⟩, fun _ h => ?_, id⟩, fun h => by cases h⟩
    cases hmore : x.more <;> simp [hmore] at h
  | finalize =>
    dsimp only
    split
    · exact ⟨⟨⟨rfl, rfl, rfl⟩, fun _ h => (by cases h), id⟩, fun h => by cases h⟩
    · refine ⟨⟨⟨rfl, rfl, rfl⟩, fun _ _ => rfl, fun hstarted => .inr ?_⟩, fun h => by cases h⟩
      dsimp only
      split
      · exact Nat.succ_pos _
      · next hbegun => exact hstarted.resolve_left hbegun

theorem Advances.trans {s'' : State} {p'' : Progress} (h : Advances s p s' p')
    (h' : Advances s' p' s'' p'') : Advances s p s'' p'' :=
  ⟨h.same.trans h'.same, fun hr => h'.atRest (h.atRest hr), fun hs => h'.started (h.started hs)⟩

theorem stepLoop_advances (xs : List Single) :
    ∀ s p, Advances s p (stepLoop xs s p).1 (stepLoop xs s p).2 := by
  induction xs with
  | nil => exact fun s p => ⟨⟨rfl, rfl, rfl⟩, id, id⟩
  | cons x xs ih =>
    intro s p
    rw [stepLoop]
    split
    · exact ⟨⟨rfl, rfl, rfl⟩, id, id⟩
    · exact (singlestep_advances x s p).1.trans (ih _ _)

theorem luaCStep_advances (x : Single × List Single) (s : State) (p : Progress) :
    Advances s p (luaCStep x s p).1 (luaCStep x s p).2 ∧
      (s.gcstate = .pause → Started (luaCStep x s p).2) := by
  obtain ⟨hfirst, hstarted⟩ := singlestep_advances x.1 s p
  have hrest := stepLoop_advances x.2 (singlestep x.1 s p).1 (singlestep x.1 s p).2
  exact ⟨hfirst.trans hrest, fun hpause => hrest.started (hstarted hpause)⟩

/-- At the second pause a collection is completed. -/
theorem cycles_pos {cycleCount : Nat} (hrest : AtRest s p) (hcount : 0 < cycleCount → Started p)
    (hbreak : s.gcstate = .pause ∧ countPause cycleCount s > 1) : 0 < p.cycles := by
  rw [countPause, if_pos hbreak.1] at hbreak
  have hstarted := hcount (Nat.lt_of_succ_lt_succ hbreak.2)
  exact hstarted.resolve_left (by rw [hrest hbreak.1]; decide)

/-- The loop ends below the limit, or behind a full cycle. -/
theorem collectLoop_spec (limit : UInt32) (steps : List (Single × List Single)) :
    ∀ cycleCount s p, AtRest s p → (0 < cycleCount → Started p) →
      collectLoop limit steps cycleCount s p = some (s', p') →
        SameMode s s' ∧ (s'.totalbytes ≥ limit.toNat → 0 < p'.cycles) := by
  induction steps with
  | nil =>
    intro cycleCount s p hrest hcount hloop
    rw [collectLoop] at hloop
    split at hloop
    · split at hloop
      · -- at the second pause the loop gives up
        next hbreak =>
          cases hloop
          exact ⟨⟨rfl, rfl, rfl⟩, fun _ => cycles_pos hrest hcount hbreak⟩
      · cases hloop
    · next hlt =>
        cases hloop
        exact ⟨⟨rfl, rfl, rfl⟩, fun hge => absurd hge hlt⟩
  | cons x steps ih =>
    intro cycleCount s p hrest hcount hloop
    rw [collectLoop] at hloop
    split at hloop
    · split at hloop
      · next hbreak =>
          cases hloop
          exact ⟨⟨rfl, rfl, rfl⟩, fun _ => cycles_pos hrest hcount hbreak⟩
      · obtain ⟨hadv, hpause⟩ := luaCStep_advances x s p
        have hcount' (hpos : 0 < countPause cycleCount s) : Started (luaCStep x s p).2 := by
          rw [countPause] at hpos
          split at hpos
          · next hgc => exact hpause hgc
          · exact hadv.started (hcount hpos)
        obtain ⟨hsame, hcycles⟩ := ih _ _ _ (hadv.atRest hrest) hcount' hloop
        exact ⟨hadv.same.trans hsame, hcycles⟩
    · next hlt =>
        cases hloop
        exact ⟨⟨rfl, rfl, rfl⟩, fun hge => absurd hge hlt⟩

/-- A request is refused behind a full cycle, or when the collector is blocked. -/
theorem lCheckMemlimit_spec {need : UInt32} {steps : List (Single × List Single)} {refused : Bool}
    (hcheck : lCheckMemlimit need steps s = some (refused, s', p')) :
    SameMode s s' ∧ (refused = true → s.blockGc = true ∨ 0 < p'.cycles) ∧
      (refused = false → s'.totalbytes < (s.memlimit - need).toNat) := by
  obtain ⟨⟨t, q⟩, hroom, hresult⟩ := Option.map_eq_some_iff.mp hcheck
  cases hresult
  simp only [decide_eq_true_eq, decide_eq_false_iff_not, ge_iff_le, Nat.not_le]
  rw [makeRoom] at hroom
  split at hroom
  · next hblocked =>
      cases hroom
      exact ⟨⟨rfl, rfl, rfl⟩, fun _ => .inl hblocked, id⟩
  · obtain ⟨hsame, hcycles⟩ := collectLoop_spec _ steps 0 s {} (fun _ => rfl)
      (fun h => absurd h (Nat.lt_irrefl 0)) hroom
    exact ⟨hsame, fun hge => .inr (hcycles hge), id⟩

theorem luaCFullgc_same (totalbytes : Nat) (s : State) : SameMode s (luaCFullgc totalbytes s) := by
  rw [luaCFullgc]
  split
  · exact ⟨rfl, rfl, rfl⟩
  · exact ⟨rfl, rfl, rfl⟩

/-! ### A request -/

/-- `realloc` gives a block in the state that the check left, or behind the emergency collection. -/
theorem reallocate_granted {b : Behaviour} (h : reallocate b s p = (.granted, s', p')) :
    s' = s ∨ (b.reallocOk = false ∧ b.retryOk = true ∧ s.hasMode EGC_ON_ALLOC_FAILURE = true ∧
      s' = luaCFullgc b.retry s) := by
  rw [reallocate] at h
  split at h
  · cases h
    exact .inl rfl
  · next hfails =>
      split at h
      · next hmode =>
          cases hretry : b.retryOk with
          | true =>
            rw [hretry] at h
            cases h
            exact .inr ⟨Bool.eq_false_iff.mpr hfails, rfl, hmode, rfl⟩
          | false =>
            rw [hretry] at h
            cases h
      · cases h

theorem reallocate_ne_refused (b : Behaviour) (s : State) (p : Progress) :
    (reallocate b s p).1 ≠ .refused ∧ SameMode s (reallocate b s p).2.1 := by
  rw [reallocate]
  split
  · exact ⟨by simp, ⟨rfl, rfl, rfl⟩⟩
  · split
    · cases b.retryOk <;> exact ⟨by simp, luaCFullgc_same _ _⟩
    · exact ⟨by simp, ⟨rfl, rfl, rfl⟩⟩

section Request
variable {osize nsize : UInt32} {b : Behaviour} {o : Outcome}

/-- What `l_alloc` does with a request under a limit. -/
theorem lAlloc_spec (hgrows : osize < nsize) (hmode : s.hasMode EGC_ON_MEM_LIMIT = true)
    (hlimit : s.memlimit ≠ 0) (hmet : Met s (.request osize nsize b))
    (halloc : lAlloc osize nsize b s = some (o, s', p)) :
    SameMode s s' ∧
      (o = .granted → s'.totalbytes + (nsize - osize).toNat ≤ s.memlimit.toNat) ∧
      (o = .refused → s.blockGc = true ∨ 0 < p.cycles) := by
  obtain ⟨hneed, hretry⟩ := hmet hgrows hmode hlimit
  have hnsize : nsize ≠ 0 := by
    rintro rfl
    exact absurd hgrows (by simp)
  obtain ⟨s₁, hs₁⟩ : ∃ s₁, s₁ = (if s.hasMode EGC_ALWAYS then luaCFullgc b.always s else s) :=
    ⟨_, rfl⟩
  have hsame₁ : SameMode s s₁ := by
    rw [hs₁]
    split
    · exact luaCFullgc_same _ _
    · exact ⟨rfl, rfl, rfl⟩
  have htest : osize < nsize ∧ 0 < s₁.memlimit ∧ s₁.hasMode EGC_ON_MEM_LIMIT = true := by
    rw [hsame₁.memlimit, hsame₁.hasMode]
    exact ⟨hgrows, UInt32.pos_iff_ne_zero.mpr hlimit, hmode⟩
  rw [lAlloc, if_neg hnsize] at halloc
  dsimp only at halloc
  rw [← hs₁, if_pos htest] at halloc
  obtain ⟨⟨refused, s₂, p₂⟩, hcheck, hresult⟩ := Option.map_eq_some_iff.mp halloc
  obtain ⟨hsame₂, hcycles, hroom⟩ := lCheckMemlimit_spec hcheck
  have hsame := hsame₁.trans hsame₂
  cases refused with
  | true =>
    cases hresult
    exact ⟨hsame, fun h => (by cases h), fun _ => hsame₁.blockGc ▸ hcycles rfl⟩
  | false =>
    have hresult : reallocate b s₂ p₂ = (o, s', p) := hresult
    obtain ⟨hne, hsame₃⟩ := reallocate_ne_refused b s₂ p₂
    rw [hresult] at hne hsame₃
    refine ⟨hsame.trans hsame₃, ?_, fun h => absurd h hne⟩
    rintro rfl
    -- there is room in the state that the check left
    have hroom := hroom rfl
    rw [hsame₁.memlimit, UInt32.toNat_sub_of_le _ _ hneed] at hroom
    rcases reallocate_granted hresult with rfl | ⟨hfirst, hsecond, hfailure, rfl⟩
    · omega
    · rw [hsame.hasMode] at hfailure
      rw [luaCFullgc]
      split
      · omega
      · next hblocked =>
          rw [hsame.blockGc] at hblocked
          exact hretry hfirst hsecond hfailure (Bool.eq_false_iff.mpr hblocked)

end Request

/-- A request that is met respects the limit. -/
theorem respects_of_met {e : Event} (hmet : Met s e) : Respects s e := by
  cases e with
  | setMode mode limit => trivial
  | collector totalbytes gcstate blockGc => trivial
  | request osize nsize b =>
    intro hgrows hmode hlimit o s' p hrequest
    obtain ⟨⟨o', s₁, p₁⟩, halloc, haccount⟩ := Option.map_eq_some_iff.mp hrequest
    obtain ⟨hsame, hgranted, hrefused⟩ := lAlloc_spec hgrows hmode hlimit hmet halloc
    have hle : osize.toNat ≤ nsize.toNat := Nat.le_of_lt hgrows
    have hgrowth := UInt32.toNat_sub_of_le _ _ (UInt32.le_of_lt hgrows)
    dsimp only at haccount
    split at haccount
    · cases haccount
      refine ⟨fun h => ?_, hrefused⟩
      have hwithin := hgranted h
      dsimp only
      rw [hsame.memlimit]
      omega
    · -- without a block nothing is accounted for
      next hno =>
        cases haccount
        exact ⟨fun h => absurd (.inl h) hno, hrefused⟩

/-! ### Runs -/

/-- **The memory limit**: in every run whose requests are all met,
every request respects the limit, whatever the collector frees in
between and in whatever phase it is. -/
theorem run_respects (s : State) (es : List Event) (hmet : AllSteps step Met s es) :
    AllSteps step Respects s es :=
  allSteps_of_invariant (I := fun _ => True) (fun _ _ _ hm => respects_of_met hm)
    (fun _ _ _ _ _ _ => trivial) es s trivial hmet

/-- A limit of 1000 bytes, of which 400 are asked for. -/
theorem run_respects_1000 :
    AllSteps step Respects ⟨100, 1000, EGC_ON_MEM_LIMIT, .pause, false⟩ [.request 0 400 {}] :=
  run_respects _ _ ⟨fun _ _ _ => ⟨by decide, fun h => by cases h⟩, fun _ _ => trivial⟩

/-- A request for more than the limit is granted. -/
theorem not_always_respects : ¬ ∀ s es, AllSteps step Respects s es := by
  intro h
  have hrespects := (h ⟨100, 1000, EGC_ON_MEM_LIMIT, .pause, false⟩ [.request 0 4000 {}]).1
  have hwithin := (hrespects (by decide) (by decide) (by decide) _ _ _ rfl).1 (by decide)
  revert hwithin
  decide

end Alcor.Proofs.Lua.Egc
