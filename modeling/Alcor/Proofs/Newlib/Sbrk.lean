import Alcor.Newlib.Stubs
import Mathlib.Algebra.Order.Group.Nat

/-!
# `Alcor.Proofs.Newlib.Sbrk`: every request has to fit

A request that is served leaves the heap where the next one goes on
(`Linked`). Any other leaves it behind the last region, where everything
fails (`Exhausted`), or hands out a range that ends behind its region
(`Wild`), and neither is ever repaired. The regions that a request
passes over are never looked at again; a heap that goes on is `Roomy`
if nothing is lost with them.

* `sbrkLoop_of_served`, `sbrkLoop_of_not_served`, `sbrkLoop_ne_none` and
  `sbrkLoop_eq_none`: what one request is given.
* `Linked.grows` and `Linked.roomy_of_grows`: when a heap that goes on
  finds space for what fits.
* `Linked.step`, `Exhausted.step` and `Wild.step` are the step lemmas,
  `throughout_linked_iff` and `throughout_roomy_iff` the run lemmas.
* `grows_iff` puts this together: the heap grows as it should in every
  state of a run in which every request finds a region and, from the
  first failure on, loses no room.
-/

set_option autoImplicit false

namespace Alcor.Proofs.Newlib

open Alcor.Newlib Lib.Run

variable {r : Ram} {incr : BitVec 32} {h' : Growth}

/-! ### The loop -/

/-- Where the loop looks in the region with this place. -/
def lookAt (s : SbrkState) (k : Nat) (r : Ram) : Nat := if k = 0 then startIn r s else r.first

theorem lookAt_succ (s : SbrkState) (k : Nat) (r : Ram) :
    lookAt s (k + 1) r = lookAt { heapPtr := 0, memIndex := s.memIndex + 1 } k r := by
  cases k <;> rfl

section Loop
variable {n : Nat}

/-- A request that is served gets a range inside of a region, the first one that has room. -/
theorem sbrkLoop_of_served (rs : List Ram) :
    ∀ s, Served n (fun _ _ => True) rs s → ∃ k r, rs[k]? = some r ∧ lookAt s k r + n ≤ r.last ∧
      sbrkLoop n rs s = (some (lookAt s k r), ⟨lookAt s k r + n, s.memIndex + k⟩) ∧
      ∀ P, Served n P rs s ↔ P (s.memIndex + k) (lookAt s k r + n) := by
  induction rs with
  | nil => exact fun s h => absurd h not_false
  | cons r rs ih =>
    intro s h
    have hlast := r.last_lt
    by_cases hfits : startIn r s + n ≤ r.last
    · refine ⟨0, r, rfl, hfits, ?_, fun P => ?_⟩
      · rw [sbrkLoop, Nat.mod_eq_of_lt (by omega), if_neg (Nat.not_lt_of_le hfits)]
        rfl
      · constructor
        · rintro (⟨-, hP⟩ | ⟨hlong, -⟩)
          · exact hP
          · exact absurd hfits (Nat.not_le_of_lt hlong)
        · exact fun hP => .inl ⟨hfits, hP⟩
    · -- the address has not wrapped, so the next region is tried
      obtain ⟨hlong, hlt, hrest⟩ := h.resolve_left fun h => hfits h.1
      obtain ⟨k, r', hr', hle, hloop, hiff⟩ := ih _ hrest
      rw [← lookAt_succ] at hle hloop
      refine ⟨k + 1, r', hr', hle, ?_, fun P => ?_⟩
      · rw [sbrkLoop, Nat.mod_eq_of_lt hlt, if_pos hlong, hloop, Nat.add_assoc, Nat.add_comm 1 k]
      · have hat := hiff P
        rw [← lookAt_succ, Nat.add_assoc, Nat.add_comm 1 k] at hat
        rw [← hat]
        constructor
        · rintro (⟨hle', -⟩ | ⟨-, -, hP⟩)
          · exact absurd hle' hfits
          · exact hP
        · exact fun hP => .inr ⟨hlong, hlt, hP⟩

theorem served_imp {P Q : Nat → Nat → Prop} (himp : ∀ c addr, P c addr → Q c addr)
    (rs : List Ram) : ∀ s, Served n P rs s → Served n Q rs s := by
  induction rs with
  | nil => exact fun s h => absurd h not_false
  | cons r rs ih =>
    rintro s (⟨hle, hP⟩ | ⟨hlong, hlt, hrest⟩)
    · exact .inl ⟨hle, himp _ _ hP⟩
    · exact .inr ⟨hlong, hlt, ih _ hrest⟩

/-- Any other fails, or gets a range that ends behind its region. -/
theorem sbrkLoop_of_not_served (hn : n < 2 ^ 32) (rs : List Ram) :
    ∀ s, (∀ r, rs.head? = some r → startIn r s ≤ r.last) → ¬ Served n (fun _ _ => True) rs s →
      sbrkLoop n rs s = (none, ⟨0, s.memIndex + rs.length⟩) ∨
        ∃ k r, rs[k]? = some r ∧ r.last < lookAt s k r + n ∧ ∃ heapPtr,
          sbrkLoop n rs s = (some (lookAt s k r), ⟨heapPtr, s.memIndex + k⟩) := by
  induction rs with
  | nil => exact fun s _ _ => .inl rfl
  | cons r rs ih =>
    intro s hstart h
    have hstart := hstart r rfl
    have hlast := r.last_lt
    obtain ⟨hfits, hrest⟩ := not_or.mp h
    have hlong : r.last < startIn r s + n :=
      Nat.lt_of_not_le fun hle => hfits ⟨hle, trivial⟩
    by_cases hnext : (startIn r s + n) % 2 ^ 32 > r.last
    · have hstep : sbrkLoop n (r :: rs) s =
          sbrkLoop n rs { heapPtr := 0, memIndex := s.memIndex + 1 } := if_pos hnext
      -- an address that has wrapped is not behind the region
      have hwrap : startIn r s + n < 2 ^ 32 := by omega
      have hfirst (r' : Ram) (_ : rs.head? = some r') :
          startIn r' { heapPtr := 0, memIndex := s.memIndex + 1 } ≤ r'.last := r'.first_le
      obtain hnone | ⟨k, r', hr', hle, heapPtr, hloop⟩ :=
        ih _ hfirst (fun hs => hrest ⟨hlong, hwrap, hs⟩)
      · refine .inl ?_
        rw [hstep, hnone, List.length_cons, Nat.add_assoc, Nat.add_comm 1 rs.length]
      · refine .inr ⟨k + 1, r', hr', ?_, heapPtr, ?_⟩
        · rw [lookAt_succ]
          exact hle
        · rw [hstep, hloop, lookAt_succ, Nat.add_assoc, Nat.add_comm 1 k]
    · exact .inr ⟨0, r, rfl, hlong, _, if_neg hnext⟩

/-- A request for which some region has space does not fail. -/
theorem sbrkLoop_ne_none (rs : List Ram) :
    ∀ s k r, rs[k]? = some r → lookAt s k r + n ≤ r.last → (sbrkLoop n rs s).1 ≠ none := by
  induction rs with
  | nil => exact fun s k r h => by cases h
  | cons r' rs ih =>
    intro s k r hr hle
    rw [sbrkLoop]
    split
    · next hnext =>
        cases k with
        | zero =>
          -- it fits here, so this region is not left
          obtain rfl := Option.some.inj hr
          have hle : startIn r' s + n ≤ r'.last := hle
          rw [Nat.mod_eq_of_lt (Nat.lt_of_le_of_lt hle r'.last_lt)] at hnext
          exact absurd hle (Nat.not_le_of_lt hnext)
        | succ k =>
          rw [lookAt_succ] at hle
          exact ih _ k r hr hle
    · simp

/-- A request fails that is too long for every region, if no address wraps. -/
theorem sbrkLoop_eq_none (rs : List Ram) :
    ∀ s, (∀ k r, rs[k]? = some r → r.last < lookAt s k r + n ∧ lookAt s k r + n < 2 ^ 32) →
      (sbrkLoop n rs s).1 = none := by
  induction rs with
  | nil => exact fun _ _ => rfl
  | cons r rs ih =>
    intro s h
    obtain ⟨hlong, hlt⟩ := h 0 r rfl
    have hlong : r.last < startIn r s + n := hlong
    have hlt : startIn r s + n < 2 ^ 32 := hlt
    rw [sbrkLoop, Nat.mod_eq_of_lt hlt, if_pos hlong]
    refine ih _ fun k r' hr' => ?_
    rw [← lookAt_succ]
    exact h (k + 1) r' hr'

end Loop

/-! ### The states of a run -/

variable {l : RamLayout} {h : Growth}

/-- The heap goes on where the last range ends. -/
structure Linked (l : RamLayout) (h : Growth) : Prop where
  inside : ∀ g ∈ h.ranges, ∃ r, l.regions[g.region]? = some r ∧ r.first ≤ g.start ∧ g.stop ≤ r.last
  disjoint : h.ranges.Pairwise fun a b => a.stop ≤ b.start ∨ b.stop ≤ a.start
  start : h.ranges = [] → h.state = {}
  last : ∀ g, h.ranges.getLast? = some g → h.state = ⟨g.stop, g.region⟩
  before : ∀ g ∈ h.ranges, g.region < h.state.memIndex ∨
    g.region = h.state.memIndex ∧ g.stop ≤ h.state.heapPtr

/-- No room was lost, if a request has failed. -/
def Roomy (l : RamLayout) (h : Growth) : Prop :=
  h.failed = true → h.KeepsRoom l h.state.memIndex h.state.heapPtr

/-- A request has failed, and the heap is behind the last region. -/
def Exhausted (l : RamLayout) (h : Growth) : Prop :=
  h.state.heapPtr = 0 ∧ l.regions.drop h.state.memIndex = [] ∧ h.Fits l 0 ∧ h.failed = true

/-- A range ends behind its region. -/
def Wild (l : RamLayout) (h : Growth) : Prop :=
  ∃ g ∈ h.ranges, ∀ r, l.regions[g.region]? = some r → r.last < g.stop

theorem Exhausted.not_grows (hex : Exhausted l h) : ¬ h.Grows l := by
  intro hgrows
  refine hgrows.serves hex.2.2.2 0 (by decide) hex.2.2.1 ?_
  rw [eluaSbrk, if_neg (by decide), hex.2.1]
  rfl

theorem Wild.not_grows (hwild : Wild l h) : ¬ h.Grows l := by
  obtain ⟨g, hg, hlast⟩ := hwild
  intro hgrows
  obtain ⟨r, hr, -, hle⟩ := hgrows.inside g hg
  exact absurd hle (Nat.not_le_of_lt (hlast r hr))

/-- The heap goes on inside of the region in use. -/
theorem Linked.startIn_mem (hlinked : Linked l h) (hr : l.regions[h.state.memIndex]? = some r) :
    r.first ≤ startIn r h.state ∧ startIn r h.state ≤ r.last := by
  rw [startIn]
  split
  · exact ⟨Nat.le_refl _, r.first_le⟩
  · next hne =>
      cases hlast : h.ranges.getLast? with
      | none =>
        rw [hlinked.start (List.getLast?_eq_none_iff.mp hlast)] at hne
        exact absurd rfl hne
      | some g =>
        -- the heap goes on behind its last range
        have hstate := hlinked.last g hlast
        obtain ⟨r', hr', hfirst, hstop⟩ := hlinked.inside g (List.mem_of_getLast? hlast)
        rw [hstate] at hr ⊢
        obtain rfl := Option.some.inj (hr.symm.trans hr')
        have hge : g.start ≤ g.stop := Nat.le_add_right _ _
        exact ⟨hfirst.trans hge, hstop⟩

/-- A heap that goes on is not at `NULL`. -/
theorem Linked.stop_ne_zero (hlinked : Linked l h) {g : HeapRange} (hg : g ∈ h.ranges) :
    g.stop ≠ 0 := by
  obtain ⟨r, -, hfirst, -⟩ := hlinked.inside g hg
  have hpos := r.first_pos
  rw [HeapRange.stop]
  omega

/-- The regions from the one in use on are tried, and a request that fits in one of them does not
fail. -/
theorem serves_at (hincr : 0 ≤ incr.toInt) {k : Nat}
    (hr : l.regions[h.state.memIndex + k]? = some r)
    (hle : lookAt h.state k r + incr.toNat ≤ r.last) : (eluaSbrk l incr h.state).1 ≠ none := by
  rw [eluaSbrk, if_neg (Int.not_lt.mpr hincr)]
  exact sbrkLoop_ne_none _ _ k r (by rw [List.getElem?_drop]; exact hr) hle

/-- In a region behind the one in use a request starts at the first address. -/
theorem serves_behind (hincr : 0 ≤ incr.toInt) {i : Nat} (hi : h.state.memIndex < i)
    (hr : l.regions[i]? = some r) (hle : r.first + incr.toNat ≤ r.last) :
    (eluaSbrk l incr h.state).1 ≠ none := by
  obtain ⟨k, rfl⟩ : ∃ k, i = h.state.memIndex + (k + 1) := ⟨i - h.state.memIndex - 1, by omega⟩
  exact serves_at hincr hr hle

/-- A request that fits in the region in use or in one that is not yet used finds space: in the
region in use, in the same one, or, where this one was passed over, in one with as much room. -/
theorem Linked.grows (hlinked : Linked l h) (hroomy : Roomy l h) : h.Grows l := by
  refine ⟨hlinked.inside, hlinked.disjoint, fun hfailed incr hincr hfits => ?_⟩
  rcases hfits with ⟨g, r, hlast, hr, hle⟩ | ⟨i, r, hr, hunused, hle⟩
  · have hstate := hlinked.last g hlast
    have hne := hlinked.stop_ne_zero (List.mem_of_getLast? hlast)
    refine serves_at hincr (k := 0) (r := r) (by rw [hstate]; exact hr) ?_
    rw [hstate, lookAt, if_pos rfl, startIn, if_neg hne]
    exact hle
  · rcases Nat.lt_trichotomy i h.state.memIndex with hbefore | hat | hbehind
    · rcases hroomy hfailed i hbefore r hr hunused with ⟨rc, hrc, hroom⟩ | ⟨rb, hrb, hroom⟩
      · -- the region in use has as much room
        refine serves_at hincr (k := 0) hrc ?_
        rw [lookAt, if_pos rfl, startIn]
        split
        · next hzero =>
            -- only the start of the first region is at `NULL`
            cases hlast : h.ranges.getLast? with
            | none =>
              rw [hlinked.start (List.getLast?_eq_none_iff.mp hlast)] at hbefore
              exact absurd hbefore (Nat.not_lt_zero i)
            | some g =>
              rw [hlinked.last g hlast] at hzero
              exact absurd hzero (hlinked.stop_ne_zero (List.mem_of_getLast? hlast))
        · omega
      · obtain ⟨k, hk⟩ := List.mem_iff_getElem?.mp hrb
        rw [List.getElem?_drop] at hk
        exact serves_behind hincr (by omega) hk (by omega)
    · -- the region in use has a range, so the heap is still in front of the first one
      cases hlast : h.ranges.getLast? with
      | none =>
        have hstate := hlinked.start (List.getLast?_eq_none_iff.mp hlast)
        refine serves_at hincr (k := 0) (by rw [← hat]; exact hr) ?_
        rw [hstate]
        exact hle
      | some g =>
        have hstate := hlinked.last g hlast
        rw [hstate] at hat
        exact absurd hat.symm (hunused g (List.mem_of_getLast? hlast))
    · exact serves_behind hincr hbehind hr hle

/-- In regions of the lower half of the address space no address wraps. There a lost room is a
request that fits and fails: as many bytes as the region has that was passed over. -/
theorem Linked.roomy_of_grows (hlinked : Linked l h) (hlow : ∀ r ∈ l.regions, r.last < 2 ^ 31)
    (hgrows : h.Grows l) : Roomy l h := by
  intro hfailed i hi r hr hunused
  by_contra hlost
  obtain ⟨hhere, hbehind⟩ := not_or.mp hlost
  have hrlow := hlow r (List.mem_of_getElem? hr)
  have hfirst := r.first_le
  have hpos := r.first_pos
  have hnat : (BitVec.ofNat 32 (r.last - r.first)).toNat = r.last - r.first := by
    rw [BitVec.toNat_ofNat, Nat.mod_eq_of_lt (by omega)]
  have hint : 0 ≤ (BitVec.ofNat 32 (r.last - r.first)).toInt := by
    rw [BitVec.toInt_eq_toNat_cond, hnat]
    split <;> omega
  refine hgrows.serves hfailed _ hint (.inr ⟨i, r, hr, hunused, by rw [hnat]; omega⟩) ?_
  rw [eluaSbrk, if_neg (Int.not_lt.mpr hint), hnat]
  refine sbrkLoop_eq_none _ _ fun k rk hk => ?_
  rw [List.getElem?_drop] at hk
  have hklow := hlow rk (List.mem_of_getElem? hk)
  have hkfirst := rk.first_le
  cases k with
  | zero =>
    -- the heap is at an address of the region in use
    rw [lookAt, if_pos rfl]
    have hne : h.state.heapPtr ≠ 0 := by
      cases hlast : h.ranges.getLast? with
      | none =>
        rw [hlinked.start (List.getLast?_eq_none_iff.mp hlast)] at hi
        exact absurd hi (Nat.not_lt_zero i)
      | some g =>
        rw [hlinked.last g hlast]
        exact hlinked.stop_ne_zero (List.mem_of_getLast? hlast)
    have hmem := (hlinked.startIn_mem hk).2
    rw [startIn, if_neg hne] at hmem ⊢
    have hlong : rk.last < h.state.heapPtr + (r.last - r.first) :=
      Nat.lt_of_not_le fun hle => hhere ⟨rk, hk, hle⟩
    omega
  | succ k =>
    have hdrop : rk ∈ l.regions.drop (h.state.memIndex + 1) := by
      refine List.mem_iff_getElem?.mpr ⟨k, ?_⟩
      rw [List.getElem?_drop, Nat.add_assoc, Nat.add_comm 1 k]
      exact hk
    have hlong : rk.last < rk.first + (r.last - r.first) :=
      Nat.lt_of_not_le fun hle => hbehind ⟨rk, hdrop, hle⟩
    show rk.last < rk.first + (r.last - r.first) ∧ rk.first + (r.last - r.first) < 2 ^ 32
    omega

/-! ### A request -/

/-- Ranges of different regions are disjoint. -/
theorem disjoint_of_regions {i j : Nat} {r' : Ram} (hij : i < j) (hr : l.regions[i]? = some r)
    (hr' : l.regions[j]? = some r') : r.last ≤ r'.first ∨ r'.last ≤ r.first := by
  obtain ⟨hi, rfl⟩ := List.getElem?_eq_some_iff.mp hr
  obtain ⟨hj, rfl⟩ := List.getElem?_eq_some_iff.mp hr'
  exact List.pairwise_iff_getElem.mp l.disjoint i j hi hj hij

/-- One more range, where the heap goes on. -/
theorem Linked.append (hlinked : Linked l h) {n k : Nat}
    (hr : l.regions[h.state.memIndex + k]? = some r) (hle : lookAt h.state k r + n ≤ r.last) :
    Linked l
      { h with
        state := ⟨lookAt h.state k r + n, h.state.memIndex + k⟩
        ranges := h.ranges ++ [⟨lookAt h.state k r, n, h.state.memIndex + k⟩] } := by
  have hfirst : r.first ≤ lookAt h.state k r := by
    cases k with
    | zero => exact (hlinked.startIn_mem hr).1
    | succ k => exact Nat.le_refl _
  refine ⟨?_, ?_, ?_, ?_, ?_⟩
  · intro g hg
    rcases List.mem_append.mp hg with hg | hg
    · exact hlinked.inside g hg
    · obtain rfl := List.mem_singleton.mp hg
      exact ⟨r, hr, hfirst, hle⟩
  · rw [List.pairwise_append]
    refine ⟨hlinked.disjoint, List.pairwise_singleton _ _, fun a ha b hb => ?_⟩
    obtain rfl := List.mem_singleton.mp hb
    obtain ⟨r', hr', hfirst', hstop'⟩ := hlinked.inside a ha
    have hother (hlt : a.region < h.state.memIndex + k) :
        a.stop ≤ lookAt h.state k r ∨ lookAt h.state k r + n ≤ a.start := by
      rcases disjoint_of_regions hlt hr' hr with hbelow | habove
      · exact .inl ((hstop'.trans hbelow).trans hfirst)
      · exact .inr ((hle.trans habove).trans hfirst')
    rcases hlinked.before a ha with hlt | ⟨heq, hstop⟩
    · exact hother (Nat.lt_add_right k hlt)
    · cases k with
      | zero =>
        -- the range is of the region in use, and ends where the heap goes on
        have hne : h.state.heapPtr ≠ 0 := by
          have hpos := r'.first_pos
          have hge : a.start ≤ a.stop := Nat.le_add_right _ _
          omega
        refine .inl ?_
        show a.stop ≤ startIn r h.state
        rw [startIn, if_neg hne]
        exact hstop
      | succ k => exact hother (by omega)
  · exact fun hnil => absurd hnil (List.append_ne_nil_of_right_ne_nil _ (List.cons_ne_nil _ _))
  · intro g hg
    rw [List.getLast?_concat, Option.some.injEq] at hg
    subst hg
    rfl
  · intro g hg
    rcases List.mem_append.mp hg with hold | hnew
    · have hbefore := hlinked.before g hold
      cases k with
      | zero =>
        rcases hbefore with hlt | ⟨heq, hstop⟩
        · exact .inl hlt
        · refine .inr ⟨heq, hstop.trans ?_⟩
          show h.state.heapPtr ≤ startIn r h.state + n
          rw [startIn]
          split <;> omega
      | succ k =>
        refine .inl ?_
        show g.region < h.state.memIndex + (k + 1)
        rcases hbefore with hlt | ⟨heq, -⟩ <;> omega
    · obtain rfl := List.mem_singleton.mp hnew
      exact .inr ⟨rfl, Nat.le_refl _⟩

/-- With a region, an empty request fits. -/
theorem Linked.fits_zero (hlinked : Linked l h) (hne : l.regions ≠ []) : h.Fits l 0 := by
  cases hlast : h.ranges.getLast? with
  | none =>
    obtain ⟨r, hr⟩ := List.exists_mem_of_ne_nil _ hne
    obtain ⟨i, hi⟩ := List.mem_iff_getElem?.mp hr
    have hunused : h.Unused i := by
      intro g hg
      rw [List.getLast?_eq_none_iff.mp hlast] at hg
      exact absurd hg List.not_mem_nil
    exact .inr ⟨i, r, hi, hunused, r.first_le⟩
  | some g =>
    obtain ⟨r, hr, -, hstop⟩ := hlinked.inside g (List.mem_of_getLast? hlast)
    exact .inl ⟨g, r, hlast, hr, hstop⟩

/-- A failure changes nothing that a heap that goes on needs. -/
theorem Linked.fail (hlinked : Linked l h) : Linked l { h with failed := true } :=
  ⟨hlinked.inside, hlinked.disjoint, hlinked.start, hlinked.last, hlinked.before⟩

/-- One more range in region `c` is in none of the regions in front of it. -/
theorem keepsRoom_append {c addr : Nat} {state : SbrkState} {g : HeapRange} (hg : g.region = c) :
    Growth.KeepsRoom l { h with state, ranges := h.ranges ++ [g] } c addr ↔
      h.KeepsRoom l c addr := by
  have hunused (i : Nat) (hi : i < c) :
      Growth.Unused { h with state, ranges := h.ranges ++ [g] } i ↔ h.Unused i := by
    constructor
    · exact fun hu g' hg' => hu g' (List.mem_append_left _ hg')
    · intro hu g' hg'
      rcases List.mem_append.mp hg' with hold | hnew
      · exact hu g' hold
      · rw [List.mem_singleton.mp hnew, hg]
        omega
  unfold Growth.KeepsRoom
  refine forall_congr' fun i => forall_congr' fun hi => forall_congr' fun r => ?_
  rw [hunused i hi]

/-- What a request does to a heap that goes on: it goes on if the request fits, and the condition
on the room that is left decides if room is lost. -/
theorem Linked.step (hlinked : Linked l h) (incr : BitVec 32) :
    ∃ h', h.step l incr = some h' ∧
      ((h.Fitting l incr ∧ Linked l h' ∧ (h.Modest l incr ↔ Roomy l h')) ∨
        (¬ h.Fitting l incr ∧ (Exhausted l h' ∨ Wild l h'))) := by
  by_cases hneg : incr.toInt < 0
  · refine ⟨{ h with failed := true }, ?_, .inl ⟨.inl hneg, hlinked.fail, ?_⟩⟩
    · rw [Growth.step, eluaSbrk, if_pos hneg]
    · constructor
      · rintro (⟨-, hkeeps⟩ | ⟨hpos, -⟩)
        · exact fun _ => hkeeps
        · exact absurd hneg (Int.not_lt.mpr hpos)
      · exact fun hroomy => .inl ⟨hneg, hroomy rfl⟩
  have hpos : 0 ≤ incr.toInt := Int.not_lt.mp hneg
  have hcall : eluaSbrk l incr h.state =
      sbrkLoop incr.toNat (l.regions.drop h.state.memIndex) h.state := if_neg hneg
  rw [Growth.step, hcall]
  by_cases hnone : l.regions = []
  · -- no region, and so no range
    have hranges : h.ranges = [] := by
      rw [List.eq_nil_iff_forall_not_mem]
      intro g hg
      obtain ⟨r, hr, -⟩ := hlinked.inside g hg
      rw [hnone] at hr
      cases hr
    have hstate := hlinked.start hranges
    refine ⟨{ h with failed := true }, ?_, .inl ⟨.inr (.inl hnone), hlinked.fail, ?_⟩⟩
    · rw [hnone, List.drop_nil, sbrkLoop, hstate]
    · refine iff_of_true (.inr ⟨hpos, .inl hnone⟩) fun _ i hi => ?_
      have hi : i < h.state.memIndex := hi
      rw [hstate] at hi
      exact absurd hi (Nat.not_lt_zero i)
  by_cases hserved : Served incr.toNat (fun _ _ => True) (l.regions.drop h.state.memIndex) h.state
  · obtain ⟨k, r, hr, hle, hloop, hiff⟩ := sbrkLoop_of_served _ _ hserved
    rw [List.getElem?_drop] at hr
    rw [hloop]
    refine ⟨_, rfl, .inl ⟨.inr (.inr hserved), hlinked.append hr hle, ?_⟩⟩
    have hmodest : h.Modest l incr ↔ (h.failed = true →
        h.KeepsRoom l (h.state.memIndex + k) (lookAt h.state k r + incr.toNat)) := by
      rw [← hiff fun c addr => h.failed = true → h.KeepsRoom l c addr]
      constructor
      · rintro (⟨hneg', -⟩ | ⟨-, hnone' | hkeeps⟩)
        · exact absurd hneg' hneg
        · exact absurd hnone' hnone
        · exact hkeeps
      · exact fun hkeeps => .inr ⟨hpos, .inr hkeeps⟩
    rw [hmodest]
    refine imp_congr_right fun _ => Iff.symm ?_
    exact keepsRoom_append rfl
  · -- the request leaves all regions, or wraps
    have hfitting : ¬ h.Fitting l incr := by
      rintro (hneg' | hnone' | hserved')
      · exact hneg hneg'
      · exact hnone hnone'
      · exact hserved hserved'
    have hstart (r : Ram) (hr : (l.regions.drop h.state.memIndex).head? = some r) :
        startIn r h.state ≤ r.last := by
      rw [List.head?_drop] at hr
      exact (hlinked.startIn_mem hr).2
    rcases sbrkLoop_of_not_served incr.isLt _ _ hstart hserved with
      hloop | ⟨k, r, hr, hlong, heapPtr, hloop⟩
    · rw [hloop]
      refine ⟨_, rfl, .inr ⟨hfitting, .inl ⟨rfl, ?_, hlinked.fits_zero hnone, rfl⟩⟩⟩
      show l.regions.drop (h.state.memIndex + (l.regions.drop h.state.memIndex).length) = []
      rw [List.drop_eq_nil_iff, List.length_drop]
      omega
    · rw [hloop]
      rw [List.getElem?_drop] at hr
      refine ⟨_, rfl, .inr ⟨hfitting, .inr ⟨_, List.mem_append_right _ (List.mem_singleton_self _),
        fun r' hr' => ?_⟩⟩⟩
      obtain rfl := Option.some.inj (hr.symm.trans hr')
      exact hlong

theorem fitting_of_modest (hmodest : h.Modest l incr) : h.Fitting l incr := by
  rcases hmodest with ⟨hneg, -⟩ | ⟨-, hnone | hserved⟩
  · exact .inl hneg
  · exact .inr (.inl hnone)
  · exact .inr (.inr (served_imp (fun _ _ _ => trivial) _ _ hserved))

theorem Exhausted.step (hex : Exhausted l h) (incr : BitVec 32) (hstep : h.step l incr = some h') :
    Exhausted l h' := by
  obtain ⟨hptr, hdrop, hfits, hfailed⟩ := hex
  have hsame : (eluaSbrk l incr h.state) = (none, h.state) := by
    rw [eluaSbrk, hdrop, sbrkLoop]
    split
    · rfl
    · rw [← hptr]
  rw [Growth.step, hsame, Option.some.injEq] at hstep
  exact hstep ▸ ⟨hptr, hdrop, hfits, rfl⟩

theorem Wild.step (hwild : Wild l h) (incr : BitVec 32) (hstep : h.step l incr = some h') :
    Wild l h' := by
  obtain ⟨g, hg, hlast⟩ := hwild
  have hmore : g ∈ h'.ranges := by
    rw [Growth.step] at hstep
    split at hstep
    · exact Option.some.inj hstep ▸ hg
    · exact Option.some.inj hstep ▸ List.mem_append_left _ hg
  exact ⟨g, hmore, hlast⟩

/-! ### Runs -/

/-- What is known of every state. -/
def Settled (l : RamLayout) (h : Growth) : Prop := Linked l h ∨ Exhausted l h ∨ Wild l h

theorem Settled.step (hsettled : Settled l h) (incr : BitVec 32)
    (hstep : h.step l incr = some h') : Settled l h' := by
  rcases hsettled with hlinked | hex | hwild
  · obtain ⟨h'', hstep'', hcases⟩ := hlinked.step incr
    obtain rfl := Option.some.inj (hstep.symm.trans hstep'')
    rcases hcases with ⟨-, hlinked', -⟩ | ⟨-, hbroken⟩
    · exact .inl hlinked'
    · exact .inr hbroken
  · exact .inr (.inl (hex.step incr hstep))
  · exact .inr (.inr (hwild.step incr hstep))

theorem Settled.linked_of_grows (hsettled : Settled l h) (hgrows : h.Grows l) : Linked l h := by
  rcases hsettled with hlinked | hex | hwild
  · exact hlinked
  · exact absurd hgrows hex.not_grows
  · exact absurd hgrows hwild.not_grows

theorem linked_start (l : RamLayout) : Linked l {} :=
  ⟨fun _ hg => absurd hg List.not_mem_nil, List.Pairwise.nil, fun _ => rfl,
    fun _ hg => (by cases hg), fun _ hg => absurd hg List.not_mem_nil⟩

/-- A heap behind the last region does not go on: it would serve an empty request. -/
theorem Exhausted.not_linked (hex : Exhausted l h) : ¬ Linked l h := by
  intro hlinked
  obtain ⟨hptr, hdrop, hfits, -⟩ := hex
  have hsome : ∃ r, l.regions[h.state.memIndex]? = some r := by
    cases hlast : h.ranges.getLast? with
    | none =>
      rw [hlinked.start (List.getLast?_eq_none_iff.mp hlast)] at hdrop ⊢
      rcases hfits with ⟨g, r, hg, -⟩ | ⟨i, r, hr, -⟩
      · rw [hlast] at hg
        cases hg
      · rw [show l.regions = [] from hdrop] at hr
        cases hr
    | some g =>
      obtain ⟨r, hr, -⟩ := hlinked.inside g (List.mem_of_getLast? hlast)
      rw [hlinked.last g hlast]
      exact ⟨r, hr⟩
  obtain ⟨r, hr⟩ := hsome
  rw [List.getElem?_eq_none (List.drop_eq_nil_iff.mp hdrop)] at hr
  cases hr

theorem not_linked_of_broken (hbroken : Exhausted l h ∨ Wild l h) : ¬ Linked l h := by
  rcases hbroken with hex | ⟨g, hg, hlast⟩
  · exact hex.not_linked
  · intro hlinked
    obtain ⟨r, hr, -, hle⟩ := hlinked.inside g hg
    exact absurd hle (Nat.not_le_of_lt (hlast r hr))

/-- The property of a state, in every state of a run. -/
def Throughout (l : RamLayout) (P : Growth → Prop) (es : List (BitVec 32)) : Prop :=
  ∀ xs ys h, es = xs ++ ys → run (Growth.step l) {} xs = some h → P h

theorem Throughout.mono {es : List (BitVec 32)} {P Q : Growth → Prop}
    (himp : ∀ h, Settled l h → P h → Q h) (hP : Throughout l P es) : Throughout l Q es := by
  intro xs ys h hes hrun
  refine himp h ?_ (hP xs ys h hes hrun)
  exact invariant_reachable (I := Settled l) (fun _ incr _ hs hstep => hs.step incr hstep)
    (.inl (linked_start l)) ⟨xs, hrun⟩

/-- The heap goes on in every state of a run exactly if every request of the run fits. -/
theorem throughout_linked_iff (l : RamLayout) (es : List (BitVec 32)) :
    Throughout l (Linked l) es ↔ AllSteps (Growth.step l) (Growth.Fitting l) {} es := by
  refine invariant_run_iff (J := Settled l)
    (fun _ incr _ hsettled hstep => hsettled.step incr hstep) ?_ es {} (.inl (linked_start l))
    (linked_start l)
  intro h incr _ hlinked
  obtain ⟨h', hstep, hcases⟩ := hlinked.step incr
  rw [hstep]
  simp only [Option.some.injEq, forall_eq']
  rcases hcases with ⟨hfitting, hlinked', -⟩ | ⟨hfitting, hbroken⟩
  · exact iff_of_true hfitting hlinked'
  · exact iff_of_false hfitting (not_linked_of_broken hbroken)

/-- It goes on and has lost no room exactly if every request of the run is modest. -/
theorem throughout_roomy_iff (l : RamLayout) (es : List (BitVec 32)) :
    Throughout l (fun h => Linked l h ∧ Roomy l h) es ↔
      AllSteps (Growth.step l) (Growth.Modest l) {} es := by
  refine invariant_run_iff (J := Settled l) (I := fun h => Linked l h ∧ Roomy l h)
    (fun _ incr _ hsettled hstep => hsettled.step incr hstep) ?_ es {} (.inl (linked_start l))
    ⟨linked_start l, fun hfailed => by cases hfailed⟩
  rintro h incr - ⟨hlinked, -⟩
  obtain ⟨h', hstep, hcases⟩ := hlinked.step incr
  rw [hstep]
  simp only [Option.some.injEq, forall_eq']
  rcases hcases with ⟨-, hlinked', hiff⟩ | ⟨hfitting, hbroken⟩
  · rw [hiff]
    exact ⟨fun hroomy => ⟨hlinked', hroomy⟩, fun hboth => hboth.2⟩
  · exact iff_of_false (fun hmodest => hfitting (fitting_of_modest hmodest))
      fun hboth => not_linked_of_broken hbroken hboth.1

/-- On every list of disjoint regions, the heap grows as it should up to every state of a run if
every request of the run is modest. If it does, every request that is not negative finds a region;
and where the regions are in the lower half of the address space, so that no address wraps, every
request is modest. -/
theorem grows_iff (l : RamLayout) (es : List (BitVec 32)) :
    (AllSteps (Growth.step l) (Growth.Modest l) {} es → Throughout l (Growth.Grows l) es) ∧
      (Throughout l (Growth.Grows l) es → AllSteps (Growth.step l) (Growth.Fitting l) {} es) ∧
      ((∀ r ∈ l.regions, r.last < 2 ^ 31) →
        (Throughout l (Growth.Grows l) es ↔
          AllSteps (Growth.step l) (Growth.Modest l) {} es)) := by
  have henough (hmodest : AllSteps (Growth.step l) (Growth.Modest l) {} es) :
      Throughout l (Growth.Grows l) es :=
    ((throughout_roomy_iff l es).mpr hmodest).mono fun h _ hboth => hboth.1.grows hboth.2
  refine ⟨henough, fun hgrows => ?_, fun hlow => ⟨fun hgrows => ?_, henough⟩⟩
  · exact (throughout_linked_iff l es).mp
      (hgrows.mono fun h hsettled hg => hsettled.linked_of_grows hg)
  · refine (throughout_roomy_iff l es).mp (hgrows.mono fun h hsettled hg => ?_)
    have hlinked := hsettled.linked_of_grows hg
    exact ⟨hlinked, hlinked.roomy_of_grows hlow hg⟩

/-- One region of 64 KB, as on a small microcontroller. -/
def oneRam : RamLayout where
  regions := [⟨0x20000000, 0x20010000, by decide, by decide, by decide⟩]
  disjoint := List.pairwise_singleton _ _

/-- A request for 128 KB fails, and so does everything after it. -/
theorem not_always_grows : ∃ h,
    run (Growth.step oneRam) {} [0x100, 0x20000] = some h ∧ h.Fits oneRam 0x100 ∧
      (eluaSbrk oneRam 0x100 h.state).1 = none ∧ ¬ h.Grows oneRam := by
  have hfits : Growth.Fits oneRam ⟨⟨0, 1⟩, [⟨0x20000000, 0x100, 0⟩], true⟩ 0x100 :=
    .inl ⟨⟨0x20000000, 0x100, 0⟩, _, rfl, rfl, by decide⟩
  exact ⟨⟨⟨0, 1⟩, [⟨0x20000000, 0x100, 0⟩], true⟩, rfl, hfits, rfl,
    fun hgrows => hgrows.serves rfl 0x100 (by decide) hfits rfl⟩

end Alcor.Proofs.Newlib
