import Alcor.Salloc.Allocator
import Alcor.Proofs.Salloc.Programs

/-!
# `Alcor.Proofs.Salloc.Requests`: which sizes are served

A size that fits with its header is served, by what `Programs` says about
its contents. Any other has more bytes than the address space has behind
a pointer, so it is served only with `NULL`. It gets that when no block
is found for what is left of the size in 32 bits.

* `serves_iff_met`: a request is served exactly when it is met.
* `run_serves_iff`: so it is for the next request of a program whose
  requests were all met so far.
* `not_always_serves`: the largest size gets a block without any bytes.
-/

set_option autoImplicit false

namespace Alcor.Proofs.Salloc

open Lib
open Alcor.Salloc

variable {e : Event} {l : Live}
variable {pf : Platform} {m : Mem} {r : Region} {nodes : List Nat} {size ptr : Nat}

/-! ### Looking for a block -/

/-- A region without a block of the size gives none. -/
theorem getFreeBlock_none (h : Tiled pf m r nodes)
    (hno : ¬ ∃ x ∈ nodes, sIsBlockFree pf m x = true ∧ blockSize size ≤ sGetBlockSize pf m x) :
    sGetFreeBlock pf m size r.start = some (NULL, m) := by
  rw [sGetFreeBlock]
  split
  · rfl
  · obtain ⟨s, hrun, hbest, -⟩ := search_start h (blockSize size)
    rw [blockSize] at hrun
    simp only [hrun, Option.bind_eq_bind, Option.bind_some]
    rcases hbest with hnull | ⟨hmem, hfree, hminsize, hle⟩
    · rw [if_pos hnull]
    · exact absurd ⟨_, hmem, hfree, hminsize ▸ hle⟩ hno

/-- A region with such a block does not answer `NULL`. -/
theorem getFreeBlock_ne_null (h : Tiled pf m r nodes) (hsize : size ≠ 0)
    (hroom : ∃ x ∈ nodes, sIsBlockFree pf m x = true ∧ blockSize size ≤ sGetBlockSize pf m x)
    {m' : Mem} (hget : sGetFreeBlock pf m size r.start = some (ptr, m')) : 16 ≤ ptr := by
  obtain ⟨s, hrun, hbest, hmissed⟩ := search_start h (blockSize size)
  have hne : s.pblock ≠ NULL := by
    intro hnull
    obtain ⟨x, hx, hfree, hle⟩ := hroom
    exact Nat.not_lt_of_le hle ((hmissed hnull).2 x hx hfree)
  obtain ⟨hmem, hfree, -⟩ := hbest.resolve_left hne
  have hguard := (free_between h hmem hfree).2
  -- with or without a remainder, the block found is returned
  have hptr : ptr = s.pblock + DYN_HEADER_SIZE := by
    rw [sGetFreeBlock, if_neg hsize] at hget
    rw [blockSize] at hrun
    simp only [hrun, Option.bind_eq_bind, Option.bind_some, if_neg hne,
      u32_of_lt (payload_lt hguard)] at hget
    split at hget
    · obtain ⟨m'', -, heq⟩ := Option.map_eq_some_iff.mp hget
      exact (congrArg Prod.fst heq).symm
    · exact (congrArg Prod.fst (Option.some.inj hget)).symm
  -- a pointer is behind a header
  have hbetween := (tiled_almost h s.pblock).between hmem
  have hstart := r.start_ne
  have haligned := r.start_aligned
  rw [NULL] at hstart
  rw [DYN_SIZE_MULT] at haligned
  rw [hptr, DYN_HEADER_SIZE]
  omega

/-- Some of these regions has a block of the size. -/
def RoomIn (pf : Platform) (m : Mem) (size : Nat) (rs : List Region) : Prop :=
  ∃ r ∈ rs, ∃ nodes, Tiled pf m r nodes ∧
    ∃ x ∈ nodes, sIsBlockFree pf m x = true ∧ blockSize size ≤ sGetBlockSize pf m x

theorem smallocFrom_none (rs : List Region) (htiled : ∀ r ∈ rs, ∃ nodes, Tiled pf m r nodes)
    (hno : ¬ RoomIn pf m size rs) : smallocFrom pf size rs m = some (NULL, m) := by
  induction rs with
  | nil => rfl
  | cons r rs ih =>
    obtain ⟨⟨nodes, hr⟩, hrest⟩ := List.forall_mem_cons.mp htiled
    have hnone := getFreeBlock_none hr fun hx => hno ⟨r, List.mem_cons_self, nodes, hr, hx⟩
    rw [smallocFrom, hnone]
    refine ih hrest fun hroom => hno ?_
    obtain ⟨r', hr', hroom⟩ := hroom
    exact ⟨r', List.mem_cons_of_mem _ hr', hroom⟩

/-- Where a region has room, `smalloc` answers with an address of at
least 16, so not with `NULL`. -/
theorem smallocFrom_ne_null (rs : List Region) (hsize : size ≠ 0)
    (htiled : ∀ r ∈ rs, ∃ nodes, Tiled pf m r nodes) (hroom : RoomIn pf m size rs) {m' : Mem}
    (hcall : smallocFrom pf size rs m = some (ptr, m')) : 16 ≤ ptr := by
  induction rs with
  | nil =>
    obtain ⟨r, hr, -⟩ := hroom
    cases hr
  | cons r rs ih =>
    obtain ⟨⟨nodes, hr⟩, hrest⟩ := List.forall_mem_cons.mp htiled
    by_cases hfirst : ∃ nodes, Tiled pf m r nodes ∧ ∃ x ∈ nodes, sIsBlockFree pf m x = true ∧
        blockSize size ≤ sGetBlockSize pf m x
    · obtain ⟨nodes, hr, hx⟩ := hfirst
      obtain ⟨⟨ptr', m''⟩, hget, hrest'⟩ := Option.bind_eq_some_iff.mp hcall
      have hptr' := getFreeBlock_ne_null hr hsize hx hget
      have hne : ptr' ≠ NULL := Nat.ne_of_gt (Nat.lt_of_lt_of_le (by decide) hptr')
      have heq : some (ptr', m'') = some (ptr, m') := (if_pos hne).symm.trans hrest'
      cases heq
      exact hptr'
    · -- nothing in this region, so the room is in another
      rw [smallocFrom, getFreeBlock_none hr fun hx => hfirst ⟨nodes, hr, hx⟩] at hcall
      obtain ⟨r', hr', hroom'⟩ := hroom
      rcases List.mem_cons.mp hr' with rfl | hr'
      · exact absurd hroom' hfirst
      · exact ih hrest ⟨r', hr', hroom'⟩ hcall

/-! ### What is behind a pointer -/

/-- Behind a pointer is less than the address space. -/
theorem usable_lt (hptr : 16 ≤ ptr) : usable pf m ptr < 2 ^ 32 - 16 := by
  have hnext : sGetNextBlock pf m (ptr - DYN_HEADER_SIZE) < 2 ^ 32 := u32_lt _
  rw [usable]
  omega

/-- Behind a pointer of the program is what was asked for. -/
theorem usable_of_live {p : Program} (hinv : Inv pf p) (hl : l ∈ p.live) :
    l.content.length ≤ usable pf p.heap.mem l.ptr := by
  obtain ⟨-, blocks, hlives⟩ := good_of_mem hinv hl
  obtain ⟨r, -, hplaced⟩ := hlives.placed l hl
  have hfits := hplaced.fits
  rw [usable]
  omega

section Calls
variable {p : Program} {h : Heap} {live : List Live}

theorem tiled_of_good (hgood : Good pf h live) :
    ∀ r ∈ pf.regions, ∃ nodes, Tiled pf h.mem r nodes := by
  obtain ⟨-, blocks, hlives⟩ := hgood
  exact fun r hr => ⟨blocks r, hlives.tiled r hr⟩

/-- `smalloc` finds no block. -/
theorem smalloc_none (hgood : Good pf (h.ready pf) live)
    (hno : size = 0 ∨ ¬ HasRoom pf (h.ready pf).mem (blockSize size)) :
    smalloc pf h size = some (NULL, h.ready pf) := by
  have hfrom : smallocFrom pf size pf.regions (h.ready pf).mem = some (NULL, (h.ready pf).mem) := by
    by_cases hzero : size = 0
    · rw [hzero]
      induction pf.regions with
      | nil => rfl
      | cons r rs ih =>
        rw [smallocFrom, sGetFreeBlock, if_pos rfl]
        exact ih
    · exact smallocFrom_none pf.regions (tiled_of_good hgood) (hno.resolve_left hzero)
  rw [smalloc, hfrom]
  rfl

/-- `smalloc` finds a block, whatever its size is. -/
theorem smalloc_ne_null (hgood : Good pf (h.ready pf) live) (hsize : size ≠ 0)
    (hroom : HasRoom pf (h.ready pf).mem (blockSize size)) {h' : Heap}
    (hcall : smalloc pf h size = some (ptr, h')) : 16 ≤ ptr := by
  rw [smalloc] at hcall
  obtain ⟨⟨ptr', m'⟩, hfrom, heq⟩ := Option.map_eq_some_iff.mp hcall
  cases heq
  exact smallocFrom_ne_null pf.regions hsize (tiled_of_good hgood) hroom hfrom

/-! ### Sizes that fit -/

theorem usable_of_got (hgot : Inv pf (p.got ptr size h)) (hne : ptr ≠ NULL) :
    size ≤ usable pf h.mem ptr := by
  rw [Program.got, if_neg hne] at hgot
  have hlive := usable_of_live hgot (List.mem_append_right _ (List.mem_singleton_self _))
  rwa [Mem.length_read] at hlive

theorem usable_of_moved {new : Nat} (hheld : p.Holds ptr)
    (hmoved : Inv pf (p.moved ptr new size h)) :
    size ≤ usable pf h.mem new := by
  obtain ⟨l, hl, hptr⟩ := hheld
  have hlive := usable_of_live hmoved (List.mem_map_of_mem hl)
  rw [if_pos hptr, List.length_append, List.length_take, Mem.length_read] at hlive
  change _ ≤ usable pf h.mem new at hlive
  omega

/-- A pointer that the program gets has what was asked for behind it. -/
theorem serves_of_fits (hinv : Inv pf p) (hfollows : p.Follows e) (hfits : SizeFits e.asked) :
    p.Serves pf e := by
  cases e with
  | smalloc size =>
    obtain ⟨p', hstep, hinv', -⟩ := keeps_smalloc hinv hfits
    obtain ⟨⟨ptr, h⟩, hcall, rfl⟩ := Option.map_eq_some_iff.mp hstep
    exact ⟨ptr, h, hcall, fun hne => usable_of_got hinv' hne⟩
  | sfree ptr => trivial
  | write ptr offset bytes => trivial
  | scalloc nmemb size =>
    obtain ⟨p', hstep, hinv', -⟩ := keeps_scalloc hinv hfits
    obtain ⟨⟨ptr, h⟩, hcall, rfl⟩ := Option.map_eq_some_iff.mp hstep
    refine ⟨ptr, h, hcall, fun hne => ?_⟩
    -- the product is not cut off, as its size fits
    simp only [if_neg hne] at hinv'
    have hlive := usable_of_live hinv' (List.mem_append_right _ (List.mem_singleton_self _))
    rw [List.length_replicate] at hlive
    exact ⟨hlive, (Nat.mod_le _ _).trans hlive⟩
  | srealloc ptr size =>
    have hfits : SizeFits size := hfits
    obtain ⟨p', hstep, hinv', -⟩ := keeps_srealloc hinv hfollows.1 hfits
    obtain ⟨⟨new, h⟩, hcall, rfl⟩ := Option.map_eq_some_iff.mp hstep
    refine ⟨new, h, hcall, fun hne => ?_⟩
    by_cases hnull : ptr = NULL
    · simp only [if_pos hnull] at hinv'
      exact usable_of_got hinv' hne
    · by_cases hzero : size = 0
      · -- for nothing a pointer has enough in any case
        exact hzero ▸ Nat.zero_le _
      · simp only [if_neg hnull, if_neg hne] at hinv'
        rw [if_neg hzero] at hinv'
        exact usable_of_moved (hfollows.1.resolve_left hnull) hinv'

/-! ### Sizes that do not fit -/

/-- A block that is held is smaller than a size that does not fit. -/
theorem actual_lt (hgood : Good pf h live) (hl : l ∈ live) (hbig : ¬ SizeFits size) :
    sGetActualBlockSize pf h.mem l.ptr < size ∧ l.ptr ≠ NULL := by
  obtain ⟨-, blocks, hlives⟩ := hgood
  obtain ⟨r, hr, hplaced⟩ := hlives.placed l hl
  have hactual := (actual_of_placed hlives hr hplaced).1
  have hlo := hplaced.ptr_lt
  have hstart := r.start_ne
  have haligned := r.start_aligned
  rw [NULL] at hstart
  rw [DYN_SIZE_MULT] at haligned hlo
  have husable : usable pf h.mem l.ptr < 2 ^ 32 - 16 := usable_lt (by omega)
  rw [usable, ← hactual] at husable
  rw [SizeFits, DYN_SIZE_MULT, DYN_HEADER_SIZE] at hbig
  rw [NULL]
  omega

/-- The old contents are copied to a new block, and the old block is given back. -/
def copyAndFree (pf : Platform) (ptr newptr : Nat) (h : Heap) : Option (Nat × Heap) :=
  let data := h.mem.read ptr (sGetActualBlockSize pf h.mem ptr)
  (sfree pf { h with mem := h.mem.store newptr data } ptr).map fun h => (newptr, h)

/-- A block that grows is allocated anew. -/
theorem srealloc_grow (hgood : Good pf h live) (hl : l ∈ live) (hbig : ¬ SizeFits size) :
    srealloc pf h l.ptr size = (smalloc pf h size).bind fun (newptr, h') =>
      if newptr = NULL then some (NULL, h') else copyAndFree pf l.ptr newptr h' := by
  obtain ⟨hlt, hnull⟩ := actual_lt hgood hl hbig
  have hzero : size ≠ 0 := Nat.ne_of_gt (Nat.lt_of_le_of_lt (Nat.zero_le _) hlt)
  rw [srealloc, ready_of_good hgood, if_neg hnull, if_neg hzero, if_neg (Nat.ne_of_lt hlt),
    if_neg (Nat.not_lt_of_gt hlt)]
  simp only [copyAndFree, Option.map_eq_bind]
  rfl

theorem fits_zero : SizeFits 0 := by
  rw [SizeFits]
  decide

/-- Such a size gets `NULL` when no block is found, and nothing is changed. -/
theorem keeps_of_null (hinv : Inv pf p) (hfollows : p.Follows e) (hbig : ¬ SizeFits e.asked)
    (hno : u32 e.asked = 0 ∨ ¬ HasRoom pf (p.heap.ready pf).mem (blockSize (u32 e.asked))) :
    p.Serves pf e ∧ Keeps pf p e := by
  have hready := ready_good hinv
  have hagain : (p.heap.ready pf).ready pf = p.heap.ready pf := ready_of_good hready
  -- the regions are initialised, and nothing else changes
  have hkeeps (hstep : Program.step pf p e = some { p with heap := p.heap.ready pf }) :
      Keeps pf p e := keeps_of_good _ hstep hready
  cases e with
  | smalloc size =>
    rw [Event.asked, u32_of_lt hfollows] at hno
    have hcall := smalloc_none hready hno
    refine ⟨⟨NULL, _, hcall, fun hne => absurd rfl hne⟩, hkeeps ?_⟩
    rw [Program.step, hcall]
    rfl
  | sfree ptr => exact absurd fits_zero hbig
  | write ptr offset bytes => exact absurd fits_zero hbig
  | scalloc nmemb size =>
    have hcall := smalloc_none (h := p.heap.ready pf) (by rwa [hagain]) (by rwa [hagain])
    have hscalloc : scalloc pf p.heap nmemb size = some (NULL, p.heap.ready pf) := by
      rw [Event.asked] at hcall
      rw [scalloc]
      dsimp only
      rw [hcall, hagain]
      rfl
    refine ⟨⟨NULL, _, hscalloc, fun hne => absurd rfl hne⟩, hkeeps ?_⟩
    rw [Program.step, hscalloc]
    rfl
  | srealloc ptr size =>
    have hlarge : ¬ SizeFits size := hbig
    rw [Event.asked, u32_of_lt hfollows.2] at hno
    have hcall := smalloc_none hready hno
    by_cases hnull : ptr = NULL
    · have hsrealloc : srealloc pf p.heap ptr size = some (NULL, p.heap.ready pf) := by
        rw [srealloc, if_pos hnull, smalloc_none (by rwa [hagain]) (by rwa [hagain]), hagain]
      refine ⟨⟨NULL, _, hsrealloc, fun hne => absurd rfl hne⟩, hkeeps ?_⟩
      rw [Program.step, hsrealloc]
      simp [hnull, Program.got]
    · obtain ⟨l, hl, rfl⟩ := hfollows.1.resolve_left hnull
      have hsrealloc : srealloc pf p.heap l.ptr size = some (NULL, p.heap.ready pf) := by
        rw [srealloc_grow (good_of_mem hinv hl) hl hlarge, hcall]
        rfl
      have hzero : size ≠ 0 := fun hzero => hbig (hzero ▸ fits_zero)
      refine ⟨⟨NULL, _, hsrealloc, fun hne => absurd rfl hne⟩, hkeeps ?_⟩
      rw [Program.step, hsrealloc]
      simp [hnull, hzero]

/-- A size that does not fit is more than there is behind any pointer. -/
theorem usable_lt_of_big (pf : Platform) (m : Mem) (hptr : 16 ≤ ptr) (hbig : ¬ SizeFits size) :
    ptr ≠ NULL ∧ ¬ size ≤ usable pf m ptr := by
  have husable : usable pf m ptr < 2 ^ 32 - 16 := usable_lt hptr
  rw [SizeFits, DYN_SIZE_MULT, DYN_HEADER_SIZE] at hbig
  rw [NULL]
  omega

/-- Such a size is not served when a block is found. -/
theorem not_serves_of_room (hinv : Inv pf p) (hfollows : p.Follows e) (hbig : ¬ SizeFits e.asked)
    (hne : u32 e.asked ≠ 0) (hroom : HasRoom pf (p.heap.ready pf).mem (blockSize (u32 e.asked))) :
    ¬ p.Serves pf e := by
  have hready := ready_good hinv
  have hagain : (p.heap.ready pf).ready pf = p.heap.ready pf := ready_of_good hready
  cases e with
  | smalloc size =>
    rintro ⟨ptr, h, hcall, hserved⟩
    rw [Event.asked, u32_of_lt hfollows] at hne hroom
    obtain ⟨hnull, hlt⟩ := usable_lt_of_big pf h.mem
      (smalloc_ne_null hready hne hroom hcall) hbig
    exact hlt (hserved hnull)
  | sfree ptr => exact absurd fits_zero hbig
  | write ptr offset bytes => exact absurd fits_zero hbig
  | scalloc nmemb size =>
    rintro ⟨ptr, h, hscalloc, hserved⟩
    obtain ⟨⟨ptr', h'⟩, hcall, hrest⟩ := Option.bind_eq_some_iff.mp hscalloc
    have hptr := smalloc_ne_null (by rwa [hagain]) hne (by rwa [hagain]) hcall
    obtain ⟨hnull, hlt⟩ := usable_lt_of_big pf h.mem hptr hbig
    have heq : ptr' = ptr := by
      have hsome := (if_pos hnull).symm.trans hrest
      exact congrArg Prod.fst (Option.some.inj hsome)
    exact hlt (heq ▸ (hserved (heq ▸ hnull)).1)
  | srealloc ptr size =>
    rintro ⟨new, h, hsrealloc, hserved⟩
    have hlarge : ¬ SizeFits size := hbig
    rw [Event.asked, u32_of_lt hfollows.2] at hne hroom
    have hnew : 16 ≤ new := by
      by_cases hnull : ptr = NULL
      · rw [srealloc, if_pos hnull] at hsrealloc
        exact smalloc_ne_null (by rwa [hagain]) hne (by rwa [hagain]) hsrealloc
      · obtain ⟨l, hl, rfl⟩ := hfollows.1.resolve_left hnull
        rw [srealloc_grow (good_of_mem hinv hl) hl hlarge] at hsrealloc
        obtain ⟨⟨new', h'⟩, hcall, hrest⟩ := Option.bind_eq_some_iff.mp hsrealloc
        have hptr := smalloc_ne_null hready hne hroom hcall
        dsimp only at hrest
        rw [if_neg (usable_lt_of_big pf h.mem hptr hbig).1, copyAndFree] at hrest
        obtain ⟨h'', -, heq⟩ := Option.map_eq_some_iff.mp hrest
        cases heq
        exact hptr
    obtain ⟨hnull, hlt⟩ := usable_lt_of_big pf h.mem hnew hbig
    exact hlt (hserved hnull)

/-! ### Runs -/

theorem keeps_sane (hinv : Inv pf p) (hsane : p.Sane pf e) : Keeps pf p e := by
  obtain ⟨hfollows, hmet⟩ := hsane
  by_cases hfits : SizeFits e.asked
  · refine keeps_step e hinv ?_
    cases e with
    | smalloc size => exact hfits
    | sfree ptr => exact hfollows
    | srealloc ptr size => exact ⟨hfollows.1, hfits⟩
    | scalloc nmemb size => exact hfits
    | write ptr offset bytes => exact hfollows
  · exact (keeps_of_null hinv hfollows hfits (hmet.resolve_left hfits)).2

theorem serves_iff_met (hinv : Inv pf p) (hfollows : p.Follows e) : p.Serves pf e ↔ p.Met pf e := by
  by_cases hfits : SizeFits e.asked
  · exact ⟨fun _ => .inl hfits, fun _ => serves_of_fits hinv hfollows hfits⟩
  · constructor
    · intro hserves
      by_contra hmet
      rw [Program.Met, not_or, not_or, not_not] at hmet
      exact not_serves_of_room hinv hfollows hfits hmet.2.1 hmet.2.2 hserves
    · exact fun hmet => (keeps_of_null hinv hfollows hfits (hmet.resolve_left hfits)).1

end Calls

/-- **Sizes**: a program whose requests were all met so far gets to
its next request, which is served exactly when it is met. A request
that is not met wraps around and gets a block that is too small. -/
theorem run_serves_iff (pf : Platform) (m : Mem) (es : List Event)
    (hsane : Run.AllSteps (Program.step pf) (Program.Sane pf) ⟨⟨m, false⟩, []⟩ es) :
    ∃ p, Run.run (Program.step pf) ⟨⟨m, false⟩, []⟩ es = some p ∧
      ∀ e, p.Follows e → (p.Serves pf e ↔ p.Met pf e) := by
  obtain ⟨p, hrun, hp⟩ := Run.progress_run (I := Inv pf)
    (fun p e hp hok => by
      obtain ⟨p', hstep, hp', -⟩ := keeps_sane hp hok
      exact ⟨p', hstep, hp'⟩) es ⟨⟨m, false⟩, []⟩ (.inl ⟨rfl, rfl⟩) hsane
  exact ⟨p, hrun, fun e hfollows => serves_iff_met hp hfollows⟩

/-- The hypotheses of `run_serves_iff` hold of two requests on two
regions. -/
theorem run_serves_iff_ram : ∃ p, Run.run (Program.step ram) ⟨⟨fun _ => 0xFF, false⟩, []⟩
      [.smalloc 5, .scalloc 20 8] = some p ∧
    ∀ e, p.Follows e → (p.Serves ram e ↔ p.Met ram e) :=
  have h5 : SizeFits 5 := by unfold SizeFits; decide
  have h160 : SizeFits (20 * 8) := by unfold SizeFits; decide
  have hsize (n : Nat) (h : n ≤ 20) : n < 2 ^ 32 := by omega
  run_serves_iff ram (fun _ => 0xFF) [.smalloc 5, .scalloc 20 8]
    ⟨⟨hsize 5 (by decide), .inl h5⟩, fun _ _ =>
      ⟨⟨⟨hsize 20 (by decide), hsize 8 (by decide)⟩, .inl h160⟩, fun _ _ => trivial⟩⟩

/-- The largest size wraps around, and gets a block without any usable bytes. -/
theorem not_always_serves :
    ¬ ∀ (pf : Platform) (m : Mem) (es : List Event) (p : Program),
      Run.run (Program.step pf) ⟨⟨m, false⟩, []⟩ es = some p →
        ∀ e, p.Follows e → p.Serves pf e := by
  intro h
  have hsize : 2 ^ 32 - 1 < 2 ^ 32 := by decide
  obtain ⟨ptr, h', hcall, hserved⟩ := h ram (fun _ => 0) [] _ rfl (.smalloc (2 ^ 32 - 1)) hsize
  have hresult : (smalloc ram ⟨fun _ => 0, false⟩ (2 ^ 32 - 1)).map
      (fun r => (r.1, usable ram r.2.mem r.1)) = some (0x1010, 0) := by
    decide +kernel
  rw [hcall] at hresult
  obtain ⟨hptr, husable⟩ : ptr = 0x1010 ∧ usable ram h'.mem ptr = 0 :=
    Prod.mk.inj (Option.some.inj hresult)
  have hne : ptr ≠ NULL := hptr ▸ by decide
  have hserved := hserved hne
  rw [husable] at hserved
  exact absurd hserved (by decide)

end Alcor.Proofs.Salloc
