import Alcor.Proofs.Salloc.Tiling

/-!
# `Alcor.Proofs.Salloc.Calls`: the functions on a region

What the functions of the allocator do with a tiled region is a
`Change`, and they end. The search for a free block is a loop over the
blocks of the region, so its lemmas follow the list of blocks.

* `getFreeBlock_spec`: a free block is taken, or nothing is done.
* `freeBlock_spec`: a block is freed and joined with its neighbours.
* `shrinkBlock_spec`: a block is cut, and keeps its first bytes.
* `initRegion_spec`: `s_init` makes a tiled region from any memory.
-/

set_option autoImplicit false

namespace Alcor.Proofs.Salloc

open Lib
open Alcor.Salloc

variable {size q : Nat}
variable {pf : Platform}

/-- The size of a block is a multiple of 8, and enough. -/
theorem sActSize_spec {n : Nat} (h : n ≤ 2 ^ 32 - DYN_SIZE_MULT) :
    sActSize n % 8 = 0 ∧ n ≤ sActSize n := by
  have hmask : n &&& (DYN_SIZE_MULT - 1) = n % 2 ^ 3 := Nat.and_two_pow_sub_one_eq_mod n 3
  have hshift : ((n >>> DYN_SIZE_MULT_SHIFT) + 1) <<< DYN_SIZE_MULT_SHIFT = (n / 8 + 1) * 8 := by
    rw [Nat.shiftRight_eq_div_pow, Nat.shiftLeft_eq]
    rfl
  rw [sActSize, hmask, hshift]
  rw [DYN_SIZE_MULT] at h
  split
  · -- the sum does not wrap around, as the number is not a multiple of 8
    rw [u32_of_lt (by omega)]
    omega
  · omega

section Blocks
variable {m : Mem} {r : Region} {nodes : List Nat} {x : Nat}

theorem size_eq (h : Tiled pf m r nodes) (hx : x ∈ nodes) (hlt : x < r.guard) :
    sGetBlockSize pf m x = sGetNextBlock pf m x - x := by
  have halmost := tiled_almost h x
  obtain ⟨hmem, hnext⟩ := halmost.next_mem hx hlt
  have hfits := halmost.ascending.lt _ hmem
  have hnull : sGetNextBlock pf m x ≠ NULL := by
    rw [NULL]
    omega
  rw [sGetBlockSize, if_pos hnull, sub32_of_le (Nat.le_of_lt hnext) hfits]

/-- A free block is no guard. -/
theorem free_between (h : Tiled pf m r nodes) (hx : x ∈ nodes)
    (hfree : sIsBlockFree pf m x = true) : x ≠ r.start ∧ x < r.guard := by
  have hbetween := (tiled_almost h x).between hx
  have hstart : x ≠ r.start := by
    rintro rfl
    rw [h.first_taken] at hfree
    cases hfree
  have hguard : x ≠ r.guard := by
    rintro rfl
    rw [h.last_taken] at hfree
    cases hfree
  omega

/-! ### The search -/

/-- The best fit so far. -/
def Best (pf : Platform) (m : Mem) (nodes : List Nat) (size : Nat) (s : Search) : Prop :=
  s.pblock = NULL ∨ (s.pblock ∈ nodes ∧ sIsBlockFree pf m s.pblock = true ∧
    s.minsize = sGetBlockSize pf m s.pblock ∧ size ≤ s.minsize)

/-- Nothing fits of the blocks that were looked at, unless there is a best fit. -/
def Missed (pf : Platform) (m : Mem) (size : Nat) (seen : List Nat) (s : Search) : Prop :=
  s.pblock = NULL → s.minsize = 2 ^ 32 - 1 ∧
    ∀ x ∈ seen, sIsBlockFree pf m x = true → sGetBlockSize pf m x < size

/-- The search goes through the rest of the blocks, and ends with what each round keeps. -/
theorem search_rule (h : Tiled pf m r nodes) {J : List Nat → Search → Prop}
    (hround : ∀ seen s s', s.temp ∈ nodes → J seen s → searchStep pf m size s = .inr s' →
      J (seen ++ [s.temp]) s') :
    ∀ (rest seen : List Nat) (s : Search) (k : Nat), nodes = seen ++ rest →
      s.temp = rest.headD NULL → rest.length < k → J seen s →
      ∃ s', Loop.run (searchStep pf m size) k s = some s' ∧ J nodes s' := by
  intro rest
  induction rest with
  | nil =>
    intro seen s k hnodes htemp hk hs
    obtain ⟨k, rfl⟩ := Nat.exists_eq_succ_of_ne_zero (Nat.ne_of_gt hk)
    have hnull : s.temp = NULL := htemp
    have hstep : searchStep pf m size s = .inl s := by rw [searchStep, if_pos hnull]
    rw [List.append_nil] at hnodes
    exact ⟨s, Loop.run_succ_of_inl hstep k, hnodes ▸ hs⟩
  | cons x rest ih =>
    intro seen s k hnodes htemp hk hs
    obtain ⟨k, rfl⟩ := Nat.exists_eq_succ_of_ne_zero (Nat.ne_of_gt (Nat.lt_of_le_of_lt
      (Nat.zero_le _) hk))
    rw [List.headD_cons] at htemp
    have hx : s.temp ∈ nodes := by rw [hnodes, htemp]; simp
    have hnull : s.temp ≠ NULL := by
      have hbetween := (tiled_almost h s.temp).between hx
      have hstart := r.start_ne
      rw [NULL] at hstart ⊢
      omega
    have hlinked := h.linked
    rw [hnodes] at hlinked
    have hnext : sGetNextBlock pf m s.temp = rest.headD NULL := htemp ▸ hlinked.next_eq
    have hrest : nodes = (seen ++ [s.temp]) ++ rest := by rw [hnodes, htemp]; simp
    -- found or not, the search goes on with the next block
    obtain ⟨s', hstep, htemp'⟩ : ∃ s', searchStep pf m size s = .inr s' ∧
        s'.temp = sGetNextBlock pf m s.temp := by
      rw [searchStep, if_neg hnull]
      dsimp only
      split
      · exact ⟨_, rfl, rfl⟩
      · exact ⟨_, rfl, rfl⟩
    rw [Loop.run_succ_of_inr hstep]
    exact ih (seen ++ [s.temp]) s' k hrest (htemp'.trans hnext) (Nat.lt_of_succ_lt_succ hk)
      (hround seen s s' hx hs hstep)

/-- What a round of the search does with a block. -/
theorem searchStep_cases {s s' : Search} (hstep : searchStep pf m size s = .inr s') :
    ((sIsBlockFree pf m s.temp = true ∧ size ≤ sGetBlockSize pf m s.temp ∧
        sGetBlockSize pf m s.temp < s.minsize) ∧
      s'.pblock = s.temp ∧ s'.minsize = sGetBlockSize pf m s.temp) ∨
    (¬ (sIsBlockFree pf m s.temp = true ∧ size ≤ sGetBlockSize pf m s.temp ∧
        sGetBlockSize pf m s.temp < s.minsize) ∧
      s'.pblock = s.pblock ∧ s'.minsize = s.minsize) := by
  rw [searchStep] at hstep
  split at hstep
  · cases hstep
  · dsimp only at hstep
    split at hstep
    · next hfound =>
        cases hstep
        exact .inl ⟨hfound, rfl, rfl⟩
    · next hfound =>
        cases hstep
        exact .inr ⟨hfound, rfl, rfl⟩

/-- A block is not as large as the address space. -/
theorem size_lt (h : Tiled pf m r nodes) (hx : x ∈ nodes) (hlt : x < r.guard) :
    sGetBlockSize pf m x < 2 ^ 32 - 1 := by
  have halmost := tiled_almost h x
  have hfits := halmost.ascending.lt _ (halmost.next_mem hx hlt).1
  have hlo := (halmost.between hx).1
  have hstart := r.start_ne
  rw [NULL] at hstart
  rw [size_eq h hx hlt]
  omega

/-- The search starts behind the first guard, and finds a block if there is one. -/
theorem search_start (h : Tiled pf m r nodes) (size : Nat) :
    ∃ s', Loop.run (searchStep pf m size) ROUNDS { temp := sGetNextBlock pf m r.start } =
      some s' ∧ Best pf m nodes size s' ∧ Missed pf m size nodes s' := by
  have halmost := tiled_almost h NULL
  have hlength := halmost.ascending.length_lt
  have hfirst := h.first
  cases hnodes : nodes with
  | nil =>
    rw [hnodes] at hfirst
    cases hfirst
  | cons a rest =>
    rw [hnodes, List.take_succ_cons, List.cons.injEq] at hfirst
    -- the first guard starts the region
    have hnext : sGetNextBlock pf m r.start = rest.headD NULL := by
      have hlinked := h.linked
      rw [hnodes, hfirst.1] at hlinked
      exact hlinked.1
    rw [hnodes, List.length_cons] at hlength
    rw [← hnodes]
    refine search_rule h (J := fun seen s => Best pf m nodes size s ∧ Missed pf m size seen s)
      (fun seen s s' htemp ⟨hbest, hmissed⟩ hstep => ?_) rest [a] _ ROUNDS hnodes hnext hlength
      ⟨.inl rfl, fun _ => ⟨rfl, fun x hx hfree => ?_⟩⟩
    · rcases searchStep_cases hstep with ⟨hfound, hpblock, hminsize⟩ | ⟨hfound, hpblock, hminsize⟩
      · -- a better fit
        refine ⟨.inr ?_, fun hnull => ?_⟩
        · rw [hpblock, hminsize]
          exact ⟨htemp, hfound.1, rfl, hfound.2.1⟩
        · have hbetween := (tiled_almost h s.temp).between htemp
          have hstart := r.start_ne
          rw [hpblock] at hnull
          rw [hnull, NULL] at hbetween
          rw [NULL] at hstart
          omega
      · refine ⟨?_, fun hnull => ?_⟩
        · rw [Best, hpblock, hminsize]
          exact hbest
        · obtain ⟨hmax, hseen⟩ := hmissed (hpblock ▸ hnull)
          refine ⟨hminsize.trans hmax, fun x hx hfree => ?_⟩
          rcases List.mem_append.mp hx with hx | hx
          · exact hseen x hx hfree
          · rw [List.mem_singleton.mp hx] at hfree ⊢
            have hlt := size_lt h htemp (free_between h htemp hfree).2
            rw [hmax] at hfound
            by_contra hle
            exact hfound ⟨hfree, Nat.le_of_not_lt hle, hlt⟩
    · -- the first guard is taken
      rw [List.mem_singleton.mp hx, hfirst.1, h.first_taken] at hfree
      cases hfree

/-! ### Taking a block -/

/-- A free block is marked as taken. -/
theorem taken_change (h : Tiled pf m r nodes) (hx : x ∈ nodes) :
    Change pf m (sMarkBlockTaken pf m x) r nodes nodes x := by
  have halmost := tiled_almost h x
  have hxmod := h.aligned x hx
  have htouch : Touches [x] m (sMarkBlockTaken pf m x) := touches_first
  have hwritten : ∀ q ∈ [x], q ∈ nodes := by simpa using hx
  have hfree : ∀ q ∈ nodes, sIsBlockFree pf m q = false →
      sIsBlockFree pf (sMarkBlockTaken pf m x) q = false := by
    intro q hq htaken
    rw [free_markTaken hxmod (h.aligned q hq)]
    split
    · rfl
    · exact htaken
  have htiled : Tiled pf (sMarkBlockTaken pf m x) r nodes := by
    constructor
    · exact h.linked.congr fun q hq =>
        ⟨next_markTaken hxmod (h.aligned q hq), prev_markTaken hxmod (h.aligned q hq)⟩
    · exact h.chain.imp_of_mem_imp fun a b ha hb hab =>
        ⟨hab.1, hab.2.imp (hfree a ha) (hfree b hb)⟩
    · exact h.aligned
    · exact h.first
    · exact h.last
    · exact hfree _ halmost.start_mem h.first_taken
    · exact hfree _ halmost.guard_mem h.last_taken
  refine ⟨htiled, fun q hq _ htaken => ?_,
    fun a ha => halmost.outside_of_touches htouch hwritten ha⟩
  exact ⟨hq, hfree q hq htaken, next_markTaken hxmod (h.aligned q hq),
    fun a hlo hhi => halmost.payload_of_touches htouch hwritten hq hlo hhi⟩

/-- Changes that are about the same block, one after the other. -/
theorem Change.trans {m' m'' : Mem} {nodes' nodes'' : List Nat}
    (h : Change pf m m' r nodes nodes' x) (h' : Change pf m' m'' r nodes' nodes'' x) :
    Change pf m m'' r nodes nodes'' x where
  tiled := h'.tiled
  kept q hq hne htaken := by
    have hkept := h.kept q hq hne htaken
    exact hkept.trans (h'.kept q hkept.mem hne hkept.taken)
  outside a ha := (h'.outside a ha).trans (h.outside a ha)

/-- A taken block with room for `size` bytes behind the header. -/
structure Room (pf : Platform) (m : Mem) (r : Region) (nodes : List Nat) (x size : Nat) : Prop where
  mem : x ∈ nodes
  start_ne : x ≠ r.start
  lt_guard : x < r.guard
  taken : sIsBlockFree pf m x = false
  fits : x + DYN_HEADER_SIZE + size ≤ sGetNextBlock pf m x

theorem change_refl (h : Tiled pf m r nodes) : Change pf m m r nodes nodes x where
  tiled := h
  kept _ hq _ htaken := ⟨hq, htaken, rfl, fun _ _ _ => rfl⟩
  outside _ _ := rfl

/-- The address behind a header has 32 bits. -/
theorem payload_lt {x : Nat} (hx : x < r.guard) : x + DYN_HEADER_SIZE < 2 ^ 32 := by
  have hfits := r.fits
  have hguard := guard_add r
  rw [DYN_HEADER_SIZE]
  omega

/-- The header of a payload. -/
theorem header_of_payload {x : Nat} (hx : x < r.guard) :
    sub32 (x + DYN_HEADER_SIZE) DYN_HEADER_SIZE = x := by
  rw [sub32_of_le (Nat.le_add_left _ _) (payload_lt hx), Nat.add_sub_cancel]

/-- What `s_get_free_block` does: nothing, or a free block is taken. -/
theorem getFreeBlock_spec (h : Tiled pf m r nodes) (hsize : SizeFits size) :
    sGetFreeBlock pf m size r.start = some (NULL, m) ∨
      ∃ x m' nodes', sGetFreeBlock pf m size r.start = some (x + DYN_HEADER_SIZE, m') ∧
        0 < size ∧ x ∈ nodes ∧ sIsBlockFree pf m x = true ∧ Change pf m m' r nodes nodes' x ∧
        Room pf m' r nodes' x size := by
  by_cases hzero : size = 0
  · left
    rw [sGetFreeBlock, if_pos hzero]
  rw [SizeFits] at hsize
  have hu32 : u32 (size + DYN_HEADER_SIZE) = size + DYN_HEADER_SIZE := by
    refine u32_of_lt ?_
    rw [DYN_SIZE_MULT] at hsize
    omega
  obtain ⟨hmod, hact⟩ := sActSize_spec hsize
  obtain ⟨act, hactdef⟩ : ∃ act, act = sActSize (size + DYN_HEADER_SIZE) := ⟨_, rfl⟩
  obtain ⟨s, hrun, hbest, -⟩ := search_start h act
  rw [← hactdef] at hmod hact
  rw [sGetFreeBlock, if_neg hzero, hu32, ← hactdef]
  simp only [hrun, Option.bind_eq_bind, Option.bind_some]
  rcases hbest with hnull | ⟨hmem, hfree, hminsize, hle⟩
  · left
    rw [if_pos hnull]
  · right
    obtain ⟨hstart, hguard⟩ := free_between h hmem hfree
    have hnull : s.pblock ≠ NULL := by
      have hbetween := (tiled_almost h s.pblock).between hmem
      have hne := r.start_ne
      rw [NULL] at hne ⊢
      omega
    have hptr := u32_of_lt (payload_lt hguard)
    rw [if_neg hnull, hptr]
    have hbsize := size_eq h hmem hguard
    rw [hbsize] at hminsize
    -- the block is taken before it is cut
    have htaken := taken_change h hmem
    have hxmod := h.aligned _ hmem
    have hnext : sGetNextBlock pf (sMarkBlockTaken pf m s.pblock) s.pblock =
        sGetNextBlock pf m s.pblock := next_markTaken hxmod hxmod
    have hbit : sIsBlockFree pf (sMarkBlockTaken pf m s.pblock) s.pblock = false := by
      rw [free_markTaken hxmod hxmod, if_pos rfl]
    by_cases hcut : s.minsize > act ∧ s.minsize - act ≥ DYN_MIN_SPLIT_SIZE
    · obtain ⟨m', nodes', hsplit, hchange, hcutspec⟩ := split_change htaken.tiled hmem
        hstart hguard hbit hmod (by rw [DYN_HEADER_SIZE] at hact; omega) (by rw [hnext]; omega)
      refine ⟨s.pblock, m', nodes', ?_, Nat.pos_of_ne_zero hzero, hmem, hfree, htaken.trans hchange,
        hcutspec.mem, hstart, hguard, hcutspec.taken, ?_⟩
      · rw [if_pos hcut, hsplit, Option.map_some]
      · rw [hcutspec.next, Nat.add_assoc, Nat.add_comm DYN_HEADER_SIZE]
        exact Nat.add_le_add_left hact _
    · refine ⟨s.pblock, _, nodes, if_neg hcut, Nat.pos_of_ne_zero hzero, hmem, hfree, htaken, hmem,
        hstart, hguard, hbit, ?_⟩
      rw [hnext]
      omega

/-! ### Freeing and shrinking -/

theorem freeBlock_spec (h : Tiled pf m r nodes) (hx : x ∈ nodes) (hstart : x ≠ r.start)
    (hguard : x < r.guard) :
    ∃ m' nodes', sFreeBlock pf m (x + DYN_HEADER_SIZE) = some m' ∧
      Change pf m m' r nodes nodes' x := by
  obtain ⟨m', nodes', hcompact, hchange⟩ :=
    compact_change (tiled_almost h x) hx hstart (Nat.ne_of_lt hguard)
  refine ⟨m', nodes', ?_, hchange⟩
  rw [sFreeBlock, header_of_payload hguard, hcompact]

/-- The payload is what is between the header and the next block. -/
theorem actualBlockSize_eq (h : Tiled pf m r nodes) (hx : x ∈ nodes) (hguard : x < r.guard) :
    sGetActualBlockSize pf m (x + DYN_HEADER_SIZE) =
      sGetNextBlock pf m x - (x + DYN_HEADER_SIZE) ∧
    x + DYN_HEADER_SIZE ≤ sGetNextBlock pf m x := by
  have halmost := tiled_almost h x
  obtain ⟨hmem, hlt⟩ := halmost.next_mem hx hguard
  have hnextlt := halmost.ascending.lt _ hmem
  have hxmod := h.aligned x hx
  have hnextmod := h.aligned _ hmem
  have hle : x + DYN_HEADER_SIZE ≤ sGetNextBlock pf m x := by
    rw [DYN_SIZE_MULT] at hxmod hnextmod
    rw [DYN_HEADER_SIZE]
    omega
  refine ⟨?_, hle⟩
  rw [sGetActualBlockSize, header_of_payload hguard, size_eq h hx hguard,
    sub32_of_le (by omega) (by omega), Nat.sub_sub]

/-- A block that is shrunk keeps its first bytes. -/
theorem shrinkBlock_spec (h : Tiled pf m r nodes) (hx : x ∈ nodes) (hstart : x ≠ r.start)
    (hguard : x < r.guard) (htaken : sIsBlockFree pf m x = false) (hsize : SizeFits size)
    (hlt : size < sGetActualBlockSize pf m (x + DYN_HEADER_SIZE)) :
    ∃ m' nodes', sShrinkBlock pf m (x + DYN_HEADER_SIZE) size = some m' ∧
      Change pf m m' r nodes nodes' x ∧ Room pf m' r nodes' x size ∧
      ∀ a, x + DYN_HEADER_SIZE ≤ a → a < x + DYN_HEADER_SIZE + size → m' a = m a := by
  rw [SizeFits] at hsize
  have hu32 : u32 (size + DYN_HEADER_SIZE) = size + DYN_HEADER_SIZE := by
    refine u32_of_lt ?_
    rw [DYN_SIZE_MULT] at hsize
    omega
  obtain ⟨hmod, hact⟩ := sActSize_spec hsize
  have hactual := (actualBlockSize_eq h hx hguard).1
  rw [sShrinkBlock, header_of_payload hguard, hu32, size_eq h hx hguard]
  obtain ⟨act, hactdef⟩ : ∃ act, act = sActSize (size + DYN_HEADER_SIZE) := ⟨_, rfl⟩
  rw [← hactdef] at hmod hact ⊢
  split
  · -- too little would be cut off
    refine ⟨m, nodes, rfl, change_refl h, ⟨hx, hstart, hguard, htaken, ?_⟩, fun _ _ _ => rfl⟩
    omega
  · obtain ⟨m', nodes', hsplit, hchange, hcut⟩ := split_change h hx hstart hguard
      htaken hmod (by rw [DYN_HEADER_SIZE] at hact; omega) (by omega)
    refine ⟨m', nodes', hsplit, hchange, ⟨hcut.mem, hstart, hguard, hcut.taken, ?_⟩,
      fun a hlo hhi => hcut.payload a hlo ?_⟩
    · rw [hcut.next, Nat.add_assoc, Nat.add_comm DYN_HEADER_SIZE]
      exact Nat.add_le_add_left hact _
    · omega

/-! ### Writing into a payload -/

/-- Only headers matter for a tiled region. -/
theorem tiled_congr {m' : Mem} (h : Tiled pf m r nodes)
    (hsame : ∀ q ∈ nodes, ∀ a, q ≤ a → a < q + 8 → m' a = m a) : Tiled pf m' r nodes := by
  have halmost := tiled_almost h NULL
  have hheader := fun q hq => header_congr pf (hsame q hq)
  constructor
  · exact h.linked.congr fun q hq => ⟨(hheader q hq).1, (hheader q hq).2.1⟩
  · refine h.chain.imp_of_mem_imp fun a b ha hb hab => ?_
    rwa [(hheader a ha).2.2, (hheader b hb).2.2]
  · exact h.aligned
  · exact h.first
  · exact h.last
  · rw [(hheader _ halmost.start_mem).2.2, h.first_taken]
  · rw [(hheader _ halmost.guard_mem).2.2, h.last_taken]

/-- A write into the payload of a block. -/
theorem write_change (h : Tiled pf m r nodes) (hroom : Room pf m r nodes x size) (a : Nat)
    (bs : List UInt8) (hlo : x + DYN_HEADER_SIZE ≤ a)
    (hhi : a + bs.length ≤ sGetNextBlock pf m x) :
    Change pf m (m.store a bs) r nodes nodes x ∧ Room pf (m.store a bs) r nodes x size := by
  have halmost := tiled_almost h x
  -- headers are before the payload, or behind it
  have hheader : ∀ q ∈ nodes, ∀ b, q ≤ b → b < q + 8 → m.store a bs b = m b := by
    intro q hq b hqb hbq
    rw [DYN_HEADER_SIZE] at hlo
    rcases halmost.apart hroom.mem hq with hle | hle
    · exact Mem.store_of_lt m a bs (by omega)
    · exact Mem.store_of_ge m a bs (by omega)
  have hsame := fun q hq => header_congr pf (hheader q hq)
  refine ⟨⟨tiled_congr h hheader, fun q hq hne htaken => ?_, fun b hb => ?_⟩, ?_⟩
  · -- the payload of another block is before the header of this one, or behind its payload
    refine ⟨hq, (hsame q hq).2.2.trans htaken, (hsame q hq).1, fun b hqb hbq => ?_⟩
    rcases halmost.apart hroom.mem hq with hle | hle
    · rcases halmost.apart hq hroom.mem with hle' | hle'
      · exact absurd (Nat.le_antisymm hle hle') hne
      · exact Mem.store_of_lt m a bs (by omega)
    · exact Mem.store_of_ge m a bs (by omega)
  · have hbetween := halmost.between hroom.mem
    obtain ⟨hmem, -⟩ := halmost.next_mem hroom.mem hroom.lt_guard
    have hnext := (halmost.between hmem).2
    have hguard := guard_add r
    rcases hb with hb | hb
    · exact Mem.store_of_lt m a bs (by omega)
    · exact Mem.store_of_ge m a bs (by omega)
  · refine ⟨hroom.mem, hroom.start_ne, hroom.lt_guard, ?_, ?_⟩
    · rw [(hsame x hroom.mem).2.2, hroom.taken]
    · rw [(hsame x hroom.mem).1]
      exact hroom.fits

end Blocks

/-! ### The first blocks -/

/-- A new block is free, with the links it is given. -/
theorem create_spec (m : Mem) {p n b : Nat} (hp : p % 8 = 0) (hn : Fits n) (hb : Fits b)
    (hq : q % 8 = 0) :
    sGetNextBlock pf (sCreateNewBlock pf m p n b) q =
        (if q = p then n else sGetNextBlock pf m q) ∧
      sGetPrevBlock pf (sCreateNewBlock pf m p n b) q =
        (if q = p then b else sGetPrevBlock pf m q) ∧
      (q ≠ p → sIsBlockFree pf (sCreateNewBlock pf m p n b) q = sIsBlockFree pf m q) := by
  obtain ⟨hnmod, hnlt⟩ := hn
  obtain ⟨hbmod, hblt⟩ := hb
  have hshift : ∀ v : Nat, v >>> DYN_SIZE_MULT_SHIFT = v / 8 := fun v =>
    Nat.shiftRight_eq_div_pow v 3
  rw [sCreateNewBlock, hshift, hshift]
  have hsecond := word_second pf (m := setWord pf m p (n / 8)) (v := b / 8) hp hq
  have hfirst := word_first pf (m := m) (v := n / 8) hp hq
  refine ⟨?_, ?_, fun hne => ?_⟩
  · rw [next_eq, hsecond.1]
    split
    · next heq =>
        rw [heq, word_setWord_self _ _ (by omega)]
        omega
    · next hne => rw [hfirst.1 hne, next_eq]
  · rw [prev_eq]
    split
    · next heq =>
        rw [heq, word_setWord_self _ _ (by omega)]
        omega
    · next hne => rw [hsecond.2 hne, hfirst.2, prev_eq]
  · rw [free_eq, hsecond.1, hfirst.1 hne, free_eq]

theorem touches_create (pf : Platform) (m : Mem) (p n b : Nat) :
    Touches [p] m (sCreateNewBlock pf m p n b) :=
  (touches_first.trans touches_second).mono (by simp)

/-- The address of the last guard does not wrap around. -/
theorem guard_eq (r : Region) :
    sub32 (u32 (r.start + sub32 (u32 (r.start + r.size)) r.start)) DYN_SIZE_MULT = r.guard := by
  have hfits := r.fits
  have hsize := r.size_ge
  have hstart := r.start_ne
  rw [NULL] at hstart
  rw [DYN_SIZE_MULT] at hsize
  have hspace : sub32 (u32 (r.start + r.size)) r.start = r.size := by
    rw [sub32, u32, u32]
    omega
  rw [hspace, Region.guard, DYN_SIZE_MULT, sub32, u32, u32]
  omega

/-- Two guards around a block. -/
def guarded (pf : Platform) (m : Mem) (g1 crt g2 : Nat) : Mem :=
  sMarkBlockFree pf (sMarkBlockTaken pf (sMarkBlockTaken pf (sCreateNewBlock pf (sCreateNewBlock pf
    (sCreateNewBlock pf m g1 crt NULL) crt g2 g1) g2 NULL crt) g1) g2) crt

theorem initRegion_eq (m : Mem) (r : Region) :
    initRegion pf m r = guarded pf m r.start (r.start + DYN_SIZE_MULT) r.guard := by
  rw [← guard_eq r]
  rfl

section Guarded
variable (pf : Platform) (m : Mem) {g1 crt g2 : Nat}

theorem touches_guarded : Touches [g1, crt, g2] m (guarded pf m g1 crt g2) := by
  have hcreate := ((touches_create pf m g1 crt NULL).trans
    (touches_create pf _ crt g2 g1)).trans (touches_create pf _ g2 NULL crt)
  exact (((hcreate.trans touches_first).trans touches_first).trans touches_first).mono (by simp)

theorem guarded_next (h1 : Fits g1) (hc : Fits crt) (h2 : Fits g2) (hq : q % 8 = 0) :
    sGetNextBlock pf (guarded pf m g1 crt g2) q =
      if q = g2 then NULL else if q = crt then g2 else if q = g1 then crt
      else sGetNextBlock pf m q := by
  have hnull : Fits NULL := ⟨rfl, by decide⟩
  rw [guarded, next_markFree hc.1 hq, next_markTaken h2.1 hq, next_markTaken h1.1 hq,
    (create_spec _ h2.1 hnull hc hq).1, (create_spec _ hc.1 h2 h1 hq).1,
    (create_spec _ h1.1 hc hnull hq).1]

theorem guarded_prev (h1 : Fits g1) (hc : Fits crt) (h2 : Fits g2) (hq : q % 8 = 0) :
    sGetPrevBlock pf (guarded pf m g1 crt g2) q =
      if q = g2 then crt else if q = crt then g1 else if q = g1 then NULL
      else sGetPrevBlock pf m q := by
  have hnull : Fits NULL := ⟨rfl, by decide⟩
  rw [guarded, prev_markFree hc.1 hq, prev_markTaken h2.1 hq, prev_markTaken h1.1 hq,
    (create_spec _ h2.1 hnull hc hq).2.1, (create_spec _ hc.1 h2 h1 hq).2.1,
    (create_spec _ h1.1 hc hnull hq).2.1]

theorem guarded_taken (h1 : Fits g1) (hc : Fits crt) (h2 : Fits g2) (hlt : g1 < crt)
    (hlt' : crt < g2) :
    sIsBlockFree pf (guarded pf m g1 crt g2) g1 = false ∧
      sIsBlockFree pf (guarded pf m g1 crt g2) g2 = false := by
  constructor
  · rw [guarded, free_markFree hc.1 h1.1, if_neg (by omega), free_markTaken h2.1 h1.1,
      if_neg (by omega), free_markTaken h1.1 h1.1, if_pos rfl]
  · rw [guarded, free_markFree hc.1 h2.1, if_neg (by omega), free_markTaken h2.1 h2.1, if_pos rfl]

end Guarded

/-- Whatever is in the memory, a region is tiled by a block between two guards. -/
theorem initRegion_spec (pf : Platform) (m : Mem) (r : Region) :
    Tiled pf (initRegion pf m r) r [r.start, r.start + DYN_SIZE_MULT, r.guard] ∧
      ∀ a, a < r.start ∨ r.start + r.size ≤ a → initRegion pf m r a = m a := by
  have hguard := guard_add r
  have hroom := start_lt_guard r
  have hstart : Fits r.start := ⟨r.start_aligned, by have := guard_lt r; omega⟩
  have hcrt : Fits (r.start + 8) := ⟨by have := hstart.1; omega, by have := guard_lt r; omega⟩
  have hlast : Fits r.guard := by
    refine ⟨?_, guard_lt r⟩
    have hsize := r.size_aligned
    rw [DYN_SIZE_MULT] at hsize
    have := hstart.1
    omega
  have hlt : r.start < r.start + 8 := by omega
  have hlt' : r.start + 8 < r.guard := by omega
  have hnext := fun q hq => guarded_next pf m (q := q) hstart hcrt hlast hq
  have hprev := fun q hq => guarded_prev pf m (q := q) hstart hcrt hlast hq
  have htaken := guarded_taken pf m hstart hcrt hlast hlt hlt'
  rw [initRegion_eq, DYN_SIZE_MULT]
  refine ⟨⟨?_, ?_, ?_, rfl, rfl, htaken.1, htaken.2⟩, fun a ha => ?_⟩
  · -- the links
    refine ⟨?_, ?_, ⟨?_, ?_, ⟨?_, ?_, trivial⟩⟩⟩
    · rw [hnext _ hstart.1, if_neg (by omega), if_neg (by omega), if_pos rfl]
      rfl
    · rw [hprev _ hstart.1, if_neg (by omega), if_neg (by omega), if_pos rfl]
    · rw [hnext _ hcrt.1, if_neg (by omega), if_pos rfl]
      rfl
    · rw [hprev _ hcrt.1, if_neg (by omega), if_pos rfl]
    · rw [hnext _ hlast.1, if_pos rfl]
      rfl
    · rw [hprev _ hlast.1, if_pos rfl]
  · simp only [List.isChain_cons_cons, List.isChain_singleton, and_true]
    exact ⟨⟨hlt, .inl htaken.1⟩, ⟨hlt', .inr htaken.2⟩⟩
  · intro x hx
    simp only [List.mem_cons, List.not_mem_nil, or_false] at hx
    rcases hx with rfl | rfl | rfl
    · exact hstart.1
    · exact hcrt.1
    · exact hlast.1
  · refine touches_guarded pf m a fun x hx => ?_
    simp only [List.mem_cons, List.not_mem_nil, or_false] at hx
    rcases hx with rfl | rfl | rfl <;> omega

end Alcor.Proofs.Salloc
