import Mathlib.Data.List.Chain
import Alcor.Proofs.Salloc.Headers

/-!
# `Alcor.Proofs.Salloc.Tiling`: operations on a region

`Almost` is `Tiled` with the exception of one block, that may be free
beside a free one, as is the case before it is joined. `Change` says
what an operation that is about one block may do with a region: after
it the region is tiled, the other taken blocks are there with what they
hold, and nothing outside the region is changed.

* `compact_change`: freeing a block, and joining it, does no more.
* `split_change`: cutting a block in two does no more.
-/

set_option autoImplicit false

namespace Alcor.Proofs.Salloc

open Lib
open Alcor.Salloc

variable {pf : Platform}

/-- The blocks of a region, where `t` may be free beside a free block. -/
structure Almost (pf : Platform) (m : Mem) (r : Region) (nodes : List Nat) (t : Nat) : Prop where
  linked : Linked (sGetNextBlock pf m) (sGetPrevBlock pf m) NULL nodes NULL
  chain : nodes.IsChain fun x y => x < y ∧
    (sIsBlockFree pf m x = false ∨ sIsBlockFree pf m y = false ∨ x = t ∨ y = t)
  aligned : ∀ x ∈ nodes, x % DYN_SIZE_MULT = 0
  first : nodes.take 2 = [r.start, r.start + DYN_SIZE_MULT]
  last : nodes.getLast? = some r.guard
  first_taken : sIsBlockFree pf m r.start = false
  last_taken : sIsBlockFree pf m r.guard = false

theorem tiled_almost {m : Mem} {r : Region} {nodes : List Nat} (h : Tiled pf m r nodes)
    (t : Nat) : Almost pf m r nodes t where
  linked := h.linked
  chain := h.chain.imp fun _ _ hxy => ⟨hxy.1, hxy.2.elim .inl fun hy => .inr (.inl hy)⟩
  aligned := h.aligned
  first := h.first
  last := h.last
  first_taken := h.first_taken
  last_taken := h.last_taken

theorem guard_add (r : Region) : r.guard + 8 = r.start + r.size := by
  have hsize := r.size_ge
  simp only [Region.guard, DYN_SIZE_MULT] at hsize ⊢
  omega

theorem start_lt_guard (r : Region) : r.start + 16 ≤ r.guard := by
  have hsize := r.size_ge
  simp only [Region.guard, DYN_SIZE_MULT] at hsize ⊢
  omega

theorem guard_lt (r : Region) : r.guard < 2 ^ 32 := by
  have hguard := guard_add r
  have hfits := r.fits
  omega

section Facts
variable {m : Mem} {r : Region} {nodes : List Nat} {t x : Nat}

theorem Almost.sorted (h : Almost pf m r nodes t) : nodes.Pairwise (· < ·) :=
  List.isChain_iff_pairwise.mp (h.chain.imp fun _ _ hxy => hxy.1)

theorem Almost.start_mem (h : Almost pf m r nodes t) : r.start ∈ nodes :=
  List.mem_of_mem_take (h.first ▸ List.mem_cons_self)

theorem Almost.guard_mem (h : Almost pf m r nodes t) : r.guard ∈ nodes :=
  List.mem_of_getLast? h.last

/-- Blocks are between the guards. -/
theorem Almost.between (h : Almost pf m r nodes t) (hx : x ∈ nodes) :
    r.start ≤ x ∧ x ≤ r.guard := by
  have hsorted := h.sorted
  constructor
  · cases nodes with
    | nil => exact absurd hx List.not_mem_nil
    | cons a as =>
      have hfirst := h.first
      rw [List.take_succ_cons, List.cons.injEq] at hfirst
      rcases List.mem_cons.mp hx with rfl | hx
      · exact Nat.le_of_eq hfirst.1.symm
      · exact hfirst.1 ▸ Nat.le_of_lt ((List.pairwise_cons.mp hsorted).1 x hx)
  · obtain ⟨as, hnodes⟩ := List.getLast?_eq_some_iff.mp h.last
    rw [hnodes, List.pairwise_append] at hsorted
    rw [hnodes] at hx
    rcases List.mem_append.mp hx with hx | hx
    · exact Nat.le_of_lt (hsorted.2.2 x hx r.guard List.mem_cons_self)
    · exact Nat.le_of_eq (List.mem_singleton.mp hx)

theorem Almost.ascending (h : Almost pf m r nodes t) : Ascending nodes where
  sorted := h.sorted
  aligned := h.aligned
  lt _ hx := Nat.lt_of_le_of_lt (h.between hx).2 (guard_lt r)

/-- A header is at or before a block, or behind its payload. -/
theorem Almost.apart (h : Almost pf m r nodes t) (hx : x ∈ nodes) {y : Nat} (hy : y ∈ nodes) :
    y ≤ x ∨ sGetNextBlock pf m x ≤ y := by
  obtain ⟨pre, post, rfl⟩ := List.append_of_mem hx
  have hnext := h.linked.next_eq
  have hsorted := h.sorted
  rw [List.pairwise_append, List.pairwise_cons] at hsorted
  obtain ⟨-, ⟨-, hpost⟩, hpre⟩ := hsorted
  rcases List.mem_append.mp hy with hy | hy
  · exact .inl (Nat.le_of_lt (hpre y hy x List.mem_cons_self))
  · rcases List.mem_cons.mp hy with rfl | hy
    · exact .inl (Nat.le_refl _)
    · -- `y` is behind `x`, and the next block is the first of those
      right
      rw [hnext]
      cases post with
      | nil => exact absurd hy List.not_mem_nil
      | cons z zs =>
        rcases List.mem_cons.mp hy with rfl | hy
        · exact Nat.le_refl _
        · exact Nat.le_of_lt ((List.pairwise_cons.mp hpost).1 y hy)

/-- A block before the last guard ends at a block. -/
theorem Almost.next_mem (h : Almost pf m r nodes t) (hx : x ∈ nodes) (hlt : x < r.guard) :
    sGetNextBlock pf m x ∈ nodes ∧ x < sGetNextBlock pf m x := by
  obtain ⟨pre, post, rfl⟩ := List.append_of_mem hx
  have hnext := h.linked.next_eq
  have hsorted := h.sorted
  have hlast := h.last
  cases post with
  | nil =>
    rw [List.getLast?_append_cons, List.getLast?_singleton, Option.some.injEq] at hlast
    omega
  | cons y ys =>
    rw [List.pairwise_append, List.pairwise_cons] at hsorted
    rw [hnext, List.headD_cons]
    exact ⟨by simp, hsorted.2.1.1 y List.mem_cons_self⟩

end Facts

/-! ### Changes -/

/-- A taken block is there, with what it holds. -/
structure Kept (pf : Platform) (m m' : Mem) (nodes' : List Nat) (x : Nat) : Prop where
  mem : x ∈ nodes'
  taken : sIsBlockFree pf m' x = false
  next : sGetNextBlock pf m' x = sGetNextBlock pf m x
  payload : ∀ a, x + DYN_HEADER_SIZE ≤ a → a < sGetNextBlock pf m x → m' a = m a

/-- What an operation about the block `w` may change. -/
structure Change (pf : Platform) (m m' : Mem) (r : Region) (nodes nodes' : List Nat)
    (w : Nat) : Prop where
  tiled : Tiled pf m' r nodes'
  kept : ∀ x ∈ nodes, x ≠ w → sIsBlockFree pf m x = false → Kept pf m m' nodes' x
  outside : ∀ a, a < r.start ∨ r.start + r.size ≤ a → m' a = m a

section Changes
variable {m m' m'' : Mem} {r : Region} {nodes nodes' nodes'' : List Nat} {t w x : Nat}

theorem Kept.trans (h : Kept pf m m' nodes' x) (h' : Kept pf m' m'' nodes'' x) :
    Kept pf m m'' nodes'' x where
  mem := h'.mem
  taken := h'.taken
  next := h'.next.trans h.next
  payload a hlo hhi := (h'.payload a hlo (h.next.symm ▸ hhi)).trans (h.payload a hlo hhi)

/-- Writes into headers are no writes into payloads. -/
theorem Almost.payload_of_touches (h : Almost pf m r nodes t) {hs : List Nat}
    (htouch : Touches hs m m') (hsub : ∀ y ∈ hs, y ∈ nodes) (hx : x ∈ nodes) {a : Nat}
    (hlo : x + DYN_HEADER_SIZE ≤ a) (hhi : a < sGetNextBlock pf m x) : m' a = m a := by
  refine htouch a fun y hy => ?_
  simp only [DYN_HEADER_SIZE] at hlo
  rcases h.apart hx (hsub y hy) with hle | hle
  · exact .inr (by omega)
  · exact .inl (by omega)

/-- Writes into headers are no writes outside the region. -/
theorem Almost.outside_of_touches (h : Almost pf m r nodes t) {hs : List Nat}
    (htouch : Touches hs m m') (hsub : ∀ y ∈ hs, y ∈ nodes) {a : Nat}
    (ha : a < r.start ∨ r.start + r.size ≤ a) : m' a = m a := by
  refine htouch a fun y hy => ?_
  have hbetween := h.between (hsub y hy)
  have hguard := guard_add r
  omega

/-! ### Freeing a block -/

/-- The first two blocks are not among those that are joined away. -/
theorem take_two_join (pre fs₁ post post' : List Nat) (z t : Nat) :
    (pre ++ z :: fs₁.headD t :: post').take 2 = (pre ++ z :: (fs₁ ++ t :: post)).take 2 := by
  rcases pre with _ | ⟨a, _ | ⟨b, pre⟩⟩
  · cases fs₁ <;> rfl
  · rfl
  · rfl

/-- A block that is no guard stands between two taken blocks. -/
theorem Almost.split (h : Almost pf m r nodes t) (ht : t ∈ nodes) (hstart : t ≠ r.start)
    (hguard : t ≠ r.guard) :
    ∃ pre z fs₁ fs₂ y post, nodes = pre ++ z :: (fs₁ ++ t :: (fs₂ ++ y :: post)) ∧
      sIsBlockFree pf m z = false ∧ sIsBlockFree pf m y = false ∧
      (∀ f ∈ fs₁, sIsBlockFree pf m f = true) ∧ ∀ f ∈ fs₂, sIsBlockFree pf m f = true := by
  obtain ⟨before, behind, hnodes⟩ := List.append_of_mem ht
  have hfirst := h.first
  have hlast := h.last
  rw [hnodes] at hfirst hlast
  have hbefore : ∃ x ∈ before, sIsBlockFree pf m x = false := by
    cases before with
    | nil =>
      rw [List.nil_append, List.take_succ_cons, List.cons.injEq] at hfirst
      exact absurd hfirst.1 hstart
    | cons a as =>
      rw [List.cons_append, List.take_succ_cons, List.cons.injEq] at hfirst
      exact ⟨a, List.mem_cons_self, hfirst.1 ▸ h.first_taken⟩
  have hbehind : ∃ x ∈ behind, sIsBlockFree pf m x = false := by
    refine ⟨r.guard, ?_, h.last_taken⟩
    rw [List.getLast?_append_cons] at hlast
    exact (List.mem_cons.mp (List.mem_of_getLast? hlast)).resolve_left (Ne.symm hguard)
  obtain ⟨pre, z, fs₁, rfl, hz, hfs₁⟩ := exists_last_fail hbefore
  obtain ⟨fs₂, y, post, rfl, hy, hfs₂⟩ := exists_first_fail hbehind
  exact ⟨pre, z, fs₁, fs₂, y, post, by rw [hnodes]; simp, hz, hy, hfs₁, hfs₂⟩

/-- The joined block starts at the first of the free blocks, and the others are in it. -/
theorem joined_split (pre fs₁ fs₂ post : List Nat) (z t y : Nat) :
    pre ++ z :: (fs₁ ++ t :: (fs₂ ++ y :: post)) =
      (pre ++ [z]) ++ fs₁.headD t :: ((fs₁ ++ [t]).tail ++ fs₂) ++ y :: post := by
  cases fs₁ <;> simp

/-- Chains without `t` are chains of a tiled region, if the bits are as before. -/
theorem chain_without {l : List Nat}
    (h : l.IsChain fun x y => x < y ∧
      (sIsBlockFree pf m x = false ∨ sIsBlockFree pf m y = false ∨ x = t ∨ y = t))
    (hl : ∀ q ∈ l, q ≠ t ∧ sIsBlockFree pf m' q = sIsBlockFree pf m q) :
    l.IsChain fun x y => x < y ∧
      (sIsBlockFree pf m' x = false ∨ sIsBlockFree pf m' y = false) := by
  refine h.imp_of_mem_imp fun a b ha hb hab => ?_
  obtain ⟨hane, hafree⟩ := hl a ha
  obtain ⟨hbne, hbfree⟩ := hl b hb
  rw [hafree, hbfree]
  obtain ⟨hlt, hfree | hfree | heq | heq⟩ := hab
  · exact ⟨hlt, .inl hfree⟩
  · exact ⟨hlt, .inr hfree⟩
  · exact absurd heq hane
  · exact absurd heq hbne

section Join
variable {pre fs₁ fs₂ post : List Nat} {z y : Nat}

/-- The blocks that remain are blocks from before. -/
theorem joined_sublist : (pre ++ z :: fs₁.headD t :: y :: post).Sublist
    (pre ++ z :: (fs₁ ++ t :: (fs₂ ++ y :: post))) := by
  have hshape : pre ++ z :: fs₁.headD t :: y :: post =
      (pre ++ [z]) ++ fs₁.headD t :: y :: post := by simp
  rw [joined_split, hshape, List.append_assoc (pre ++ [z])]
  exact ((List.sublist_append_right _ _).cons_cons _).append_left _

/-- The blocks that remain are linked with one another, when the links
at the ends of the joined block are set and the others stay. -/
theorem joined_linked {nodes' : List Nat}
    (hasc : Ascending (pre ++ z :: (fs₁ ++ t :: (fs₂ ++ y :: post))))
    (h : Linked (sGetNextBlock pf m) (sGetPrevBlock pf m) NULL
      (pre ++ z :: (fs₁ ++ t :: (fs₂ ++ y :: post))) NULL)
    (hnodes' : nodes' = pre ++ z :: fs₁.headD t :: y :: post)
    (hnext : ∀ q, q % 8 = 0 →
      sGetNextBlock pf m' q = if q = fs₁.headD t then y else sGetNextBlock pf m q)
    (hprev : ∀ q, q % 8 = 0 →
      sGetPrevBlock pf m' q = if q = y then fs₁.headD t else sGetPrevBlock pf m q) :
    Linked (sGetNextBlock pf m') (sGetPrevBlock pf m') NULL nodes' NULL := by
  have hasc' : Ascending nodes' := hnodes' ▸ hasc.sublist joined_sublist
  have hshape : nodes' = (pre ++ [z]) ++ fs₁.headD t :: y :: post := by rw [hnodes']; simp
  rw [joined_split] at h
  rw [hshape] at hasc' ⊢
  have hnodup := hasc'.nodup
  simp only [List.nodup_append, List.nodup_cons, List.mem_append, List.mem_cons] at hnodup
  have haligned : ∀ q, q ∈ pre ++ [z] ∨ q = fs₁.headD t ∨ q = y ∨ q ∈ post → q % 8 = 0 := by
    intro q hq
    refine hasc'.aligned q ?_
    rcases hq with hq | rfl | rfl | hq
    · exact List.mem_append_left _ hq
    · simp
    · simp
    · simp [hq]
  refine h.remove ?_ ?_ ?_ ?_
  · rw [hnext _ (haligned _ (.inr (.inl rfl))), if_pos rfl]
  · rw [hprev _ (haligned _ (.inr (.inr (.inl rfl)))), if_pos rfl]
  · intro q hq
    rw [List.mem_append, List.mem_cons] at hq
    have hne : q ≠ fs₁.headD t := by
      rintro rfl
      grind
    rw [hnext q (haligned q (by grind)), if_neg hne]
  · intro q hq
    rw [List.mem_append, List.mem_cons] at hq
    have hne : q ≠ y := by
      rintro rfl
      grind
    rw [hprev q (haligned q (by grind)), if_neg hne]

/-- The blocks that remain are in order, and no two neighbours are
free. -/
theorem joined_chain (hasc : Ascending (pre ++ z :: (fs₁ ++ t :: (fs₂ ++ y :: post))))
    (h : (pre ++ z :: (fs₁ ++ t :: (fs₂ ++ y :: post))).IsChain fun x y => x < y ∧
      (sIsBlockFree pf m x = false ∨ sIsBlockFree pf m y = false ∨ x = t ∨ y = t))
    (hz : sIsBlockFree pf m z = false) (hy : sIsBlockFree pf m y = false)
    (hfree : ∀ q ∈ pre ++ z :: (fs₁ ++ t :: (fs₂ ++ y :: post)), q ≠ t →
      sIsBlockFree pf m' q = sIsBlockFree pf m q) :
    (pre ++ z :: fs₁.headD t :: y :: post).IsChain fun x y => x < y ∧
      (sIsBlockFree pf m' x = false ∨ sIsBlockFree pf m' y = false) := by
  have hnodup := hasc.nodup
  have hsorted := (hasc.sublist joined_sublist).sorted
  simp only [List.pairwise_append, List.pairwise_cons] at hsorted
  have hfront : ∀ q ∈ pre ++ [z], q ≠ t ∧ sIsBlockFree pf m' q = sIsBlockFree pf m q := by
    intro q hq
    have hne : q ≠ t := by
      rintro rfl
      simp only [List.nodup_append, List.nodup_cons, List.mem_append, List.mem_cons] at hq hnodup
      grind
    exact ⟨hne, hfree q (by simp at hq ⊢; grind) hne⟩
  have hback : ∀ q ∈ y :: post, q ≠ t ∧ sIsBlockFree pf m' q = sIsBlockFree pf m q := by
    intro q hq
    have hne : q ≠ t := by
      rintro rfl
      simp only [List.nodup_append, List.nodup_cons, List.mem_append, List.mem_cons] at hq hnodup
      grind
    exact ⟨hne, hfree q (by simp at hq ⊢; grind) hne⟩
  have hshape : pre ++ z :: (fs₁ ++ t :: (fs₂ ++ y :: post)) =
      (pre ++ [z]) ++ ((fs₁ ++ t :: fs₂) ++ y :: post) := by simp
  rw [hshape] at h
  rw [List.isChain_split, List.isChain_cons_cons, List.isChain_cons_cons]
  refine ⟨chain_without h.left_of_append hfront, ?_, ?_,
    chain_without h.right_of_append.right_of_append hback⟩
  · exact ⟨hsorted.2.1.1 _ (by simp), .inl ((hfront z (by simp)).2.trans hz)⟩
  · exact ⟨hsorted.2.1.2.1 y (by simp), .inr ((hback y (by simp)).2.trans hy)⟩

end Join

/-- Free the block `t`, and join it with its neighbours. -/
theorem compact_change (h : Almost pf m r nodes t) (ht : t ∈ nodes) (hstart : t ≠ r.start)
    (hguard : t ≠ r.guard) :
    ∃ m' nodes', sCompactFree pf m t = some m' ∧ Change pf m m' r nodes nodes' t := by
  have hasc := h.ascending
  obtain ⟨pre, z, fs₁, fs₂, y, post, rfl, hz, hy, hfs₁, hfs₂⟩ := h.split ht hstart hguard
  obtain ⟨m', hcompact, hheader, htouch⟩ := compact_spec hasc h.linked hz hy hfs₁ hfs₂
  have hsub : (pre ++ z :: fs₁.headD t :: y :: post).Sublist
      (pre ++ z :: (fs₁ ++ t :: (fs₂ ++ y :: post))) := joined_sublist
  have hwritten : ∀ q ∈ [t, fs₁.headD t, y],
      q ∈ pre ++ z :: (fs₁ ++ t :: (fs₂ ++ y :: post)) := by
    refine List.forall_mem_cons.mpr ⟨by simp, fun q hq => hsub.subset ?_⟩
    simp at hq ⊢
    grind
  -- the bits of the blocks other than `t` are as before
  have hfree : ∀ q ∈ pre ++ z :: (fs₁ ++ t :: (fs₂ ++ y :: post)), q ≠ t →
      sIsBlockFree pf m' q = sIsBlockFree pf m q := by
    intro q hq hne
    rw [(hheader q (hasc.aligned q hq)).2.2, if_neg hne]
  have htiled : Tiled pf m' r (pre ++ z :: fs₁.headD t :: y :: post) := by
    constructor
    · exact joined_linked hasc h.linked rfl (fun q hq => (hheader q hq).1)
        fun q hq => (hheader q hq).2.1
    · exact joined_chain hasc h.chain hz hy hfree
    · exact (hasc.sublist hsub).aligned
    · rw [take_two_join]
      exact h.first
    · have hlast := h.last
      rw [joined_split, List.getLast?_append_cons] at hlast
      rw [show pre ++ z :: fs₁.headD t :: y :: post = (pre ++ [z, fs₁.headD t]) ++ y :: post by
        simp, List.getLast?_append_cons]
      exact hlast
    · rw [hfree _ h.start_mem (Ne.symm hstart), h.first_taken]
    · rw [hfree _ h.guard_mem (Ne.symm hguard), h.last_taken]
  refine ⟨m', _, hcompact, htiled, fun q hq hne htaken => ?_, fun a ha =>
    h.outside_of_touches htouch hwritten ha⟩
  -- a taken block is none of the free ones
  have hfs : q ∉ fs₁ ∧ q ∉ fs₂ := by
    constructor
    · intro hmem
      rw [hfs₁ q hmem] at htaken
      cases htaken
    · intro hmem
      rw [hfs₂ q hmem] at htaken
      cases htaken
  have hhead : q ≠ fs₁.headD t := by
    cases fs₁ with
    | nil => exact hne
    | cons f fs => exact fun heq => hfs.1 (heq ▸ List.mem_cons_self)
  constructor
  · simp at hq ⊢
    grind
  · rw [hfree q hq hne, htaken]
  · rw [(hheader q (hasc.aligned q hq)).1, if_neg hhead]
  · exact fun a hlo hhi => h.payload_of_touches htouch hwritten hq hlo hhi

/-! ### Cutting a block in two -/

/-- A taken block that ends after `size` bytes, with the bytes up to there. -/
structure Cut (pf : Platform) (m m' : Mem) (nodes' : List Nat) (x size : Nat) : Prop where
  mem : x ∈ nodes'
  taken : sIsBlockFree pf m' x = false
  next : sGetNextBlock pf m' x = x + size
  payload : ∀ a, x + DYN_HEADER_SIZE ≤ a → a < x + size → m' a = m a

/-- The new block is linked between the block and the next one. Its bit is what happens to be
in the memory. -/
structure Inserted (pf : Platform) (m m' : Mem) (x t y : Nat) : Prop where
  next : ∀ q, q % 8 = 0 → sGetNextBlock pf m' q =
    if q = x then t else if q = t then y else sGetNextBlock pf m q
  prev : ∀ q, q % 8 = 0 → sGetPrevBlock pf m' q =
    if q = y then t else if q = t then x else sGetPrevBlock pf m q
  free : ∀ q, q % 8 = 0 → sIsBlockFree pf m' q = sIsBlockFree pf m q
  touches : Touches [x, t, y] m m'

theorem inserted (pf : Platform) (m : Mem) {x t y : Nat} (hx : Fits x) (ht : Fits t) (hy : Fits y) :
    Inserted pf m (sSetNextBlock pf (sSetPrevBlock pf (sSetNextBlock pf
      (sSetPrevBlock pf m t x) t y) y t) x t) x t y where
  next q hq := by
    rw [next_setNext hx.1 hq ht, next_setPrev hy.1 hq, next_setNext ht.1 hq hy,
      next_setPrev ht.1 hq]
  prev q hq := by
    rw [prev_setNext hx.1 hq, prev_setPrev hy.1 hq ht, prev_setNext ht.1 hq,
      prev_setPrev ht.1 hq hx]
  free q hq := by
    rw [free_setNext hx.1 hq ht, free_setPrev hy.1 hq, free_setNext ht.1 hq hy,
      free_setPrev ht.1 hq]
  touches :=
    (touches_second.trans (touches_first.trans (touches_second.trans touches_first))).mono
      (by simp)

section Insert
variable {pre post : List Nat} {y : Nat}

/-- The blocks with a new one, between a block and the next one. -/
theorem Inserted.almost (hins : Inserted pf m m' x t y)
    (h : Almost pf m r (pre ++ x :: y :: post) t) (hx : x ≠ r.start) (hlo : x < t) (hhi : t < y)
    (ht : t % 8 = 0) : Almost pf m' r (pre ++ x :: t :: y :: post) t := by
  have haligned := h.aligned
  have hnodup := h.ascending.nodup
  have hchain := h.chain
  have hsorted := h.sorted
  have hnot : t ∉ pre ++ x :: y :: post := by
    intro hmem
    have hnext := h.linked.next_eq
    rcases h.apart (x := x) (by simp) hmem with hle | hle
    · omega
    · rw [hnext, List.headD_cons] at hle
      omega
  have haligned' : ∀ q ∈ pre ++ x :: t :: y :: post, q % 8 = 0 := by
    intro q hq
    by_cases heq : q = t
    · rw [heq, ht]
    · exact haligned q (by simp at hq ⊢; grind)
  simp only [List.nodup_append, List.nodup_cons, List.mem_append, List.mem_cons] at hnodup hnot
  constructor
  · -- the links
    refine h.linked.insert ?_ ?_ ?_ ?_ (fun q hq => ?_) fun q hq => ?_
    · rw [hins.next x (haligned x (by simp)), if_pos rfl]
    · rw [hins.next t ht, if_neg (by omega), if_pos rfl]
    · rw [hins.prev t ht, if_neg (by omega), if_pos rfl]
    · rw [hins.prev y (haligned y (by simp)), if_pos rfl]
    · rw [List.mem_append, List.mem_cons] at hq
      rw [hins.next q (haligned q (by simp; grind)), if_neg (by rintro rfl; grind),
        if_neg (by rintro rfl; grind)]
    · rw [List.mem_append, List.mem_cons] at hq
      rw [hins.prev q (haligned q (by simp; grind)), if_neg (by rintro rfl; grind),
        if_neg (by rintro rfl; grind)]
  · -- the order, and the bits
    have hbits : ∀ q ∈ pre ++ x :: y :: post,
        sIsBlockFree pf m' q = sIsBlockFree pf m q := fun q hq => hins.free q (haligned q hq)
    have hchain' : (pre ++ x :: y :: post).IsChain fun a b => a < b ∧
        (sIsBlockFree pf m' a = false ∨ sIsBlockFree pf m' b = false ∨ a = t ∨ b = t) := by
      refine hchain.imp_of_mem_imp fun a b ha hb hab => ?_
      rwa [hbits a ha, hbits b hb]
    rw [List.isChain_split, List.isChain_cons_cons] at hchain'
    rw [List.isChain_split, List.isChain_cons_cons, List.isChain_cons_cons]
    exact ⟨hchain'.1, ⟨hlo, .inr (.inr (.inr rfl))⟩, ⟨hhi, .inr (.inr (.inl rfl))⟩, hchain'.2.2⟩
  · exact haligned'
  · -- the block is not the first guard
    have hfirst := h.first
    rcases pre with _ | ⟨a, _ | ⟨b, pre⟩⟩
    · rw [List.nil_append, List.take_succ_cons, List.cons.injEq] at hfirst
      exact absurd hfirst.1 hx
    · exact hfirst
    · exact hfirst
  · have hlast := h.last
    rw [List.getLast?_append_cons, List.getLast?_cons_cons] at hlast ⊢
    rw [List.getLast?_cons_cons]
    exact hlast
  · rw [hins.free _ (haligned _ h.start_mem), h.first_taken]
  · rw [hins.free _ (haligned _ h.guard_mem), h.last_taken]

end Insert

/-- Cut off what is behind the first `size` bytes of a block, and free it. -/
theorem split_change {size : Nat} (h : Tiled pf m r nodes) (hx : x ∈ nodes) (hstart : x ≠ r.start)
    (hguard : x < r.guard) (htaken : sIsBlockFree pf m x = false) (hmod : size % 8 = 0)
    (hsize : 0 < size) (hroom : x + size < sGetNextBlock pf m x) :
    ∃ m' nodes', splitBlock pf m x size = some m' ∧ Change pf m m' r nodes nodes' x ∧
      Cut pf m m' nodes' x size := by
  have halmost := tiled_almost h (x + size)
  have hasc := halmost.ascending
  obtain ⟨hmem, hlt⟩ := halmost.next_mem hx hguard
  obtain ⟨pre, post, rfl⟩ := List.append_of_mem hx
  have hnext := halmost.linked.next_eq
  cases post with
  | nil =>
    rw [hnext, List.headD_nil, NULL] at hlt
    exact absurd hlt (Nat.not_lt_zero x)
  | cons y post =>
  rw [List.headD_cons] at hnext
  rw [hnext] at hroom
  have hxfits := hasc.fits hx
  have hyfits : Fits y := hasc.fits (by simp)
  have htfits : Fits (x + size) := ⟨by have := hxfits.1; omega, by have := hyfits.2; omega⟩
  have hins := inserted pf m hxfits htfits hyfits
  obtain ⟨m₁, hm₁⟩ : ∃ m₁, m₁ = sSetNextBlock pf (sSetPrevBlock pf (sSetNextBlock pf
    (sSetPrevBlock pf m (x + size) x) (x + size) y) y (x + size)) x (x + size) := ⟨_, rfl⟩
  rw [← hm₁] at hins
  have halmost₁ := hins.almost halmost hstart (by omega) hroom htfits.1
  have hybetween := halmost.between (x := y) (by simp)
  have hxbetween := halmost.between hx
  obtain ⟨m', nodes', hcompact, hchange⟩ := compact_change halmost₁ (by simp)
    (by omega) (by omega)
  have hsplit : splitBlock pf m x size = some m' := by
    rw [splitBlock, show u32 (x + size) = x + size from Nat.mod_eq_of_lt htfits.2, hnext]
    simp only [← hm₁]
    exact hcompact
  -- in terms of the new blocks, only headers were written so far
  have hwritten : ∀ q ∈ [x, x + size, y], q ∈ pre ++ x :: (x + size) :: y :: post := by simp
  have htouch := hins.touches.symm
  have hkept₁ : ∀ q ∈ pre ++ x :: y :: post, q ≠ x → sIsBlockFree pf m q = false →
      q ≠ x + size ∧ Kept pf m m₁ (pre ++ x :: (x + size) :: y :: post) q := by
    intro q hq hne hfree
    have hqaligned := hasc.aligned q hq
    have hne' : q ≠ x + size := by
      rintro rfl
      rcases halmost.apart hx hq with hle | hle
      · omega
      · rw [hnext] at hle
        omega
    have hqnext : sGetNextBlock pf m₁ q = sGetNextBlock pf m q := by
      rw [hins.next q hqaligned, if_neg hne, if_neg hne']
    have hqmem : q ∈ pre ++ x :: (x + size) :: y :: post := by
      simp at hq ⊢
      grind
    refine ⟨hne', hqmem, by rw [hins.free q hqaligned, hfree], hqnext, fun a hlo hhi => ?_⟩
    exact (halmost₁.payload_of_touches htouch hwritten hqmem hlo (hqnext.symm ▸ hhi)).symm
  have hxnext : sGetNextBlock pf m₁ x = x + size := by rw [hins.next x hxfits.1, if_pos rfl]
  have hxkept := hchange.kept x (by simp) (by omega) (by rw [hins.free x hxfits.1, htaken])
  refine ⟨m', nodes', hsplit, ⟨hchange.tiled, fun q hq hne hfree => ?_, fun a ha => ?_⟩,
    ⟨hxkept.mem, hxkept.taken, hxkept.next.trans hxnext, fun a hlo hhi => ?_⟩⟩
  · obtain ⟨hne', hkept⟩ := hkept₁ q hq hne hfree
    exact hkept.trans (hchange.kept q hkept.mem hne' hkept.taken)
  · rw [hchange.outside a ha, halmost₁.outside_of_touches htouch hwritten ha]
  · rw [hxkept.payload a hlo (hxnext.symm ▸ hhi)]
    exact (halmost₁.payload_of_touches htouch hwritten (by simp) hlo (hxnext.symm ▸ hhi)).symm

end Changes

end Alcor.Proofs.Salloc
