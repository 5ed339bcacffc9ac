import Mathlib.Data.List.Pairwise
import Mathlib.Logic.Function.Basic
import Alcor.Proofs.Salloc.Calls

/-!
# `Alcor.Proofs.Salloc.Lives`: the pointers of a program

`Lives` is what holds between two steps of a program: all regions are
tiled, and every pointer has a taken block of its own, with what the
program expects in it.

* `Lives.change`: a change of a region keeps this for the pointers that
  the change is not about.
* `Lives.snoc`, `Lives.replace`: one more pointer, and one for another.
-/

set_option autoImplicit false

namespace Alcor.Proofs.Salloc

open Lib
open Alcor.Salloc

variable {pf : Platform}

/-- The regions with their blocks, and the pointers of a program. -/
structure Lives (pf : Platform) (m : Mem) (blocks : Region → List Nat) (live : List Live) :
    Prop where
  tiled : ∀ r ∈ pf.regions, Tiled pf m r (blocks r)
  placed : ∀ l ∈ live, ∃ r ∈ pf.regions, Placed pf m r (blocks r) l
  content : ∀ l ∈ live, m.read l.ptr l.content.length = l.content
  nodup : (live.map (·.ptr)).Nodup

section Rules
variable {m m' : Mem} {r r₀ : Region} {nodes nodes' : List Nat} {l : Live} {w : Nat}
variable {blocks : Region → List Nat} {live : List Live}

/-- Different regions do not overlap. -/
theorem regions_apart (hr : r ∈ pf.regions) (hr₀ : r₀ ∈ pf.regions) (hne : r ≠ r₀) {a : Nat}
    (hlo : r.start ≤ a) (hhi : a < r.start + r.size) :
    a < r₀.start ∨ r₀.start + r₀.size ≤ a := by
  have hsymm : Std.Symm fun r r' : Region =>
      r.start + r.size ≤ r'.start ∨ r'.start + r'.size ≤ r.start := ⟨fun _ _ h => h.symm⟩
  have hdisjoint := pf.disjoint.forall hr hr₀ hne
  omega

/-- The header of a pointer. -/
theorem placed_header (h : Placed pf m r nodes l) :
    l.ptr - DYN_HEADER_SIZE + DYN_HEADER_SIZE = l.ptr ∧
      l.ptr - DYN_HEADER_SIZE ≠ r.start ∧ l.ptr - DYN_HEADER_SIZE < r.guard := by
  have hlo := h.ptr_lt
  have hhi := h.lt_guard
  simp only [DYN_SIZE_MULT, DYN_HEADER_SIZE] at hlo ⊢
  omega

/-- A pointer is behind the header of a block with room for its contents. -/
theorem placed_room (h : Placed pf m r nodes l) :
    Room pf m r nodes (l.ptr - DYN_HEADER_SIZE) l.content.length := by
  obtain ⟨hptr, hstart, hguard⟩ := placed_header h
  refine ⟨h.mem, hstart, hguard, h.taken, ?_⟩
  rw [hptr]
  exact h.fits

/-- A block with room is a place for a pointer. -/
theorem Room.placed {x size : Nat} (htiled : Tiled pf m r nodes) (h : Room pf m r nodes x size)
    (hsize : 0 < size) {content : List UInt8} (hlen : content.length = size) :
    Placed pf m r nodes ⟨x + DYN_HEADER_SIZE, content⟩ := by
  have halmost := tiled_almost htiled x
  have hxmod := htiled.aligned x h.mem
  have hstart := (halmost.between h.mem).1
  have hmod := r.start_aligned
  have hne := h.start_ne
  have hfits := h.fits
  obtain ⟨hmem, -⟩ := halmost.next_mem h.mem h.lt_guard
  have hnext := (halmost.between hmem).2
  constructor
  · exact h.mem
  · -- the block is behind the first guard
    rw [DYN_SIZE_MULT] at hxmod hmod ⊢
    exact Nat.add_le_add_right (by omega) _
  · -- what is behind the header is before the last guard
    exact Nat.lt_of_lt_of_le (Nat.lt_add_of_pos_right hsize) (hfits.trans hnext)
  · exact h.taken
  · rw [hlen]
    exact hfits

/-- The bytes behind a pointer are those of the payload. -/
theorem placed_read (h : Placed pf m r nodes l)
    (hsame : ∀ a, l.ptr ≤ a → a < sGetNextBlock pf m (l.ptr - DYN_HEADER_SIZE) → m' a = m a)
    {size : Nat} (hsize : size ≤ l.content.length) :
    m'.read l.ptr size = m.read l.ptr size := by
  have hfits := h.fits
  have hagree : Mem.Agree m m' l.ptr (l.ptr + size) :=
    fun a hlo hhi => (hsame a hlo (by omega)).symm
  exact (hagree.read_eq l.ptr size (Nat.le_refl _) (Nat.le_refl _)).symm

/-- A block that is kept is kept for the pointer. -/
theorem placed_kept (h : Placed pf m r nodes l)
    (hkept : Kept pf m m' nodes' (l.ptr - DYN_HEADER_SIZE)) :
    Placed pf m' r nodes' l ∧ m'.read l.ptr l.content.length = m.read l.ptr l.content.length := by
  have hptr := (placed_header h).1
  refine ⟨⟨hkept.mem, h.ptr_lt, h.lt_guard, hkept.taken, ?_⟩, ?_⟩
  · rw [hkept.next]
    exact h.fits
  · exact placed_read h (fun a hlo hhi => hkept.payload a (hptr.symm ▸ hlo) hhi) (Nat.le_refl _)

/-- A region where nothing is changed. -/
theorem tiled_same (h : Tiled pf m r nodes)
    (hsame : ∀ a, r.start ≤ a → a < r.start + r.size → m' a = m a) :
    Tiled pf m' r nodes ∧
      ∀ x ∈ nodes, x < r.guard → sIsBlockFree pf m x = false → Kept pf m m' nodes x := by
  have halmost := tiled_almost h NULL
  have hguard := guard_add r
  have hheaders : ∀ q ∈ nodes, ∀ a, q ≤ a → a < q + 8 → m' a = m a := by
    intro q hq a hlo hhi
    have hbetween := halmost.between hq
    exact hsame a (by omega) (by omega)
  refine ⟨tiled_congr h hheaders, fun x hx hlt htaken => ?_⟩
  obtain ⟨hnext, -, hfree⟩ := header_congr pf (hheaders x hx)
  have hbetween := halmost.between hx
  have hbehind := (halmost.between (halmost.next_mem hx hlt).1).2
  rw [← hfree] at htaken
  exact ⟨hx, htaken, hnext, fun a hlo hhi => hsame a (by omega) (by omega)⟩

/-- A change of a region keeps the blocks of the pointers that it is not about. -/
theorem Lives.kept (h : Lives pf m blocks live) (hr : r ∈ pf.regions)
    (hchange : Change pf m m' r (blocks r) nodes' w)
    (hne : ∀ l ∈ live, l.ptr - DYN_HEADER_SIZE ≠ w) (hl : l ∈ live) :
    ∃ r' ∈ pf.regions, Placed pf m r' (blocks r') l ∧
      Kept pf m m' (Function.update blocks r nodes' r') (l.ptr - DYN_HEADER_SIZE) := by
  obtain ⟨r', hr', hplaced⟩ := h.placed l hl
  refine ⟨r', hr', hplaced, ?_⟩
  by_cases heq : r' = r
  · subst heq
    rw [Function.update_self]
    exact hchange.kept _ hplaced.mem (hne l hl) hplaced.taken
  · rw [Function.update_of_ne heq]
    exact (tiled_same (h.tiled r' hr') fun a hlo hhi =>
      hchange.outside a (regions_apart hr' hr heq hlo hhi)).2 _ hplaced.mem
        (placed_header hplaced).2.2 hplaced.taken

/-- **The rule of a change**: when one region changes about a block
that no pointer has, every pointer keeps its block and what it holds. -/
theorem Lives.change (h : Lives pf m blocks live) (hr : r ∈ pf.regions)
    (hchange : Change pf m m' r (blocks r) nodes' w)
    (hne : ∀ l ∈ live, l.ptr - DYN_HEADER_SIZE ≠ w) :
    Lives pf m' (Function.update blocks r nodes') live := by
  constructor
  · intro r' hr'
    by_cases heq : r' = r
    · subst heq
      rw [Function.update_self]
      exact hchange.tiled
    · rw [Function.update_of_ne heq]
      exact (tiled_same (h.tiled r' hr') fun a hlo hhi =>
        hchange.outside a (regions_apart hr' hr heq hlo hhi)).1
  · intro l hl
    obtain ⟨r', hr', hplaced, hkept⟩ := h.kept hr hchange hne hl
    exact ⟨r', hr', (placed_kept hplaced hkept).1⟩
  · intro l hl
    obtain ⟨r', hr', hplaced, hkept⟩ := h.kept hr hchange hne hl
    rw [(placed_kept hplaced hkept).2, h.content l hl]
  · exact h.nodup

/-- Fewer pointers. -/
theorem Lives.sublist (h : Lives pf m blocks live) {live' : List Live} (hsub : live'.Sublist live) :
    Lives pf m blocks live' where
  tiled := h.tiled
  placed l hl := h.placed l (hsub.subset hl)
  content l hl := h.content l (hsub.subset hl)
  nodup := h.nodup.sublist (hsub.map _)

/-- The other pointers have other headers. -/
theorem Lives.header_ne (h : Lives pf m blocks live) {l' : Live} (hl : l ∈ live) (hl' : l' ∈ live)
    (hne : l'.ptr ≠ l.ptr) : l'.ptr - DYN_HEADER_SIZE ≠ l.ptr - DYN_HEADER_SIZE := by
  obtain ⟨r, -, hplaced⟩ := h.placed l hl
  obtain ⟨r', -, hplaced'⟩ := h.placed l' hl'
  have hptr := (placed_header hplaced).1
  have hptr' := (placed_header hplaced').1
  omega

/-- A change about the block of a pointer keeps the other pointers. -/
theorem Lives.change_others (h : Lives pf m blocks live) (hl : l ∈ live) (hr : r ∈ pf.regions)
    (hchange : Change pf m m' r (blocks r) nodes' (l.ptr - DYN_HEADER_SIZE)) :
    Lives pf m' (Function.update blocks r nodes') (live.filter (·.ptr ≠ l.ptr)) := by
  refine (h.sublist List.filter_sublist).change hr hchange fun l' hl' => ?_
  obtain ⟨hmem, hne⟩ := List.mem_filter.mp hl'
  exact h.header_ne hl hmem (by simpa using hne)

/-- One more pointer. -/
theorem Lives.snoc (h : Lives pf m blocks live) (hr : r ∈ pf.regions)
    (hplaced : Placed pf m r (blocks r) l) (hcontent : m.read l.ptr l.content.length = l.content)
    (hnew : ∀ l' ∈ live, l'.ptr ≠ l.ptr) : Lives pf m blocks (live ++ [l]) := by
  constructor
  · exact h.tiled
  · intro l' hl'
    rcases List.mem_append.mp hl' with hl' | hl'
    · exact h.placed l' hl'
    · exact ⟨r, hr, List.mem_singleton.mp hl' ▸ hplaced⟩
  · intro l' hl'
    rcases List.mem_append.mp hl' with hl' | hl'
    · exact h.content l' hl'
    · exact List.mem_singleton.mp hl' ▸ hcontent
  · rw [List.map_append, List.map_singleton, List.nodup_append]
    refine ⟨h.nodup, List.nodup_singleton _, fun q hq q' hq' => ?_⟩
    obtain ⟨l', hl', rfl⟩ := List.mem_map.mp hq
    rw [List.mem_singleton.mp hq']
    exact hnew l' hl'

/-- One pointer for another. -/
theorem Lives.replace {ptr new : Nat} {f : Live → Live}
    (h : Lives pf m blocks (live.filter (·.ptr ≠ ptr))) (hnodup : (live.map (·.ptr)).Nodup)
    (hr : r ∈ pf.regions)
    (hf : ∀ l ∈ live, l.ptr = ptr → (f l).ptr = new ∧ Placed pf m r (blocks r) (f l) ∧
      m.read new (f l).content.length = (f l).content)
    (hnew : ∀ l ∈ live, l.ptr ≠ ptr → l.ptr ≠ new) :
    Lives pf m blocks (live.map fun l => if l.ptr = ptr then f l else l) := by
  have hmem : ∀ l ∈ live, l.ptr ≠ ptr → l ∈ live.filter (·.ptr ≠ ptr) := by
    intro l hl hne
    exact List.mem_filter.mpr ⟨hl, by simpa using hne⟩
  constructor
  · exact h.tiled
  · intro l' hl'
    obtain ⟨l, hl, rfl⟩ := List.mem_map.mp hl'
    split
    · next heq => exact ⟨r, hr, (hf l hl heq).2.1⟩
    · next hne => exact h.placed l (hmem l hl hne)
  · intro l' hl'
    obtain ⟨l, hl, rfl⟩ := List.mem_map.mp hl'
    split
    · next heq =>
        obtain ⟨hptr, -, hread⟩ := hf l hl heq
        rw [hptr, hread]
    · next hne => exact h.content l (hmem l hl hne)
  · -- the new pointer is none of the others
    rw [List.map_map]
    have hlive : live.Nodup := hnodup.of_map
    refine hlive.map_on fun a ha b hb hab => ?_
    have hinj : a.ptr = b.ptr → a = b := List.inj_on_of_nodup_map hnodup ha hb
    simp only [Function.comp_apply] at hab
    split at hab
    · next haptr =>
        split at hab
        · next hbptr => exact hinj (haptr.trans hbptr.symm)
        · next hbptr =>
            rw [(hf a ha haptr).1] at hab
            exact absurd hab.symm (hnew b hb hbptr)
    · next haptr =>
        split at hab
        · next hbptr =>
            rw [(hf b hb hbptr).1] at hab
            exact absurd hab (hnew a ha haptr)
        · exact hinj hab

end Rules

end Alcor.Proofs.Salloc
