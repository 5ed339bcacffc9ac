import Alcor.Proofs.Salloc.Lives

/-!
# `Alcor.Proofs.Salloc.Programs`: runs of a program

Every call keeps `Lives`, first as a call on memory and then as a step
of a program (`Keeps`). A program may only free, resize and write what
it holds, and asks for sizes that fit with their header.

* `smallocFrom_spec`, `free_live`, `shrink_live`: the calls on memory.
* `keeps_step`: every step that is allowed has an outcome and keeps the
  invariant.
* `run_sound`: in every state of every run the heap is `Sound`. Blocks
  of different pointers do not overlap and hold what was written.
-/

set_option autoImplicit false

namespace Alcor.Proofs.Salloc

open Lib
open Alcor.Salloc

variable {pf : Platform}

/-! ### The first call -/

/-- The blocks of a region behind `s_init`. -/
def firstBlocks (r : Region) : List Nat := [r.start, r.start + DYN_SIZE_MULT, r.guard]

/-- `s_init` tiles its regions, and changes nothing outside them. -/
theorem init_spec (rs : List Region)
    (hdisjoint : rs.Pairwise fun r r' =>
      r.start + r.size ≤ r'.start ∨ r'.start + r'.size ≤ r.start) (m : Mem) :
    (∀ r ∈ rs, Tiled pf (rs.foldl (initRegion pf) m) r (firstBlocks r)) ∧
      ∀ a, (∀ r ∈ rs, a < r.start ∨ r.start + r.size ≤ a) →
        rs.foldl (initRegion pf) m a = m a := by
  induction rs generalizing m with
  | nil => exact ⟨fun r hr => absurd hr List.not_mem_nil, fun _ _ => rfl⟩
  | cons r rs ih =>
    obtain ⟨hapart, hrest⟩ := List.pairwise_cons.mp hdisjoint
    obtain ⟨hfirst, houtside⟩ := initRegion_spec pf m r
    obtain ⟨htiled, hkept⟩ := ih hrest (initRegion pf m r)
    constructor
    · intro r' hr'
      rcases List.mem_cons.mp hr' with rfl | hr'
      · -- the later rounds are outside this region
        refine (tiled_same hfirst fun a hlo hhi => hkept a fun s hs => ?_).1
        have hs' := hapart s hs
        omega
      · exact htiled r' hr'
    · intro a ha
      obtain ⟨har, hars⟩ := List.forall_mem_cons.mp ha
      rw [List.foldl_cons, hkept a hars, houtside a har]

theorem init_lives (pf : Platform) (m : Mem) : Lives pf (sInit pf m) firstBlocks [] where
  tiled := (init_spec pf.regions pf.disjoint m).1
  placed _ hl := absurd hl List.not_mem_nil
  content _ hl := absurd hl List.not_mem_nil
  nodup := List.nodup_nil

section Calls
variable {m m' : Mem} {r : Region} {l : Live} {blocks : Region → List Nat} {live : List Live}
variable {ptr size : Nat}

/-! ### A new block -/

/-- A block behind a new pointer, and nothing lost. -/
structure Got (pf : Platform) (m : Mem) (live : List Live) (m' : Mem)
    (blocks' : Region → List Nat) (ptr size : Nat) : Prop where
  lives : Lives pf m' blocks' live
  size_pos : 0 < size
  room : ∃ r ∈ pf.regions, ∃ x, ptr = x + DYN_HEADER_SIZE ∧ Room pf m' r (blocks' r) x size
  new : ∀ l ∈ live, l.ptr ≠ ptr
  next : ∀ l ∈ live, sGetNextBlock pf m' (l.ptr - DYN_HEADER_SIZE) =
    sGetNextBlock pf m (l.ptr - DYN_HEADER_SIZE)

theorem Got.ne_null (h : Got pf m live m' blocks ptr size) : ptr ≠ NULL := by
  obtain ⟨r, -, x, rfl, -⟩ := h.room
  exact Nat.succ_ne_zero _

/-- A region gives a block, or nothing is changed. -/
theorem getFreeBlock_live (h : Lives pf m blocks live) (hr : r ∈ pf.regions)
    (hsize : SizeFits size) :
    sGetFreeBlock pf m size r.start = some (NULL, m) ∨
      ∃ ptr m' blocks', sGetFreeBlock pf m size r.start = some (ptr, m') ∧
        Got pf m live m' blocks' ptr size := by
  rcases getFreeBlock_spec (h.tiled r hr) hsize with hnull |
    ⟨x, m', nodes', hget, hpos, hmem, hfree, hchange, hroom⟩
  · exact .inl hnull
  · right
    -- the block was free, the others were not
    have hne : ∀ l ∈ live, l.ptr - DYN_HEADER_SIZE ≠ x := by
      rintro l hl rfl
      obtain ⟨r', -, hplaced⟩ := h.placed l hl
      rw [hplaced.taken] at hfree
      cases hfree
    refine ⟨x + DYN_HEADER_SIZE, m', Function.update blocks r nodes', hget,
      h.change hr hchange hne, hpos, ⟨r, hr, x, rfl, ?_⟩, fun l hl heq => ?_, fun l hl => ?_⟩
    · rw [Function.update_self]
      exact hroom
    · refine hne l hl ?_
      rw [heq, Nat.add_sub_cancel]
    · obtain ⟨r', -, -, hkept⟩ := h.kept hr hchange hne hl
      exact hkept.next

/-- `smalloc` tries the regions one by one. -/
theorem smallocFrom_spec (h : Lives pf m blocks live) (hsize : SizeFits size) :
    ∀ rs : List Region, (∀ r ∈ rs, r ∈ pf.regions) →
      smallocFrom pf size rs m = some (NULL, m) ∨
        ∃ ptr m' blocks', smallocFrom pf size rs m = some (ptr, m') ∧
          Got pf m live m' blocks' ptr size := by
  intro rs
  induction rs with
  | nil => exact fun _ => .inl rfl
  | cons r rs ih =>
    intro hrs
    obtain ⟨hr, hrest⟩ := List.forall_mem_cons.mp hrs
    rcases getFreeBlock_live h hr hsize with hnull | ⟨ptr, m', blocks', hget, hgot⟩
    · have hnext : smallocFrom pf size (r :: rs) m = smallocFrom pf size rs m := by
        rw [smallocFrom, hnull]
        rfl
      rw [hnext]
      exact ih hrest
    · refine .inr ⟨ptr, m', blocks', ?_, hgot⟩
      rw [smallocFrom, hget]
      exact if_pos hgot.ne_null

/-! ### The blocks of the program -/

/-- A pointer is given back. -/
theorem free_live (h : Lives pf m blocks live) (hl : l ∈ live) :
    ∃ m' blocks', sFreeBlock pf m l.ptr = some m' ∧
      Lives pf m' blocks' (live.filter (·.ptr ≠ l.ptr)) := by
  obtain ⟨r, hr, hplaced⟩ := h.placed l hl
  obtain ⟨hptr, hstart, hguard⟩ := placed_header hplaced
  obtain ⟨m', nodes', hfree, hchange⟩ :=
    freeBlock_spec (h.tiled r hr) hplaced.mem hstart hguard
  rw [hptr] at hfree
  exact ⟨m', _, hfree, h.change_others hl hr hchange⟩

/-- What the program expects of a pointer that is moved is there, if the first bytes are. -/
theorem moved_holds {c : List UInt8} (hfront : m.Holds ptr (c.take size)) :
    (c.take size ++ m.read (ptr + (c.take size).length) (size - c.length)).length = size ∧
      m.Holds ptr (c.take size ++ m.read (ptr + (c.take size).length) (size - c.length)) := by
  constructor
  · rw [List.length_append, List.length_take, Mem.length_read]
    omega
  · rw [Mem.holds_append]
    exact ⟨hfront, by rw [Mem.Holds, Mem.length_read]⟩

/-- A pointer is replaced by one with a block for the new size, and the first bytes. -/
theorem moved_live {p : Program} (h' : Heap) {new x : Nat}
    (h : Lives pf h'.mem blocks (p.live.filter (·.ptr ≠ ptr))) (hnodup : (p.live.map (·.ptr)).Nodup)
    (hr : r ∈ pf.regions) (hx : new = x + DYN_HEADER_SIZE)
    (hroom : Room pf h'.mem r (blocks r) x size) (hsize : 0 < size)
    (hfront : ∀ l ∈ p.live, l.ptr = ptr → h'.mem.Holds new (l.content.take size))
    (hnew : ∀ l ∈ p.live, l.ptr ≠ ptr → l.ptr ≠ new) :
    Lives pf h'.mem blocks (p.moved ptr new size h').live := by
  refine Lives.replace h hnodup hr (fun l hl heq => ?_) hnew
  obtain ⟨hlen, hholds⟩ := moved_holds (hfront l hl heq)
  refine ⟨rfl, ?_, hholds⟩
  rw [hx] at hlen ⊢
  exact hroom.placed (h.tiled r hr) hsize hlen

/-- The bytes of a payload. -/
theorem actual_of_placed (h : Lives pf m blocks live) (hr : r ∈ pf.regions)
    (hplaced : Placed pf m r (blocks r) l) :
    sGetActualBlockSize pf m l.ptr = sGetNextBlock pf m (l.ptr - DYN_HEADER_SIZE) - l.ptr ∧
      l.ptr + sGetActualBlockSize pf m l.ptr = sGetNextBlock pf m (l.ptr - DYN_HEADER_SIZE) ∧
      l.content.length ≤ sGetActualBlockSize pf m l.ptr := by
  obtain ⟨hptr, -, hguard⟩ := placed_header hplaced
  obtain ⟨hactual, hle⟩ := actualBlockSize_eq (h.tiled r hr) hplaced.mem hguard
  rw [hptr] at hactual hle
  have hfits := hplaced.fits
  omega

/-- A block is cut, or left as it is. -/
theorem shrink_live {p : Program} {h : Heap} (hlives : Lives pf h.mem blocks p.live)
    (hl : l ∈ p.live) (hsize : SizeFits size) (hpos : 0 < size)
    (hlt : size < sGetActualBlockSize pf h.mem l.ptr) :
    ∃ m' blocks', sShrinkBlock pf h.mem l.ptr size = some m' ∧
      Lives pf m' blocks' (p.moved l.ptr l.ptr size { h with mem := m' }).live := by
  obtain ⟨r, hr, hplaced⟩ := hlives.placed l hl
  obtain ⟨hptr, hstart, hguard⟩ := placed_header hplaced
  obtain ⟨m', nodes', hshrink, hchange, hroom, hbytes⟩ := shrinkBlock_spec (hlives.tiled r hr)
    hplaced.mem hstart hguard hplaced.taken hsize (by rwa [hptr])
  rw [hptr] at hshrink hbytes
  have hothers := hlives.change_others hl hr hchange
  refine ⟨m', _, hshrink, moved_live { h with mem := m' } hothers hlives.nodup hr
    hptr.symm ?_ hpos (fun l' hl' heq => ?_) fun l' _ hne => hne⟩
  · rw [Function.update_self]
    exact hroom
  · -- the first bytes are below the cut
    have hholds : h.mem.Holds l.ptr l'.content := heq ▸ hlives.content l' hl'
    have hle : (l'.content.take size).length ≤ size := List.length_take_le _ _
    have hagree : Mem.Agree h.mem m' l.ptr (l.ptr + size) :=
      fun a hlo hhi => (hbytes a hlo hhi).symm
    exact hagree.holds (Nat.le_refl _) (Nat.add_le_add_left hle _) (hholds.take size)

/-- A new block keeps what is written into it. -/
theorem Got.store (h : Got pf m live m' blocks ptr size) (bs : List UInt8) (hbs : bs.length ≤ size) :
    Got pf m live (m'.store ptr bs) blocks ptr size := by
  obtain ⟨r, hr, x, hptr, hroom⟩ := h.room
  have hfits := hroom.fits
  obtain ⟨hchange, hroom'⟩ := write_change (h.lives.tiled r hr) hroom ptr bs
    (Nat.le_of_eq hptr.symm) (by rw [hptr]; omega)
  have hne : ∀ l ∈ live, l.ptr - DYN_HEADER_SIZE ≠ x := by
    intro l hl heq
    obtain ⟨r', -, hplaced⟩ := h.lives.placed l hl
    refine h.new l hl ?_
    rw [← (placed_header hplaced).1, heq, hptr]
  have hlives := h.lives.change hr hchange hne
  rw [Function.update_eq_self] at hlives
  refine ⟨hlives, h.size_pos, ⟨r, hr, x, hptr, hroom'⟩, h.new, fun l hl => ?_⟩
  obtain ⟨r', -, -, hkept⟩ := h.lives.kept hr hchange hne hl
  rw [hkept.next, h.next l hl]

/-- The program holds a new block, with what is in it. -/
theorem Got.snoc (h : Got pf m live m' blocks ptr size) {content : List UInt8}
    (hlen : content.length = size) (hholds : m'.Holds ptr content) :
    Lives pf m' blocks (live ++ [⟨ptr, content⟩]) := by
  obtain ⟨r, hr, x, rfl, hroom⟩ := h.room
  exact h.lives.snoc hr (hroom.placed (h.lives.tiled r hr) h.size_pos hlen) hholds h.new

end Calls

/-! ### Steps -/

/-- The heap is in use, and everything is where it should be. -/
def Good (pf : Platform) (h : Heap) (live : List Live) : Prop :=
  h.initialized = true ∧ ∃ blocks, Lives pf h.mem blocks live

/-- The state of a program between two steps. Before the first call it holds nothing. -/
def Inv (pf : Platform) (p : Program) : Prop :=
  (p.heap.initialized = false ∧ p.live = []) ∨ Good pf p.heap p.live

section Steps
variable {p : Program} {h : Heap} {live : List Live} {ptr size : Nat}

theorem ready_of_good (hgood : Good pf h live) : h.ready pf = h := by
  rw [Heap.ready, if_pos hgood.1]

/-- A call makes the heap ready. -/
theorem ready_good (hinv : Inv pf p) : Good pf (p.heap.ready pf) p.live := by
  rcases hinv with ⟨hfresh, hlive⟩ | hgood
  · rw [Heap.ready, hfresh, hlive]
    exact ⟨rfl, firstBlocks, init_lives pf p.heap.mem⟩
  · rwa [ready_of_good hgood]

/-- A program that holds a pointer has made a call. -/
theorem good_of_mem {l : Live} (hinv : Inv pf p) (hl : l ∈ p.live) : Good pf p.heap p.live := by
  rcases hinv with ⟨-, hlive⟩ | hgood
  · rw [hlive] at hl
    exact absurd hl List.not_mem_nil
  · exact hgood

/-- `smalloc` finds no block, or a new one. -/
theorem smalloc_spec (hgood : Good pf (h.ready pf) live) (hsize : SizeFits size) :
    smalloc pf h size = some (NULL, h.ready pf) ∨
      ∃ ptr m' blocks', smalloc pf h size = some (ptr, ⟨m', true⟩) ∧
        Got pf (h.ready pf).mem live m' blocks' ptr size := by
  obtain ⟨hinit, blocks, hlives⟩ := hgood
  rcases smallocFrom_spec hlives hsize pf.regions (fun _ hr => hr) with hnull |
    ⟨ptr, m', blocks', hfrom, hgot⟩
  · left
    rw [smalloc, hnull]
    rfl
  · right
    refine ⟨ptr, m', blocks', ?_, hgot⟩
    rw [smalloc, hfrom, Option.map_some, hinit]

theorem sfree_of_mem {m' : Mem} {l : Live} {blocks : Region → List Nat}
    (hlives : Lives pf h.mem blocks live) (hl : l ∈ live) (hinit : h.initialized = true)
    (hfree : sFreeBlock pf h.mem l.ptr = some m') : sfree pf h l.ptr = some { h with mem := m' } := by
  have hnull : l.ptr ≠ NULL := by
    obtain ⟨r, -, hplaced⟩ := hlives.placed l hl
    have hlo := hplaced.ptr_lt
    rw [DYN_SIZE_MULT] at hlo
    rw [NULL]
    omega
  rw [sfree, if_neg (by simp [hnull, hinit]), hfree, Option.map_some]

/-- A step has an outcome and keeps the invariant. A heap in use stays in use. -/
def Keeps (pf : Platform) (p : Program) (e : Event) : Prop :=
  ∃ p', Program.step pf p e = some p' ∧ Inv pf p' ∧
    (p.heap.initialized = true → p'.heap.initialized = true)

theorem keeps_of_good {e : Event} (p' : Program) (hstep : Program.step pf p e = some p')
    (hgood : Good pf p'.heap p'.live) : Keeps pf p e :=
  ⟨p', hstep, .inr hgood, fun _ => hgood.1⟩

theorem keeps_smalloc (hinv : Inv pf p) (hsize : SizeFits size) : Keeps pf p (.smalloc size) := by
  have hready := ready_good hinv
  rcases smalloc_spec hready hsize with hnull | ⟨ptr, m', blocks', hcall, hgot⟩
  · refine keeps_of_good { p with heap := p.heap.ready pf } ?_ hready
    rw [Program.step, hnull, Option.map_some]
    rfl
  · refine keeps_of_good (p.got ptr size ⟨m', true⟩) ?_ ?_
    · rw [Program.step, hcall, Option.map_some]
    · rw [Program.got, if_neg hgot.ne_null]
      refine ⟨rfl, blocks', hgot.snoc (Mem.length_read _ _ _) ?_⟩
      rw [Mem.Holds, Mem.length_read]

theorem keeps_scalloc {nmemb : Nat} (hinv : Inv pf p) (hsize : SizeFits (nmemb * size)) :
    Keeps pf p (.scalloc nmemb size) := by
  have hready := ready_good hinv
  have hu32 : u32 (nmemb * size) = nmemb * size := by
    refine u32_of_lt ?_
    rw [SizeFits, DYN_SIZE_MULT] at hsize
    omega
  have hagain : (p.heap.ready pf).ready pf = p.heap.ready pf := ready_of_good hready
  rcases smalloc_spec (h := p.heap.ready pf) (by rwa [hagain]) hsize with
    hnull | ⟨ptr, m', blocks', hcall, hgot⟩
  · refine keeps_of_good { p with heap := p.heap.ready pf } ?_ hready
    rw [Program.step, scalloc, hu32, hnull, hagain]
    rfl
  · -- the block is filled with zeros
    have hfilled := hgot.store (List.replicate (nmemb * size) 0) (by simp)
    refine keeps_of_good (⟨⟨m'.store ptr (List.replicate (nmemb * size) 0), true⟩,
      p.live ++ [⟨ptr, List.replicate (nmemb * size) 0⟩]⟩) ?_ ?_
    · rw [Program.step, scalloc, hu32, hcall]
      simp [hgot.ne_null]
    · exact ⟨rfl, blocks', hfilled.snoc (List.length_replicate ..) (Mem.holds_store_self _ _ _)⟩

theorem keeps_sfree (hinv : Inv pf p) (hptr : ptr = NULL ∨ p.Holds ptr) :
    Keeps pf p (.sfree ptr) := by
  rcases hptr with rfl | ⟨l, hl, rfl⟩
  · -- nothing is given back
    refine ⟨p.gave NULL p.heap, ?_, ?_, fun hinit => hinit⟩
    · rw [Program.step, sfree, if_pos (.inl rfl), Option.map_some]
    · rcases hinv with ⟨hfresh, hlive⟩ | ⟨hinit, blocks, hlives⟩
      · left
        rw [Program.gave, hlive]
        exact ⟨hfresh, rfl⟩
      · exact .inr ⟨hinit, blocks, hlives.sublist List.filter_sublist⟩
  · obtain ⟨hinit, blocks, hlives⟩ := good_of_mem hinv hl
    obtain ⟨m', blocks', hfree, hlives'⟩ := free_live hlives hl
    refine keeps_of_good (p.gave l.ptr { p.heap with mem := m' }) ?_ ⟨hinit, blocks', hlives'⟩
    rw [Program.step, sfree_of_mem hlives hl hinit hfree, Option.map_some]

/-- A write inside a block that the program holds keeps the invariant. -/
theorem keeps_write {offset : Nat} {bytes : List UInt8} (hinv : Inv pf p)
    (hwrite : ∃ l ∈ p.live, l.ptr = ptr ∧ offset + bytes.length ≤ l.content.length) :
    Keeps pf p (.write ptr offset bytes) := by
  obtain ⟨l, hl, rfl, hlen⟩ := hwrite
  obtain ⟨hinit, blocks, hlives⟩ := good_of_mem hinv hl
  obtain ⟨r, hr, hplaced⟩ := hlives.placed l hl
  have hptr := (placed_header hplaced).1
  have hfits := hplaced.fits
  obtain ⟨hchange, hroom⟩ := write_change (hlives.tiled r hr) (placed_room hplaced)
    (l.ptr + offset) bytes (by omega) (by omega)
  have hothers := hlives.change_others hl hr hchange
  rw [Function.update_eq_self] at hothers
  refine keeps_of_good _ rfl ⟨hinit, blocks, hothers.replace hlives.nodup hr ?_ fun _ _ hne => hne⟩
  intro l' hl' heq
  -- no other pointer is the same
  obtain rfl := List.inj_on_of_nodup_map hlives.nodup hl' hl heq
  have hlength : (l'.content.take offset ++ bytes ++
      l'.content.drop (offset + bytes.length)).length = l'.content.length := by
    simp only [List.length_append, List.length_take, List.length_drop]
    omega
  refine ⟨rfl, ⟨hplaced.mem, hplaced.ptr_lt, hplaced.lt_guard, hroom.taken, ?_⟩,
    Mem.holds_store_middle (hlives.content l' hl') hlen⟩
  have hroom' := hroom.fits
  rw [hptr, ← hlength] at hroom'
  exact hroom'

/-! #### `srealloc` -/

/-- A block that is too small is left for a new one, if there is one. -/
theorem keeps_grow {l : Live} {blocks : Region → List Nat} (hinit : p.heap.initialized = true)
    (hlives : Lives pf p.heap.mem blocks p.live) (hl : l ∈ p.live) (hsize : SizeFits size)
    (hgt : sGetActualBlockSize pf p.heap.mem l.ptr < size) (hnull : l.ptr ≠ NULL) :
    Keeps pf p (.srealloc l.ptr size) := by
  have hgood : Good pf p.heap p.live := ⟨hinit, blocks, hlives⟩
  have hready := ready_of_good hgood
  obtain ⟨r, hr, hplaced⟩ := hlives.placed l hl
  obtain ⟨hactual, hend, hcontent⟩ := actual_of_placed hlives hr hplaced
  have hpos : size ≠ 0 := by omega
  rcases smalloc_spec (h := p.heap) (by rwa [hready]) hsize with
    hnone | ⟨new, m₁, blocks₁, hcall, hgot⟩
  · -- nothing is changed
    have hsrealloc : srealloc pf p.heap l.ptr size = some (NULL, p.heap) := by
      rw [srealloc, hready, if_neg hnull, if_neg hpos, if_neg (by omega), if_neg (by omega), hnone,
        hready]
      rfl
    refine keeps_of_good p ?_ hgood
    rw [Program.step, hsrealloc]
    simp [hnull, hpos]
  rw [hready] at hgot
  -- the old contents are copied
  obtain ⟨r₁, hr₁, hplaced₁⟩ := hgot.lives.placed l hl
  have hend₁ := (actual_of_placed hgot.lives hr₁ hplaced₁).2.1
  rw [hgot.next l hl, ← hend] at hend₁
  have hactual₁ := Nat.add_left_cancel hend₁
  obtain ⟨m₂, hm₂⟩ : ∃ m₂, m₂ = m₁.store new (m₁.read l.ptr
    (sGetActualBlockSize pf m₁ l.ptr)) := ⟨_, rfl⟩
  have hstored : Got pf p.heap.mem p.live m₂ blocks₁ new size := by
    rw [hm₂]
    exact hgot.store _ (by rw [Mem.length_read]; omega)
  have hlives₂ := hstored.snoc (Mem.length_read m₂ new size) (by rw [Mem.Holds, Mem.length_read])
  -- the old block is given back, which does not touch the new one
  obtain ⟨m₃, blocks₃, hfree, hlives₃⟩ := free_live hlives₂ (List.mem_append_left _ hl)
  have hsfree := sfree_of_mem (h := ⟨m₂, true⟩) hlives₂ (List.mem_append_left _ hl) rfl hfree
  have hnewmem : (⟨new, m₂.read new size⟩ : Live) ∈
      (p.live ++ [(⟨new, m₂.read new size⟩ : Live)]).filter fun x => x.ptr ≠ l.ptr :=
    List.mem_filter.mpr ⟨by simp, by simpa using (hgot.new l hl).symm⟩
  obtain ⟨r₃, hr₃, hplaced₃⟩ := hlives₃.placed _ hnewmem
  have hroom₃ := placed_room hplaced₃
  rw [Mem.length_read] at hroom₃
  have hsrealloc : srealloc pf p.heap l.ptr size = some (new, ⟨m₃, true⟩) := by
    rw [srealloc, hready, if_neg hnull, if_neg hpos, if_neg (by omega), if_neg (by omega), hcall]
    simp only [Option.bind_eq_bind, Option.bind_some]
    rw [if_neg hgot.ne_null, ← hm₂, hsfree, Option.bind_some]
  refine keeps_of_good (p.moved l.ptr new size ⟨m₃, true⟩) ?_ ⟨rfl, blocks₃, ?_⟩
  · rw [Program.step, hsrealloc]
    simp [hnull, hpos, hgot.ne_null]
  · refine moved_live ⟨m₃, true⟩ (hlives₃.sublist
      ((List.sublist_append_left _ _).filter _)) hlives.nodup hr₃ (placed_header hplaced₃).1.symm
      hroom₃ hgot.size_pos (fun l' hl' heq => ?_) fun l' hl' _ => hgot.new l' hl'
    obtain rfl := List.inj_on_of_nodup_map hlives.nodup hl' hl heq
    -- the contents fit into both blocks
    have hcopied : m₂.Holds new (m₁.read l'.ptr (sGetActualBlockSize pf m₁ l'.ptr)) :=
      hm₂ ▸ Mem.holds_store_self _ _ _
    have hcopied := hcopied.take l'.content.length
    rw [Mem.take_read _ _ (by omega), hgot.lives.content l' hl'] at hcopied
    have hread : m₃.Holds new (m₂.read new size) := hlives₃.content _ hnewmem
    have hread := hread.take l'.content.length
    rw [Mem.take_read _ _ (by omega), hcopied] at hread
    rwa [List.take_of_length_le (by omega)]

/-- `srealloc` to a size that fits keeps the invariant: the block is
new, given back, cut or moved, with the first bytes of what it held. -/
theorem keeps_srealloc (hinv : Inv pf p) (hptr : ptr = NULL ∨ p.Holds ptr)
    (hsize : SizeFits size) : Keeps pf p (.srealloc ptr size) := by
  have hready := ready_good hinv
  by_cases hnull : ptr = NULL
  · -- as `smalloc`
    subst hnull
    obtain ⟨p', hstep, hp'⟩ := keeps_smalloc hinv hsize
    have hagain : (p.heap.ready pf).ready pf = p.heap.ready pf := ready_of_good hready
    have hcall : srealloc pf p.heap NULL size = smalloc pf p.heap size := by
      rw [srealloc, if_pos rfl, smalloc, smalloc, hagain]
    refine ⟨p', ?_, hp'⟩
    rw [Program.step, hcall]
    simp only [if_pos]
    exact hstep
  obtain ⟨l, hl, rfl⟩ := hptr.resolve_left hnull
  obtain ⟨hinit, blocks, hlives⟩ := good_of_mem hinv hl
  have hready := ready_of_good ⟨hinit, blocks, hlives⟩
  by_cases hzero : size = 0
  · -- as `sfree`
    subst hzero
    obtain ⟨p', hstep, hp'⟩ := keeps_sfree hinv (.inr ⟨l, hl, rfl⟩)
    refine ⟨p', ?_, hp'⟩
    rw [Program.step, srealloc, hready, if_neg hnull, if_pos rfl, Option.map_map]
    simp only [hnull]
    exact hstep
  obtain ⟨r, hr, hplaced⟩ := hlives.placed l hl
  obtain ⟨-, hend, hcontent⟩ := actual_of_placed hlives hr hplaced
  have hptr := (placed_header hplaced).1
  rcases Nat.lt_trichotomy size (sGetActualBlockSize pf p.heap.mem l.ptr) with hlt | heq | hgt
  · obtain ⟨m', blocks', hshrink, hlives'⟩ :=
      shrink_live hlives hl hsize (Nat.pos_of_ne_zero hzero) hlt
    refine keeps_of_good (p.moved l.ptr l.ptr size { p.heap with mem := m' }) ?_
      ⟨hinit, blocks', hlives'⟩
    rw [Program.step, srealloc, hready, if_neg hnull, if_neg hzero, if_neg (Nat.ne_of_gt hlt),
      if_pos hlt, hshrink]
    simp [hnull, hzero]
  · -- the block stays as it is
    have hroom := placed_room hplaced
    refine keeps_of_good (p.moved l.ptr l.ptr size p.heap) ?_ ⟨hinit, blocks, ?_⟩
    · rw [Program.step, srealloc, hready, if_neg hnull, if_neg hzero, if_pos heq.symm]
      simp [hnull, hzero]
    · refine moved_live p.heap (hlives.sublist List.filter_sublist) hlives.nodup hr hptr.symm
        ⟨hroom.mem, hroom.start_ne, hroom.lt_guard, hroom.taken, ?_⟩ (Nat.pos_of_ne_zero hzero)
        (fun l' hl' hl'ptr => ?_) fun _ _ hne => hne
      · rw [hptr, heq]
        exact Nat.le_of_eq hend
      · rw [← hl'ptr]
        exact Mem.Holds.take (hlives.content l' hl') size
  · exact keeps_grow hinit hlives hl hsize hgt hnull

/-- What is allowed has an outcome. -/
theorem keeps_step (e : Event) (hinv : Inv pf p) (hok : p.Allowed e) : Keeps pf p e := by
  cases e with
  | smalloc size => exact keeps_smalloc hinv hok
  | sfree ptr => exact keeps_sfree hinv hok
  | srealloc ptr size => exact keeps_srealloc hinv hok.1 hok.2
  | scalloc nmemb size => exact keeps_scalloc hinv hok
  | write ptr offset bytes => exact keeps_write hinv hok

end Steps

/-! ### Runs -/

/-- Payloads of different pointers do not overlap. -/
theorem payloads_apart {m : Mem} {blocks : Region → List Nat} {live : List Live}
    (h : Lives pf m blocks live) {l l' : Live} (hl : l ∈ live) (hl' : l' ∈ live)
    (hne : l.ptr ≠ l'.ptr) : payloadEnd pf m l ≤ l'.ptr ∨ payloadEnd pf m l' ≤ l.ptr := by
  obtain ⟨r, hr, hplaced⟩ := h.placed l hl
  obtain ⟨r', hr', hplaced'⟩ := h.placed l' hl'
  have hheader := placed_header hplaced
  have hheader' := placed_header hplaced'
  by_cases heq : r' = r
  · -- blocks of one region
    subst heq
    have halmost := tiled_almost (h.tiled r' hr) NULL
    have hle := halmost.apart hplaced.mem hplaced'.mem
    have hle' := halmost.apart hplaced'.mem hplaced.mem
    rw [payloadEnd, payloadEnd]
    omega
  · -- a payload ends before the end of its region
    have halmost := tiled_almost (h.tiled r hr) NULL
    have halmost' := tiled_almost (h.tiled r' hr') NULL
    have hend := (halmost.between (halmost.next_mem hplaced.mem hheader.2.2).1).2
    have hend' := (halmost'.between (halmost'.next_mem hplaced'.mem hheader'.2.2).1).2
    have hguard := guard_add r
    have hguard' := guard_add r'
    have hsymm : Std.Symm fun r r' : Region =>
        r.start + r.size ≤ r'.start ∨ r'.start + r'.size ≤ r.start := ⟨fun _ _ h => h.symm⟩
    have hdisjoint := pf.disjoint.forall hr' hr heq
    have hlo := (halmost.between hplaced.mem).1
    have hlo' := (halmost'.between hplaced'.mem).1
    rw [payloadEnd, payloadEnd]
    omega

theorem sound_of_lives {p : Program} {blocks : Region → List Nat}
    (h : Lives pf p.heap.mem blocks p.live) : Sound pf p := by
  refine ⟨⟨blocks, h.tiled, h.placed⟩, fun l hl => ?_, ?_, h.content⟩
  · obtain ⟨r, hr, hplaced⟩ := h.placed l hl
    have hmod := (h.tiled r hr).aligned _ hplaced.mem
    have hptr := (placed_header hplaced).1
    rw [DYN_SIZE_MULT] at hmod ⊢
    rw [DYN_HEADER_SIZE] at hmod hptr
    omega
  · have hnodup := List.pairwise_map.mp h.nodup
    exact hnodup.imp_of_mem fun hl hl' hne => payloads_apart h hl hl' hne

/-- **The allocator**: before its first call, and behind `s_init`, a
program has a run for all that is allowed, and once the heap is in use
it is sound. By the run rule, from the step lemma `keeps_step`. -/
theorem run_sound (pf : Platform) (m : Mem) (start : Heap)
    (hstart : start = ⟨m, false⟩ ∨ start = ⟨sInit pf m, true⟩) (es : List Event)
    (hallowed : Run.AllSteps (Program.step pf) Program.Allowed ⟨start, []⟩ es) :
    ∃ p, Run.run (Program.step pf) ⟨start, []⟩ es = some p ∧
      (start.initialized = true → p.heap.initialized = true) ∧
      (p.heap.initialized = true → Sound pf p) := by
  have hinv : Inv pf ⟨start, []⟩ := by
    rcases hstart with rfl | rfl
    · exact .inl ⟨rfl, rfl⟩
    · exact .inr ⟨rfl, firstBlocks, init_lives pf m⟩
  obtain ⟨p, hrun, hp, hinit⟩ := Run.progress_run
    (I := fun p => Inv pf p ∧ (start.initialized = true → p.heap.initialized = true))
    (fun p e hp hok => by
      obtain ⟨p', hstep, hp', hinit⟩ := keeps_step e hp.1 hok
      exact ⟨p', hstep, hp', fun hs => hinit (hp.2 hs)⟩) es _ ⟨hinv, fun hs => hs⟩ hallowed
  refine ⟨p, hrun, hinit, fun hp' => ?_⟩
  rcases hp with ⟨hfresh, -⟩ | ⟨-, blocks, hlives⟩
  · rw [hfresh] at hp'
    cases hp'
  · exact sound_of_lives hlives

/-- A platform with two regions. -/
def ram : Platform where
  littleEndian := true
  regions :=
    [⟨0x1000, 96, by decide, by decide, by decide, by decide, by decide⟩,
      ⟨0x2000, 4096, by decide, by decide, by decide, by decide, by decide⟩]
  disjoint := by decide

/-- A program that writes behind a pointer, moves the block to the
other region by `srealloc`, frees another one, gets memory from the
block that was freed by the move, and shrinks the one that was moved. -/
def movingProgram : List Event :=
  [.smalloc 5, .write 0x1010 1 [1, 2, 3], .scalloc 20 8, .srealloc 0x1010 60, .sfree 0x2010,
    .smalloc 20, .srealloc 0x20B8 16]

theorem movingProgram_allowed :
    Run.AllSteps (Program.step ram) Program.Allowed ⟨⟨fun _ => 0xFF, false⟩, []⟩ movingProgram := by
  decide +kernel

/-- The hypotheses of `run_sound` hold of the program, on two regions. -/
theorem run_sound_ram : ∃ p,
    Run.run (Program.step ram) ⟨⟨fun _ => 0xFF, false⟩, []⟩ movingProgram = some p ∧
      (false = true → p.heap.initialized = true) ∧
      (p.heap.initialized = true → Sound ram p) :=
  run_sound ram (fun _ => 0xFF) ⟨fun _ => 0xFF, false⟩ (.inl rfl) movingProgram movingProgram_allowed

/-- The pointers that the program holds at its end. -/
example : (Run.run (Program.step ram) ⟨⟨fun _ => 0xFF, false⟩, []⟩ movingProgram).map
    (fun p => p.live.map (·.ptr)) = some [0x20B8, 0x1010] := by decide +kernel

end Alcor.Proofs.Salloc
