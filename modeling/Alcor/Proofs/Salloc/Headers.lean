import Mathlib.Data.Nat.Bitwise
import Alcor.Salloc.Allocator

/-!
# `Alcor.Proofs.Salloc.Headers`: headers and joined blocks

A header is two words. Each holds a link without its lower three bits,
and one bit: whether the block is taken, in the first word. So a write
to one of the fields leaves the others, and the headers of all other
blocks. Each way to write has its lemmas about the three fields.

* `next_setNext`, `prev_setPrev`, `free_markTaken`, `free_markFree` and
  those beside them: what is read from a field after a write to one.
* `walk_back`, `walk_forward`: the loops of `s_compact_free` stop at the
  taken blocks before and behind a run of free ones.
* `compact_spec`: free neighbours are joined into one block.
-/

set_option autoImplicit false

/-!
## Reading and writing headers

A header is read as three things: the next block, the block before,
and whether the block is free. Every function that writes a header
changes one of them, at one address, and nothing outside the header
(`Touches`). Addresses of blocks are multiples of 8, so that headers do
not overlap.
-/

namespace Alcor.Proofs.Salloc

open Lib
open Alcor.Salloc

variable {m' : Mem} {w : Nat} {hs : List Nat}
variable {pf : Platform}

/-! ### Words -/

theorem word_lt (pf : Platform) (m : Mem) (a : Nat) : word pf m a < 2 ^ 32 := by
  have hlt : ∀ bs : List UInt8, bs.length = 4 → valIn pf.littleEndian bs < 2 ^ 32 := by
    intro bs hbs
    have h := leVal_lt (if pf.littleEndian then bs else bs.reverse)
    have hlen : (if pf.littleEndian then bs else bs.reverse).length = 4 := by split <;> simp [hbs]
    rw [hlen] at h
    exact h
  exact hlt _ (Mem.length_read m a 4)

theorem word_setWord_self (m : Mem) (a : Nat) {v : Nat} (hv : v < 2 ^ 32) :
    word pf (setWord pf m a v) a = v := by
  have h := Mem.holds_store_self m a (bytesIn pf.littleEndian 4 v)
  rw [Mem.Holds, length_bytesIn] at h
  rw [word, setWord, h, valIn_bytesIn]
  exact Nat.mod_eq_of_lt hv

/-- Nothing is written outside the word. -/
theorem setWord_of_outside (m : Mem) (a v : Nat) {x : Nat} (h : x < a ∨ a + 4 ≤ x) :
    setWord pf m a v x = m x := by
  rcases h with h | h
  · exact Mem.store_of_lt m a _ h
  · exact Mem.store_of_ge m a _ (by rwa [length_bytesIn])

theorem word_setWord_other (m : Mem) (a v : Nat) {b : Nat} (h : b + 4 ≤ a ∨ a + 4 ≤ b) :
    word pf (setWord pf m a v) b = word pf m b := by
  have hagree : Mem.Agree m (setWord pf m a v) b (b + 4) := by
    intro x hlo hhi
    refine (setWord_of_outside m a v ?_).symm
    omega
  rw [word, word, hagree.read_eq b 4 (Nat.le_refl _) (Nat.le_refl _)]

/-! ### Fields of a header -/

theorem and_mask (w : Nat) : w &&& 0x7FFFFFFF = w % 2 ^ 31 := Nat.and_two_pow_sub_one_eq_mod w 31

theorem and_taken (hw : w < 2 ^ 32) : w &&& 0x80000000 = w / 2 ^ 31 * 2 ^ 31 := by
  have h := Nat.and_two_pow w 31
  rw [Nat.testBit_eq_decide_div_mod_eq] at h
  rw [show (0x80000000 : Nat) = 2 ^ 31 from rfl, h]
  obtain h0 | h1 : w / 2 ^ 31 = 0 ∨ w / 2 ^ 31 = 1 := by omega
  · rw [h0]
    rfl
  · rw [h1]
    rfl

theorem taken_or (k : Nat) {v : Nat} (hv : v < 2 ^ 31) : (k * 2 ^ 31) ||| v = k * 2 ^ 31 + v := by
  rw [Nat.mul_comm k]
  exact (Nat.two_pow_add_eq_or_of_lt hv k).symm

theorem or_taken (hw : w < 2 ^ 32) : w ||| 0x80000000 = 2 ^ 31 + w % 2 ^ 31 := by
  have hsplit : w = w / 2 ^ 31 * 2 ^ 31 + w % 2 ^ 31 := by omega
  have hlt : w % 2 ^ 31 < 2 ^ 31 := Nat.mod_lt _ (by decide)
  have hone : (2 ^ 31 : Nat) + w % 2 ^ 31 = 1 * 2 ^ 31 ||| w % 2 ^ 31 := by
    rw [taken_or 1 hlt, Nat.one_mul]
  rw [hone]
  nth_rewrite 1 [hsplit]
  rw [← taken_or _ hlt, Nat.or_assoc, Nat.or_comm (w % 2 ^ 31), ← Nat.or_assoc]
  obtain h0 | h1 : w / 2 ^ 31 = 0 ∨ w / 2 ^ 31 = 1 := by omega
  · rw [h0]
    simp
  · rw [h1]
    simp

theorem next_eq (m : Mem) (p : Nat) : sGetNextBlock pf m p = word pf m p % 2 ^ 29 * 8 := by
  rw [sGetNextBlock, and_mask, u32, Nat.shiftLeft_eq, DYN_SIZE_MULT_SHIFT]
  omega

theorem prev_eq (m : Mem) (p : Nat) : sGetPrevBlock pf m p = word pf m (p + 4) % 2 ^ 29 * 8 := by
  rw [sGetPrevBlock, and_mask, u32, Nat.shiftLeft_eq, DYN_SIZE_MULT_SHIFT]
  omega

theorem free_eq (m : Mem) (p : Nat) : sIsBlockFree pf m p = decide (word pf m p < 2 ^ 31) := by
  have hw := word_lt pf m p
  rw [sIsBlockFree, and_taken hw, Bool.beq_eq_decide_eq, decide_eq_decide]
  omega

/-- A link fits into a header. -/
def Fits (n : Nat) : Prop := n % 8 = 0 ∧ n < 2 ^ 32

/-- The word with a new link and the old bit. -/
theorem link_word {n : Nat} (hw : w < 2 ^ 32) (hn : Fits n) :
    ((w &&& 0x80000000) ||| (n >>> DYN_SIZE_MULT_SHIFT)) = w / 2 ^ 31 * 2 ^ 31 + n / 8 := by
  have hlt := hn.2
  rw [and_taken hw, Nat.shiftRight_eq_div_pow, DYN_SIZE_MULT_SHIFT]
  exact taken_or _ (by omega)

/-! ### What a write changes -/

/-- Nothing but the headers of `hs` is changed. -/
def Touches (hs : List Nat) (m m' : Mem) : Prop :=
  ∀ a, (∀ h ∈ hs, a < h ∨ h + 8 ≤ a) → m' a = m a

theorem Touches.trans {hs' : List Nat} {m m'' : Mem} (h : Touches hs m m')
    (h' : Touches hs' m' m'') : Touches (hs ++ hs') m m'' := by
  intro a ha
  rw [h' a fun x hx => ha x (List.mem_append_right _ hx),
    h a fun x hx => ha x (List.mem_append_left _ hx)]

theorem Touches.mono {hs' : List Nat} {m : Mem} (h : Touches hs m m') (hsub : ∀ x ∈ hs, x ∈ hs') :
    Touches hs' m m' :=
  fun a ha => h a fun x hx => ha x (hsub x hx)

theorem Touches.symm {m : Mem} (h : Touches hs m m') : Touches hs m' m :=
  fun a ha => (h a ha).symm

section Writes
variable {m : Mem} {p q n v : Nat}

/-- The first word of a header. -/
theorem touches_first : Touches [p] m (setWord pf m p v) := by
  intro a ha
  have hp := ha p List.mem_cons_self
  exact setWord_of_outside m p v (by omega)

/-- The second word of a header. -/
theorem touches_second : Touches [p] m (setWord pf m (p + 4) v) := by
  intro a ha
  have hp := ha p List.mem_cons_self
  exact setWord_of_outside m (p + 4) v (by omega)

/-- The first words of other headers, and all second words, are not the first word of `p`. -/
theorem word_first (pf : Platform) (hp : p % 8 = 0) (hq : q % 8 = 0) :
    (q ≠ p → word pf (setWord pf m p v) q = word pf m q) ∧
      word pf (setWord pf m p v) (q + 4) = word pf m (q + 4) :=
  ⟨fun hne => word_setWord_other m p v (by omega), word_setWord_other m p v (by omega)⟩

theorem word_second (pf : Platform) (hp : p % 8 = 0) (hq : q % 8 = 0) :
    word pf (setWord pf m (p + 4) v) q = word pf m q ∧
      (q ≠ p → word pf (setWord pf m (p + 4) v) (q + 4) = word pf m (q + 4)) :=
  ⟨word_setWord_other m (p + 4) v (by omega), fun hne => word_setWord_other m (p + 4) v (by omega)⟩

/-! #### The next block -/

theorem next_setNext (hp : p % 8 = 0) (hq : q % 8 = 0) (hn : Fits n) :
    sGetNextBlock pf (sSetNextBlock pf m p n) q = if q = p then n else sGetNextBlock pf m q := by
  obtain ⟨hmod, hlt⟩ := hn
  split
  · next heq =>
      subst heq
      have hw := word_lt pf m q
      rw [next_eq, sSetNextBlock, link_word hw ⟨hmod, hlt⟩, word_setWord_self _ _ (by omega)]
      omega
  · next hne => rw [next_eq, sSetNextBlock, (word_first pf hp hq).1 hne, next_eq]

theorem prev_setNext (hp : p % 8 = 0) (hq : q % 8 = 0) :
    sGetPrevBlock pf (sSetNextBlock pf m p n) q = sGetPrevBlock pf m q := by
  rw [prev_eq, sSetNextBlock, (word_first pf hp hq).2, prev_eq]

theorem free_setNext (hp : p % 8 = 0) (hq : q % 8 = 0) (hn : Fits n) :
    sIsBlockFree pf (sSetNextBlock pf m p n) q = sIsBlockFree pf m q := by
  obtain rfl | hne := eq_or_ne q p
  · have hw := word_lt pf m q
    have hlt := hn.2
    rw [free_eq, free_eq, sSetNextBlock, link_word hw hn, word_setWord_self _ _ (by omega),
      decide_eq_decide]
    omega
  · rw [free_eq, sSetNextBlock, (word_first pf hp hq).1 hne, free_eq]

/-! #### The block before -/

theorem prev_setPrev (hp : p % 8 = 0) (hq : q % 8 = 0) (hn : Fits n) :
    sGetPrevBlock pf (sSetPrevBlock pf m p n) q = if q = p then n else sGetPrevBlock pf m q := by
  obtain ⟨hmod, hlt⟩ := hn
  split
  · next heq =>
      subst heq
      have hw := word_lt pf m (q + 4)
      rw [prev_eq, sSetPrevBlock, link_word hw ⟨hmod, hlt⟩, word_setWord_self _ _ (by omega)]
      omega
  · next hne => rw [prev_eq, sSetPrevBlock, (word_second pf hp hq).2 hne, prev_eq]

theorem next_setPrev (hp : p % 8 = 0) (hq : q % 8 = 0) :
    sGetNextBlock pf (sSetPrevBlock pf m p n) q = sGetNextBlock pf m q := by
  rw [next_eq, sSetPrevBlock, (word_second pf hp hq).1, next_eq]

theorem free_setPrev (hp : p % 8 = 0) (hq : q % 8 = 0) :
    sIsBlockFree pf (sSetPrevBlock pf m p n) q = sIsBlockFree pf m q := by
  rw [free_eq, sSetPrevBlock, (word_second pf hp hq).1, free_eq]

/-! #### The bit of a block -/

theorem next_markTaken (hp : p % 8 = 0) (hq : q % 8 = 0) :
    sGetNextBlock pf (sMarkBlockTaken pf m p) q = sGetNextBlock pf m q := by
  obtain rfl | hne := eq_or_ne q p
  · have hw := word_lt pf m q
    rw [next_eq, next_eq, sMarkBlockTaken, or_taken hw, word_setWord_self _ _ (by omega)]
    omega
  · rw [next_eq, sMarkBlockTaken, (word_first pf hp hq).1 hne, next_eq]

theorem prev_markTaken (hp : p % 8 = 0) (hq : q % 8 = 0) :
    sGetPrevBlock pf (sMarkBlockTaken pf m p) q = sGetPrevBlock pf m q := by
  rw [prev_eq, sMarkBlockTaken, (word_first pf hp hq).2, prev_eq]

theorem free_markTaken (hp : p % 8 = 0) (hq : q % 8 = 0) :
    sIsBlockFree pf (sMarkBlockTaken pf m p) q =
      if q = p then false else sIsBlockFree pf m q := by
  split
  · next heq =>
      subst heq
      have hw := word_lt pf m q
      rw [free_eq, sMarkBlockTaken, or_taken hw, word_setWord_self _ _ (by omega)]
      exact decide_eq_false (by omega)
  · next hne => rw [free_eq, sMarkBlockTaken, (word_first pf hp hq).1 hne, free_eq]

theorem next_markFree (hp : p % 8 = 0) (hq : q % 8 = 0) :
    sGetNextBlock pf (sMarkBlockFree pf m p) q = sGetNextBlock pf m q := by
  obtain rfl | hne := eq_or_ne q p
  · rw [next_eq, next_eq, sMarkBlockFree, and_mask, word_setWord_self _ _ (by omega)]
    omega
  · rw [next_eq, sMarkBlockFree, (word_first pf hp hq).1 hne, next_eq]

theorem prev_markFree (hp : p % 8 = 0) (hq : q % 8 = 0) :
    sGetPrevBlock pf (sMarkBlockFree pf m p) q = sGetPrevBlock pf m q := by
  rw [prev_eq, sMarkBlockFree, (word_first pf hp hq).2, prev_eq]

theorem free_markFree (hp : p % 8 = 0) (hq : q % 8 = 0) :
    sIsBlockFree pf (sMarkBlockFree pf m p) q = if q = p then true else sIsBlockFree pf m q := by
  split
  · next heq =>
      subst heq
      rw [free_eq, sMarkBlockFree, and_mask, word_setWord_self _ _ (by omega)]
      exact decide_eq_true (by omega)
  · next hne => rw [free_eq, sMarkBlockFree, (word_first pf hp hq).1 hne, free_eq]

end Writes

/-! #### Contents -/

/-- A memory that is the same in a header has the same header. -/
theorem header_congr (pf : Platform) {m : Mem} {q : Nat}
    (h : ∀ a, q ≤ a → a < q + 8 → m' a = m a) :
    sGetNextBlock pf m' q = sGetNextBlock pf m q ∧ sGetPrevBlock pf m' q = sGetPrevBlock pf m q ∧
      sIsBlockFree pf m' q = sIsBlockFree pf m q := by
  have hagree : Mem.Agree m m' q (q + 8) := fun a hlo hhi => (h a hlo hhi).symm
  have hfirst : word pf m' q = word pf m q := by
    rw [word, word, hagree.read_eq q 4 (Nat.le_refl _) (by omega)]
  have hsecond : word pf m' (q + 4) = word pf m (q + 4) := by
    rw [word, word, hagree.read_eq (q + 4) 4 (by omega) (by omega)]
  refine ⟨?_, ?_, ?_⟩
  · rw [next_eq, next_eq, hfirst]
  · rw [prev_eq, prev_eq, hsecond]
  · rw [free_eq, free_eq, hfirst]

end Alcor.Proofs.Salloc

/-!
## Joining free blocks

`s_compact_free` makes a block free, and joins it with the free blocks
around it, between the last taken block before (`z`) and the first taken
block behind (`y`). The joined block starts where the first free one
did. `compact_spec` says what the headers are afterwards: the link of
the joined block and the link back to it are new, and the bit of the
block that became free. This is so even if nothing has to be linked.

Blocks are few enough for the walks over them to end, since their
addresses go upwards.
-/

namespace Alcor.Proofs.Salloc

open Lib
open Alcor.Salloc

variable {nodes : List Nat}
variable {pf : Platform}

/-- Addresses of headers that go upwards, in 32 bits. -/
structure Ascending (nodes : List Nat) : Prop where
  sorted : nodes.Pairwise (· < ·)
  aligned : ∀ x ∈ nodes, x % 8 = 0
  lt : ∀ x ∈ nodes, x < 2 ^ 32

theorem Ascending.fits (h : Ascending nodes) {x : Nat} (hx : x ∈ nodes) :
    Fits x := ⟨h.aligned x hx, h.lt x hx⟩

theorem Ascending.nodup (h : Ascending nodes) : nodes.Nodup :=
  h.sorted.imp Nat.ne_of_lt

theorem Ascending.sublist {nodes' : List Nat} (h : Ascending nodes) (hsub : nodes'.Sublist nodes) :
    Ascending nodes' where
  sorted := h.sorted.sublist hsub
  aligned x hx := h.aligned x (hsub.subset hx)
  lt x hx := h.lt x (hsub.subset hx)

/-- There are fewer blocks than rounds. -/
theorem Ascending.length_lt (h : Ascending nodes) : nodes.length ≤ ROUNDS := by
  have hsub : nodes ⊆ List.range (2 ^ 32) := fun x hx => List.mem_range.mpr (h.lt x hx)
  have hle := (h.nodup.subperm hsub).length_le
  rwa [List.length_range] at hle

/-- What stands before a block is below it, and what stands behind it above. -/
theorem Ascending.around {pre fs₁ fs₂ post : List Nat} {z t y : Nat}
    (h : Ascending (pre ++ z :: (fs₁ ++ t :: (fs₂ ++ y :: post)))) :
    (∀ q ∈ z :: fs₁, q < t) ∧ ∀ q ∈ fs₂ ++ [y], t < q := by
  have hsplit : pre ++ z :: (fs₁ ++ t :: (fs₂ ++ y :: post)) =
      (pre ++ z :: fs₁) ++ t :: (fs₂ ++ y :: post) := by simp
  have hsorted := h.sorted
  rw [hsplit, List.pairwise_append, List.pairwise_cons] at hsorted
  obtain ⟨-, ⟨hbehind, -⟩, hbefore⟩ := hsorted
  constructor
  · intro q hq
    exact hbefore q (List.mem_append_right _ hq) t List.mem_cons_self
  · intro q hq
    refine hbehind q ?_
    rcases List.mem_append.mp hq with hq | hq
    · exact List.mem_append_left _ hq
    · rw [List.mem_singleton.mp hq]
      simp

section Compact
variable {m : Mem} {pre fs₁ fs₂ post : List Nat} {p n z t y : Nat}

/-- The free blocks around a block `t`, and the taken ones `z` and `y` around those. -/
structure FreeRun (pf : Platform) (m : Mem) (z : Nat) (fs₁ : List Nat) (t : Nat) (fs₂ : List Nat)
    (y : Nat) : Prop where
  before : sIsBlockFree pf m z = false
  behind : sIsBlockFree pf m y = false
  free₁ : ∀ f ∈ fs₁, sIsBlockFree pf m f = true
  self : sIsBlockFree pf m t = true
  free₂ : ∀ f ∈ fs₂, sIsBlockFree pf m f = true

/-- The walk back ends at the taken block before. -/
theorem walk_back (hasc : Ascending (pre ++ z :: (fs₁ ++ t :: (fs₂ ++ y :: post))))
    (hlinked : Linked (sGetNextBlock pf m) (sGetPrevBlock pf m) p
      (pre ++ z :: (fs₁ ++ t :: (fs₂ ++ y :: post))) n)
    (hrun : FreeRun pf m z fs₁ t fs₂ y) :
    walk (sIsBlockFree pf m) (sGetPrevBlock pf m) ROUNDS t = some z := by
  have hsplit : pre ++ z :: (fs₁ ++ t :: (fs₂ ++ y :: post)) =
      (pre ++ z :: (fs₁ ++ [t])) ++ (fs₂ ++ y :: post) := by simp
  have hlen : (fs₁ ++ [t]).length < ROUNDS := by
    have hle := hasc.length_lt
    simp only [List.length_append, List.length_cons, List.length_nil] at hle ⊢
    omega
  rw [hsplit] at hlinked
  have hwalk := walk_prev (linked_append.mp hlinked).1 (fun f hf => by
    rcases List.mem_append.mp hf with hf | hf
    · exact hrun.free₁ f hf
    · exact List.mem_singleton.mp hf ▸ hrun.self) hrun.before hlen
  rwa [← List.cons_append, List.getLastD_concat] at hwalk

/-- The walk forward ends at the taken block behind. -/
theorem walk_forward (hasc : Ascending (pre ++ z :: (fs₁ ++ t :: (fs₂ ++ y :: post))))
    (hlinked : Linked (sGetNextBlock pf m) (sGetPrevBlock pf m) p
      (pre ++ z :: (fs₁ ++ t :: (fs₂ ++ y :: post))) n)
    (hrun : FreeRun pf m z fs₁ t fs₂ y) :
    walk (sIsBlockFree pf m) (sGetNextBlock pf m) ROUNDS t = some y := by
  have hsplit : pre ++ z :: (fs₁ ++ t :: (fs₂ ++ y :: post)) =
      (pre ++ z :: fs₁) ++ ((t :: fs₂) ++ y :: post) := by simp
  have hlen : (t :: fs₂).length < ROUNDS := by
    have hle := hasc.length_lt
    simp only [List.length_append, List.length_cons] at hle ⊢
    omega
  rw [hsplit] at hlinked
  exact walk_next (linked_append.mp hlinked).2
    (List.forall_mem_cons.mpr ⟨hrun.self, hrun.free₂⟩) hrun.behind hlen

/-- The taken block before is linked to the first of the free ones. -/
theorem next_before (hlinked : Linked (sGetNextBlock pf m) (sGetPrevBlock pf m) p
      (pre ++ z :: (fs₁ ++ t :: (fs₂ ++ y :: post))) n) :
    sGetNextBlock pf m z = fs₁.headD t := by
  rw [hlinked.next_eq]
  cases fs₁ <;> rfl

/-- The taken block behind is linked to the last of the free ones. -/
theorem prev_behind (hlinked : Linked (sGetNextBlock pf m) (sGetPrevBlock pf m) p
      (pre ++ z :: (fs₁ ++ t :: (fs₂ ++ y :: post))) n) :
    sGetPrevBlock pf m y = fs₂.getLastD t := by
  have hsplit : pre ++ z :: (fs₁ ++ t :: (fs₂ ++ y :: post)) =
      (pre ++ z :: (fs₁ ++ t :: fs₂)) ++ y :: post := by simp
  rw [hsplit] at hlinked
  rw [hlinked.prev_eq, ← List.cons_append, ← List.append_assoc, List.getLastD_eq_getLast?,
    List.getLast?_append_cons, ← List.getLastD_eq_getLast?, List.getLastD_cons]

/-- Where nothing has to be linked, there are no other free blocks. -/
theorem alone (hasc : Ascending (pre ++ z :: (fs₁ ++ t :: (fs₂ ++ y :: post))))
    (hlast : fs₂.getLastD t = t) : fs₂ = [] := by
  obtain rfl | ⟨fs, f, rfl⟩ := List.eq_nil_or_concat' fs₂
  · rfl
  · rw [List.getLastD_concat] at hlast
    subst hlast
    have hnodup := hasc.nodup
    simp [List.nodup_append] at hnodup

/-- What `s_compact_free` does with the block `t` between free blocks:
it ends, the first of the free ones is linked to the taken block
behind them and back, `t` is marked as free, and nothing but these
headers is written. -/
theorem compact_spec
    (hasc : Ascending (pre ++ z :: (fs₁ ++ t :: (fs₂ ++ y :: post))))
    (hlinked : Linked (sGetNextBlock pf m) (sGetPrevBlock pf m) p
      (pre ++ z :: (fs₁ ++ t :: (fs₂ ++ y :: post))) n)
    (hz : sIsBlockFree pf m z = false) (hy : sIsBlockFree pf m y = false)
    (hfs₁ : ∀ f ∈ fs₁, sIsBlockFree pf m f = true)
    (hfs₂ : ∀ f ∈ fs₂, sIsBlockFree pf m f = true) :
    ∃ m', sCompactFree pf m t = some m' ∧
      (∀ q, q % 8 = 0 →
        sGetNextBlock pf m' q = (if q = fs₁.headD t then y else sGetNextBlock pf m q) ∧
        sGetPrevBlock pf m' q = (if q = y then fs₁.headD t else sGetPrevBlock pf m q) ∧
        sIsBlockFree pf m' q = if q = t then true else sIsBlockFree pf m q) ∧
      Touches [t, fs₁.headD t, y] m m' := by
  have ht : t % 8 = 0 := hasc.aligned t (by simp)
  have hyfits : Fits y := hasc.fits (by simp)
  have hxmem : fs₁.headD t ∈ pre ++ z :: (fs₁ ++ t :: (fs₂ ++ y :: post)) := by
    cases fs₁ <;> simp
  have hxfits : Fits (fs₁.headD t) := hasc.fits hxmem
  -- the block is marked free first
  obtain ⟨m₁, hm₁⟩ : ∃ m₁, m₁ = sMarkBlockFree pf m t := ⟨_, rfl⟩
  have hnext₁ : ∀ q, q % 8 = 0 → sGetNextBlock pf m₁ q = sGetNextBlock pf m q :=
    fun q hq => hm₁ ▸ next_markFree ht hq
  have hprev₁ : ∀ q, q % 8 = 0 → sGetPrevBlock pf m₁ q = sGetPrevBlock pf m q :=
    fun q hq => hm₁ ▸ prev_markFree ht hq
  have hfree₁ : ∀ q, q % 8 = 0 →
      sIsBlockFree pf m₁ q = if q = t then true else sIsBlockFree pf m q :=
    fun q hq => hm₁ ▸ free_markFree ht hq
  have htouch₁ : Touches [t] m m₁ := hm₁ ▸ touches_first
  have hlinked₁ : Linked (sGetNextBlock pf m₁) (sGetPrevBlock pf m₁) p
      (pre ++ z :: (fs₁ ++ t :: (fs₂ ++ y :: post))) n :=
    hlinked.congr fun q hq => ⟨hnext₁ q (hasc.aligned q hq), hprev₁ q (hasc.aligned q hq)⟩
  -- the bits of the other blocks are as before
  have hother : ∀ q ∈ pre ++ z :: (fs₁ ++ t :: (fs₂ ++ y :: post)), q ≠ t →
      sIsBlockFree pf m₁ q = sIsBlockFree pf m q := by
    intro q hq hne
    rw [hfree₁ q (hasc.aligned q hq), if_neg hne]
  obtain ⟨hlt, hgt⟩ := hasc.around
  have hrun : FreeRun pf m₁ z fs₁ t fs₂ y := by
    constructor
    · rw [hother z (by simp) (Nat.ne_of_lt (hlt z List.mem_cons_self)), hz]
    · rw [hother y (by simp) (Nat.ne_of_gt (hgt y (by simp))), hy]
    · intro f hf
      rw [hother f (by simp [hf]) (Nat.ne_of_lt (hlt f (List.mem_cons_of_mem _ hf))), hfs₁ f hf]
    · rw [hfree₁ t ht, if_pos rfl]
    · intro f hf
      rw [hother f (by simp [hf]) (Nat.ne_of_gt (hgt f (by simp [hf]))), hfs₂ f hf]
  have hcompact : sCompactFree pf m t =
      if fs₁.headD t ≠ t ∨ fs₂.getLastD t ≠ t then
        some (sSetPrevBlock pf (sSetNextBlock pf m₁ (fs₁.headD t) y) y (fs₁.headD t))
      else some m₁ := by
    rw [sCompactFree, ← hm₁]
    simp only [walk_back hasc hlinked₁ hrun, walk_forward hasc hlinked₁ hrun,
      next_before hlinked₁, prev_behind hlinked₁, Option.bind_eq_bind, Option.bind_some]
  rw [hcompact]
  split
  · -- the joined block gets its links
    refine ⟨_, rfl, fun q hq => ⟨?_, ?_, ?_⟩, ?_⟩
    · rw [next_setPrev hyfits.1 hq, next_setNext hxfits.1 hq hyfits, hnext₁ q hq]
    · rw [prev_setPrev hyfits.1 hq hxfits, prev_setNext hxfits.1 hq, hprev₁ q hq]
    · rw [free_setPrev hyfits.1 hq, free_setNext hxfits.1 hq hyfits, hfree₁ q hq]
    · exact htouch₁.trans (touches_first.trans touches_second)
  · next hcond =>
      -- the block is alone, and its links are right
      simp only [not_or, not_not] at hcond
      obtain ⟨hx, hlast⟩ := hcond
      have hfs₂nil := alone hasc hlast
      subst hfs₂nil
      have hsplit : pre ++ z :: (fs₁ ++ t :: ([] ++ y :: post)) =
          (pre ++ z :: fs₁) ++ t :: y :: post := by simp
      have hnext : sGetNextBlock pf m t = y := by
        rw [hsplit] at hlinked
        exact hlinked.next_eq
      have hprev : sGetPrevBlock pf m y = t := prev_behind hlinked
      refine ⟨m₁, rfl, fun q hq => ⟨?_, ?_, hfree₁ q hq⟩, htouch₁.mono (by simp)⟩
      · rw [hx, hnext₁ q hq]
        split
        · next heq => rw [heq, hnext]
        · rfl
      · rw [hx, hprev₁ q hq]
        split
        · next heq => rw [heq, hprev]
        · rfl

end Compact

end Alcor.Proofs.Salloc
