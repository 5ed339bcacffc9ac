import Mathlib.Data.List.Basic
import Mathlib.Data.List.Perm.Basic

/-!
# `Alcor.Lib.Buckets`: the buckets of a hash table

A hash table as the list of its buckets, each a list of elements. `pos`
says in which bucket an element belongs, and in a table that is `Placed`
every element is there.

`rehash` takes the buckets apart one by one and puts each element in
front of the bucket where it belongs, in the same table. The theorems:

* `Placed.push`, `Placed.filter` and `Placed.flatten_take`: a table
  stays placed when an element is put in, when elements are taken out of
  a bucket, and when empty buckets are cut off.
* `Placed.mem_flatten`: in a placed table one bucket is enough to look
  for an element.
* `flatten_rehash_perm`: no element is lost or made by a rehash.
* `placed_rehash`: behind it every element is where it belongs. It does
  not matter that an element may be put into a bucket that comes later,
  and is then moved again.
-/

set_option autoImplicit false

namespace Lib.Buckets

variable {α : Type} {pos : α → Nat} {bs : List (List α)} {x : α} {i n : Nat}

/-- An element goes in front of a bucket. -/
def push (bs : List (List α)) (i : Nat) (x : α) : List (List α) := bs.modify i (x :: ·)

/-- A bucket is taken apart, and its elements go where they belong. -/
def rehashBucket (pos : α → Nat) (bs : List (List α)) (i : Nat) : List (List α) :=
  (bs[i]?.getD []).foldl (fun bs x => push bs (pos x) x) (bs.set i [])

/-- The first `n` buckets are taken apart. -/
def rehash (pos : α → Nat) (bs : List (List α)) (n : Nat) : List (List α) :=
  (List.range n).foldl (rehashBucket pos) bs

/-- Every element is in the bucket where it belongs. -/
def Placed (pos : α → Nat) (bs : List (List α)) : Prop :=
  ∀ i b, bs[i]? = some b → ∀ x ∈ b, pos x = i

/-! ### A bucket -/

@[simp] theorem length_push (bs : List (List α)) (i : Nat) (x : α) :
    (push bs i x).length = bs.length :=
  List.length_modify ..

theorem flatten_push_perm (hi : i < bs.length) : (push bs i x).flatten.Perm (x :: bs.flatten) := by
  induction bs generalizing i with
  | nil => cases hi
  | cons b bs ih =>
    cases i with
    | zero => exact List.Perm.refl _
    | succ i =>
      have hrest := (ih (Nat.lt_of_succ_lt_succ hi)).append_left b
      exact hrest.trans List.perm_middle

/-- The elements of a table are those of a bucket and those that stay
when this bucket is emptied. -/
theorem flatten_set_nil_perm (bs : List (List α)) (i : Nat) :
    (bs[i]?.getD [] ++ (bs.set i []).flatten).Perm bs.flatten := by
  induction bs generalizing i with
  | nil => exact List.Perm.refl _
  | cons b bs ih =>
    cases i with
    | zero => exact List.Perm.refl _
    | succ i =>
      have hcomm : (bs[i]?.getD [] ++ b).Perm (b ++ bs[i]?.getD []) := List.perm_append_comm
      have hswap := hcomm.append_right (bs.set i []).flatten
      rw [List.append_assoc, List.append_assoc] at hswap
      exact hswap.trans ((ih i).append_left b)

theorem Placed.push (h : Placed pos bs) : Placed pos (push bs (pos x) x) := by
  intro i b hb y hy
  rw [Buckets.push, List.getElem?_modify] at hb
  obtain ⟨b', hb', rfl⟩ := Option.map_eq_some_iff.mp hb
  split at hy
  · next heq =>
      rcases List.mem_cons.mp hy with rfl | hy
      · exact heq
      · exact h i b' hb' y hy
  · exact h i b' hb' y hy

/-- In a placed table an element is looked for in its bucket only: it
is in no other. -/
theorem Placed.mem_flatten (h : Placed pos bs) : x ∈ bs.flatten ↔ x ∈ bs[pos x]?.getD [] := by
  rw [List.mem_flatten]
  constructor
  · rintro ⟨b, hb, hx⟩
    obtain ⟨i, hi⟩ := List.mem_iff_getElem?.mp hb
    rw [h i b hi x hx, hi]
    exact hx
  · intro hx
    cases hb : bs[pos x]? with
    | none => simp [hb] at hx
    | some b =>
      rw [hb] at hx
      exact ⟨b, List.mem_of_getElem? hb, hx⟩

/-! ### Elements that leave -/

/-- A table stays placed when elements leave a bucket. -/
theorem Placed.filter (h : Placed pos bs) (i : Nat) (p : α → Bool) :
    Placed pos (bs.modify i (List.filter p)) := by
  intro j b hb y hy
  rw [List.getElem?_modify] at hb
  obtain ⟨b', hb', rfl⟩ := Option.map_eq_some_iff.mp hb
  split at hy
  · exact h j b' hb' y (List.mem_of_mem_filter hy)
  · exact h j b' hb' y hy

theorem flatten_filter_sublist (bs : List (List α)) (i : Nat) (p : α → Bool) :
    (bs.modify i (List.filter p)).flatten.Sublist bs.flatten := by
  induction bs generalizing i with
  | nil => cases i <;> exact List.Sublist.refl _
  | cons b bs ih =>
    cases i with
    | zero => exact List.filter_sublist.append (List.Sublist.refl _)
    | succ i => exact (List.Sublist.refl b).append (ih i)

/-- What is not filtered out stays in the table, and nothing comes in. -/
theorem mem_flatten_filter {p : α → Bool} (hp : p x = true) (hx : x ∈ bs.flatten) :
    x ∈ (bs.modify i (List.filter p)).flatten := by
  induction bs generalizing i with
  | nil => cases hx
  | cons b bs ih =>
    cases i with
    | zero =>
      rcases List.mem_append.mp hx with hx | hx
      · exact List.mem_append_left _ (List.mem_filter.mpr ⟨hx, hp⟩)
      · exact List.mem_append_right _ hx
    | succ i =>
      rcases List.mem_append.mp hx with hx | hx
      · exact List.mem_append_left _ hx
      · exact List.mem_append_right _ (ih hx)

/-- Where no element belongs in the last buckets, they can be cut off,
and no element is lost. -/
theorem Placed.flatten_take (h : Placed pos bs) (hpos : ∀ x, pos x < n) :
    (bs.take n).flatten = bs.flatten := by
  have hdrop : (bs.drop n).flatten = [] := by
    rw [List.flatten_eq_nil_iff]
    intro b hb
    obtain ⟨i, hi⟩ := List.mem_iff_getElem?.mp hb
    rw [List.getElem?_drop] at hi
    refine List.eq_nil_iff_forall_not_mem.mpr fun x hx => ?_
    have hlt := hpos x
    have heq := h _ b hi x hx
    omega
  conv_rhs => rw [← List.take_append_drop n bs, List.flatten_append, hdrop, List.append_nil]

theorem Placed.take (h : Placed pos bs) (n : Nat) : Placed pos (bs.take n) := by
  intro i b hb
  rw [List.getElem?_take] at hb
  split at hb
  · exact h i b hb
  · cases hb

/-! ### Rehashing -/

@[simp] theorem length_rehashBucket (pos : α → Nat) (bs : List (List α)) (i : Nat) :
    (rehashBucket pos bs i).length = bs.length := by
  rw [rehashBucket]
  have hfold (chain : List α) : ∀ bs : List (List α),
      (chain.foldl (fun bs x => push bs (pos x) x) bs).length = bs.length := by
    induction chain with
    | nil => exact fun _ => rfl
    | cons x chain ih => exact fun bs => (ih _).trans (length_push bs _ x)
  rw [hfold, List.length_set]

theorem length_rehash (pos : α → Nat) (bs : List (List α)) (n : Nat) :
    (rehash pos bs n).length = bs.length := by
  induction n with
  | zero => rfl
  | succ n ih =>
    rw [rehash, List.range_succ, List.foldl_append]
    exact (length_rehashBucket pos _ n).trans ih

section Fold
variable (hpos : ∀ x, pos x < bs.length)
include hpos

theorem flatten_pushes_perm (chain : List α) :
    ∀ cs : List (List α), cs.length = bs.length →
      (chain.foldl (fun bs x => push bs (pos x) x) cs).flatten.Perm (chain ++ cs.flatten) := by
  induction chain with
  | nil => exact fun cs _ => List.Perm.refl _
  | cons x chain ih =>
    intro cs hcs
    have hx : pos x < cs.length := hcs ▸ hpos x
    have hrest := ih (push cs (pos x) x) ((length_push _ _ _).trans hcs)
    exact hrest.trans (((flatten_push_perm hx).append_left chain).trans List.perm_middle)

theorem flatten_rehash_perm (n : Nat) : (rehash pos bs n).flatten.Perm bs.flatten := by
  induction n with
  | zero => exact List.Perm.refl _
  | succ n ih =>
    rw [rehash, List.range_succ, List.foldl_append]
    have hlen := length_rehash pos bs n
    have hpushes := flatten_pushes_perm hpos ((rehash pos bs n)[n]?.getD [])
      ((rehash pos bs n).set n []) (by rw [List.length_set, hlen])
    exact (hpushes.trans (flatten_set_nil_perm _ n)).trans ih

end Fold

/-- Elements are where they belong, or in a bucket from the `k`-th to the `n`-th. -/
def PlacedFrom (pos : α → Nat) (k n : Nat) (bs : List (List α)) : Prop :=
  ∀ i b, bs[i]? = some b → ∀ x ∈ b, pos x = i ∨ k ≤ i ∧ i < n

theorem PlacedFrom.push {k : Nat} (h : PlacedFrom pos k n bs) :
    PlacedFrom pos k n (push bs (pos x) x) := by
  intro i b hb y hy
  rw [Buckets.push, List.getElem?_modify] at hb
  obtain ⟨b', hb', rfl⟩ := Option.map_eq_some_iff.mp hb
  split at hy
  · next heq =>
      rcases List.mem_cons.mp hy with rfl | hy
      · exact .inl heq
      · exact h i b' hb' y hy
  · exact h i b' hb' y hy

/-- One step of a rehash: behind it the elements of bucket `k` are
where they belong, and those of the later ones are still to be moved. -/
theorem PlacedFrom.rehashBucket {k : Nat} (h : PlacedFrom pos k n bs) :
    PlacedFrom pos (k + 1) n (rehashBucket pos bs k) := by
  -- the bucket is empty now
  have hset : PlacedFrom pos (k + 1) n (bs.set k []) := by
    intro i b hb y hy
    rw [List.getElem?_set] at hb
    split at hb
    · split at hb
      · cases hb
        cases hy
      · cases hb
    · next hne =>
        rcases h i b hb y hy with heq | ⟨hle, hlt⟩
        · exact .inl heq
        · exact .inr ⟨Nat.lt_of_le_of_ne hle hne, hlt⟩
  -- and its elements go where they belong
  have hfold (chain : List α) : ∀ cs : List (List α), PlacedFrom pos (k + 1) n cs →
      PlacedFrom pos (k + 1) n (chain.foldl (fun bs x => Buckets.push bs (pos x) x) cs) := by
    induction chain with
    | nil => exact fun _ hcs => hcs
    | cons x chain ih => exact fun cs hcs => ih _ hcs.push
  exact hfold _ _ hset

/-- Behind a rehash of all buckets that have elements every element is
where it belongs, wherever it was before. -/
theorem placed_rehash (hrest : ∀ i b, n ≤ i → bs[i]? = some b → b = []) :
    Placed pos (rehash pos bs n) := by
  -- by induction on the buckets that were taken apart
  have hfrom (k : Nat) : PlacedFrom pos k n (rehash pos bs k) := by
    induction k with
    | zero =>
      intro i b hb x hx
      rcases Nat.lt_or_ge i n with hlt | hge
      · exact .inr ⟨Nat.zero_le _, hlt⟩
      · rw [hrest i b hge hb] at hx
        cases hx
    | succ k ih =>
      rw [rehash, List.range_succ, List.foldl_append]
      exact ih.rehashBucket
  intro i b hb x hx
  rcases hfrom n i b hb x hx with heq | ⟨hle, hlt⟩
  · exact heq
  · exact absurd hlt (Nat.not_lt_of_le hle)

end Lib.Buckets
