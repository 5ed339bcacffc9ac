import Mathlib.Data.List.Nodup
import Mathlib.Data.List.Chain
import Mathlib.Logic.Function.Basic
import Mathlib.Logic.Relation
import Alcor.Lib.Run

/-!
# `Alcor.Lib.Chain`: linked structures

Chains of links, and lists that are linked in both directions. A link is
a function on the nodes, so a structure in memory is read off its state
before anything is said about it.

* `Chain next l`: the nodes of `l` follow each other by `next`, and the
  last one has no link. `Chain.unique`, `Chain.nodup` and
  `Chain.next_inj` say how little room there is for such a list,
  `Chain.replace` puts one node in the place of another.
* `Chain.mem_iff_reaches` joins a chain to the reachability of
  `Alcor.Lib.Marking`, and `exists_chain_of_rank` makes chains from ranks
  that go down along the links.
* `Linked next prev p xs n`: a part of a list that is linked both ways,
  with what stands before and behind it. `Linked.remove` and
  `Linked.insert` are the four assignments of such lists.
* `walk_next` and `walk_prev`: a walk along the links stops at the first
  node that fails a test.
-/

set_option autoImplicit false

/-!
## Chains of links

Elements with a link to at most one other, and the lists of elements
that follow each other. A chain comes to an end, so it has no
repetitions (`Chain.nodup`), and it is the only one from its first
element (`Chain.unique`).
-/

namespace Lib

variable {α : Type} {next next' : α → Option α}
variable {l : List α} {x y : α}

/-- Each element is linked to the one that comes next, the last one to none. -/
def Chain (next : α → Option α) : List α → Prop
  | []      => True
  | x :: xs => next x = xs.head? ∧ Chain next xs

theorem Chain.congr (h : Chain next l) (heq : ∀ x ∈ l, next' x = next x) : Chain next' l := by
  induction l with
  | nil => trivial
  | cons x l ih =>
    exact ⟨(heq x List.mem_cons_self).trans h.1,
      ih h.2 fun y hy => heq y (List.mem_cons_of_mem _ hy)⟩

theorem Chain.suffix {a b : List α} (h : Chain next (a ++ b)) : Chain next b := by
  induction a with
  | nil => exact h
  | cons x a ih => exact ih h.2

/-- A node has one chain: two lists that start at it and follow the
links to the end are the same. -/
theorem Chain.unique :
    ∀ {l' : List α}, Chain next l → Chain next l' → l.head? = l'.head? → l = l' := by
  induction l with
  | nil =>
    intro l' _ _ hhead
    cases l' with
    | nil => rfl
    | cons x l' => cases hhead
  | cons x l ih =>
    intro l' h h' hhead
    cases l' with
    | nil => cases hhead
    | cons y l' =>
      obtain rfl : x = y := Option.some.inj hhead
      rw [ih h.2 h'.2 (h.1.symm.trans h'.1)]

/-- A chain comes to an end, so no node is in it twice. -/
theorem Chain.nodup (h : Chain next l) : l.Nodup := by
  induction l with
  | nil => exact List.nodup_nil
  | cons x l ih =>
    refine List.nodup_cons.mpr ⟨fun hx => ?_, ih h.2⟩
    obtain ⟨a, b, rfl⟩ := List.append_of_mem hx
    have heq := Chain.unique h (Chain.suffix h.2) rfl
    have hlen := congrArg List.length (List.cons.inj heq).2
    simp only [List.length_append, List.length_cons] at hlen
    omega

/-- In a chain no node is linked to itself. -/
theorem Chain.next_ne (h : Chain next l) (hx : x ∈ l) : next x ≠ some x := by
  induction l with
  | nil => cases hx
  | cons y l ih =>
    rcases List.mem_cons.mp hx with rfl | hx
    · rw [h.1]
      intro hhead
      exact (List.nodup_cons.mp h.nodup).1 (List.mem_of_head? hhead)
    · exact ih h.2 hx

theorem Chain.next_mem (h : Chain next l) (hy : y ∈ l) (hnext : next y = some x) : x ∈ l.tail := by
  induction l with
  | nil => cases hy
  | cons z l ih =>
    rcases List.mem_cons.mp hy with rfl | hy
    · exact List.mem_of_head? (h.1.symm.trans hnext)
    · exact List.mem_of_mem_tail (ih h.2 hy)

/-- No two nodes of a chain are linked to the same one. -/
theorem Chain.next_inj (h : Chain next l) {y' : α} (hy : y ∈ l) (hy' : y' ∈ l)
    (hnext : next y = some x) (hnext' : next y' = some x) : y = y' := by
  induction l with
  | nil => cases hy
  | cons z l ih =>
    obtain ⟨hz, hl⟩ := h
    -- the first node is linked to the second, to which no later one is
    have hlater : ∀ w ∈ l, next z = some x → next w = some x → False := by
      intro w hw hzx hwx
      have hhead : l.head? = some x := hz.symm.trans hzx
      have hmem := hl.next_mem hw hwx
      cases l with
      | nil => cases hw
      | cons v l =>
        cases Option.some.inj hhead
        exact (List.nodup_cons.mp hl.nodup).1 hmem
    rcases List.mem_cons.mp hy with heq | hy
    · rcases List.mem_cons.mp hy' with heq' | hy'
      · exact heq.trans heq'.symm
      · exact (hlater y' hy' (heq ▸ hnext) hnext').elim
    · rcases List.mem_cons.mp hy' with heq' | hy'
      · exact (hlater y hy (heq' ▸ hnext') hnext).elim
      · exact ih hl hy hy'

/-- What a chain has is what can be reached from its first node along
the links. -/
theorem Chain.mem_iff_reaches {m : α} (h : Chain next (m :: l)) :
    x ∈ m :: l ↔ Relation.ReflTransGen (fun a b => next a = some b) m x := by
  constructor
  · induction l generalizing m with
    | nil =>
      intro hx
      rw [List.mem_singleton.mp hx]
    | cons y l ih =>
      intro hx
      rcases List.mem_cons.mp hx with rfl | hx
      · exact .refl
      · exact .head h.1 (ih h.2 hx)
  · intro hreach
    induction hreach with
    | refl => exact List.mem_cons_self
    | tail _ hlink ih => exact List.mem_of_mem_tail (h.next_mem ih hlink)

/-- Where every chain comes to an end there are ranks that go down
along the links: the number of nodes that follow. -/
theorem exists_rank_of_ends (h : ∀ m, ∃ l, Chain next (m :: l)) :
    ∃ rank : α → Nat, ∀ x y, next x = some y → rank y < rank x := by
  choose rest hrest using h
  refine ⟨fun x => (rest x).length, fun x y hxy => ?_⟩
  have hhead : (rest x).head? = some y := (hrest x).1.symm.trans hxy
  -- the chain of `y` is the rest of that of `x`
  have heq := Chain.unique (hrest y) (hrest x).2 hhead.symm
  show (rest y).length < (rest x).length
  rw [← heq]
  exact Nat.lt_succ_self _

/-- Where ranks go down along the links every node has a chain, as a
walk along the links comes to an end. -/
theorem exists_chain_of_rank (rank : α → Nat) (h : ∀ x y, next x = some y → rank y < rank x)
    (m : α) : ∃ l, Chain next (m :: l) := by
  induction hrank : rank m using Nat.strong_induction_on generalizing m with
  | _ r ih =>
    cases hm : next m with
    | none => exact ⟨[], hm, trivial⟩
    | some y =>
      obtain ⟨l, hl⟩ := ih (rank y) (hrank ▸ h m y hm) y rfl
      exact ⟨y :: l, hm, hl⟩

/-- A node takes the place of another in a chain: it gets the link of
that node, and what was linked to that node is linked to it. -/
theorem Chain.replace [DecidableEq α] {i : α} (h : Chain next l) (hnext : next' i = next x)
    (heq : ∀ y ∈ l, y ≠ x → next' y = if next y = some x then some i else next y) :
    Chain next' (l.map fun y => if y = x then i else y) := by
  induction l with
  | nil => trivial
  | cons y l ih =>
    have hnodup := h.nodup
    obtain ⟨hy, hl⟩ := h
    obtain ⟨hnotin, -⟩ := List.nodup_cons.mp hnodup
    refine ⟨?_, ih hl fun z hz => heq z (List.mem_cons_of_mem _ hz)⟩
    show next' (if y = x then i else y) = (l.map _).head?
    rw [List.head?_map]
    by_cases hyx : y = x
    · subst hyx
      rw [if_pos rfl, hnext, hy]
      cases l with
      | nil => rfl
      | cons z l =>
        have hz : z ≠ y := fun h => hnotin (h ▸ List.mem_cons_self)
        simp [hz]
    · rw [if_neg hyx, heq y List.mem_cons_self hyx, hy]
      cases l with
      | nil => simp
      | cons z l =>
        by_cases hz : z = x
        · simp [hz]
        · simp [hz]

theorem mem_replace [DecidableEq α] {i : α} :
    y ∈ (l.map fun y => if y = x then i else y) ↔ (y ∈ l ∧ y ≠ x) ∨ (y = i ∧ x ∈ l) := by
  rw [List.mem_map]
  constructor
  · rintro ⟨z, hz, rfl⟩
    by_cases hzx : z = x
    · subst hzx
      exact .inr ⟨if_pos rfl, hz⟩
    · rw [if_neg hzx]
      exact .inl ⟨hz, hzx⟩
  · rintro (⟨hy, hne⟩ | ⟨rfl, hx⟩)
    · exact ⟨y, hy, if_neg hne⟩
    · exact ⟨x, hx, if_pos rfl⟩

end Lib

/-!
## Doubly linked lists

The nodes of a list are addresses, and `next` and `prev` are what
stands in them. `Linked next prev p xs n` says that `xs` are linked in
both directions, with `p` before them and `n` behind them.

Nodes are removed by linking their neighbours (`Linked.remove`), and a
node is inserted by four links (`Linked.insert`). Both need that an
address occurs only once. `walk` follows links as long as a test holds
(`walk_next`, `walk_prev`).
-/

namespace Lib

variable {α : Type}

/-- The nodes `xs` are linked, between `p` and `n`. -/
def Linked (next prev : α → α) (p : α) : List α → α → Prop
  | [],      _ => True
  | x :: xs, n => next x = xs.headD n ∧ prev x = p ∧ Linked next prev x xs n

/-- Follow links from `x` as long as the test holds. -/
def walk (test : α → Bool) (step : α → α) : Nat → α → Option α :=
  Loop.run fun x => if test x then .inr (step x) else .inl x

section Rules
variable {next prev next' prev' : α → α} {p n x y t : α} {xs ys pre mid post : List α}

/-- Two linked lists, one behind the other: the link between them
joins the last node of the first and the first of the second. -/
theorem linked_append :
    Linked next prev p (xs ++ ys) n ↔
      Linked next prev p xs (ys.headD n) ∧ Linked next prev (xs.getLastD p) ys n := by
  induction xs generalizing p with
  | nil => simp [Linked]
  | cons x xs ih =>
    have hhead : (xs ++ ys).headD n = xs.headD (ys.headD n) := by cases xs <;> rfl
    simp only [List.cons_append, Linked, ih, hhead, List.getLastD_cons]
    constructor
    · rintro ⟨h1, h2, h3, h4⟩
      exact ⟨⟨h1, h2, h3⟩, h4⟩
    · rintro ⟨⟨h1, h2, h3⟩, h4⟩
      exact ⟨h1, h2, h3, h4⟩

/-- Only the links of the nodes matter to a linked list. -/
theorem Linked.congr (h : Linked next prev p xs n)
    (heq : ∀ x ∈ xs, next' x = next x ∧ prev' x = prev x) : Linked next' prev' p xs n := by
  induction xs generalizing p with
  | nil => trivial
  | cons x xs ih =>
    obtain ⟨h1, h2, h3⟩ := h
    obtain ⟨hn, hp⟩ := heq x List.mem_cons_self
    exact ⟨hn.trans h1, hp.trans h2, ih h3 fun y hy => heq y (List.mem_cons_of_mem _ hy)⟩

/-- The link behind the last node. -/
theorem Linked.next_eq (h : Linked next prev p (xs ++ x :: ys) n) : next x = ys.headD n :=
  (linked_append.mp h).2.1

theorem Linked.prev_eq (h : Linked next prev p (xs ++ x :: ys) n) : prev x = xs.getLastD p :=
  (linked_append.mp h).2.2.1

/-- The last node of a list gets another link forward, and the nodes
before it keep theirs. -/
theorem Linked.relink (h : Linked next prev p (xs ++ [x]) n) (hnext : next' x = y)
    (hprev : prev' x = prev x) (heq : ∀ z ∈ xs, next' z = next z ∧ prev' z = prev z) :
    Linked next' prev' p (xs ++ [x]) y := by
  rw [linked_append] at h ⊢
  exact ⟨h.1.congr heq, hnext, hprev.trans h.2.2.1, trivial⟩

/-- The first node of a list gets another link back, and the nodes
behind it keep theirs. -/
theorem Linked.relink_head (h : Linked next prev p (y :: ys) n) (hprev : prev' y = x)
    (hnext : next' y = next y) (heq : ∀ z ∈ ys, next' z = next z ∧ prev' z = prev z) :
    Linked next' prev' x (y :: ys) n :=
  ⟨hnext.trans h.1, hprev, h.2.2.congr heq⟩

/-- The nodes between two others are removed when these two are linked
to each other. -/
theorem Linked.remove (h : Linked next prev p (pre ++ x :: mid ++ y :: post) n)
    (hnext : next' x = y) (hprev : prev' y = x)
    (hnexts : ∀ z ∈ pre ++ y :: post, next' z = next z)
    (hprevs : ∀ z ∈ pre ++ x :: post, prev' z = prev z) :
    Linked next' prev' p (pre ++ x :: y :: post) n := by
  have hsplit : pre ++ x :: mid ++ y :: post = (pre ++ [x]) ++ (mid ++ y :: post) := by simp
  rw [hsplit, linked_append] at h
  obtain ⟨hfront, hback⟩ := h
  have hback := (linked_append.mp hback).2
  rw [show pre ++ x :: y :: post = (pre ++ [x]) ++ y :: post by simp, linked_append]
  constructor
  · refine hfront.relink hnext (hprevs x (by simp)) fun z hz => ?_
    exact ⟨hnexts z (by simp [hz]), hprevs z (by simp [hz])⟩
  · rw [List.getLastD_concat]
    refine hback.relink_head hprev (hnexts y (by simp)) fun z hz => ?_
    exact ⟨hnexts z (by simp [hz]), hprevs z (by simp [hz])⟩

/-- A node is inserted by four links: two of its own, and one of each
neighbour. -/
theorem Linked.insert (h : Linked next prev p (pre ++ x :: y :: post) n)
    (hxt : next' x = t) (hty : next' t = y) (htx : prev' t = x) (hyt : prev' y = t)
    (hnexts : ∀ z ∈ pre ++ y :: post, next' z = next z)
    (hprevs : ∀ z ∈ pre ++ x :: post, prev' z = prev z) :
    Linked next' prev' p (pre ++ x :: t :: y :: post) n := by
  rw [show pre ++ x :: y :: post = (pre ++ [x]) ++ y :: post by simp, linked_append] at h
  obtain ⟨hfront, hback⟩ := h
  rw [show pre ++ x :: t :: y :: post = (pre ++ [x]) ++ t :: y :: post by simp, linked_append]
  constructor
  · refine hfront.relink hxt (hprevs x (by simp)) fun z hz => ?_
    exact ⟨hnexts z (by simp [hz]), hprevs z (by simp [hz])⟩
  · rw [List.getLastD_concat]
    refine ⟨hty, htx, hback.relink_head hyt (hnexts y (by simp)) fun z hz => ?_⟩
    exact ⟨hnexts z (by simp [hz]), hprevs z (by simp [hz])⟩

/-! ### Walks -/

variable {test : α → Bool} {k : Nat}

/-- A walk forward goes to the first node where the test fails. -/
theorem walk_next (h : Linked next prev p (xs ++ y :: ys) n) (hxs : ∀ z ∈ xs, test z = true)
    (hy : test y = false) (hk : xs.length < k) :
    walk test next k ((xs ++ y :: ys).headD n) = some y := by
  induction xs generalizing p k with
  | nil =>
    obtain ⟨k, rfl⟩ := Nat.exists_eq_succ_of_ne_zero (Nat.ne_of_gt hk)
    exact Loop.run_succ_of_inl (by simp [hy]) k
  | cons x xs ih =>
    obtain ⟨k, rfl⟩ := Nat.exists_eq_succ_of_ne_zero (Nat.ne_of_gt (Nat.lt_of_le_of_lt
      (Nat.zero_le _) hk))
    obtain ⟨hnext, -, hrest⟩ := h
    have hstep : walk test next (k + 1) x = walk test next k (next x) :=
      Loop.run_succ_of_inr (by simp [hxs x List.mem_cons_self]) k
    rw [List.cons_append, List.headD_cons, hstep, hnext]
    exact ih hrest (fun z hz => hxs z (List.mem_cons_of_mem _ hz))
      (Nat.lt_of_succ_lt_succ hk)

/-- A walk back goes to the last node before where the test fails. -/
theorem walk_prev (h : Linked next prev p (pre ++ y :: xs) n) (hxs : ∀ z ∈ xs, test z = true)
    (hy : test y = false) (hk : xs.length < k) :
    walk test prev k ((y :: xs).getLastD p) = some y := by
  induction xs using List.reverseRecOn generalizing n k with
  | nil =>
    obtain ⟨k, rfl⟩ := Nat.exists_eq_succ_of_ne_zero (Nat.ne_of_gt hk)
    exact Loop.run_succ_of_inl (by simp [hy]) k
  | append_singleton xs x ih =>
    obtain ⟨k, rfl⟩ := Nat.exists_eq_succ_of_ne_zero (Nat.ne_of_gt (Nat.lt_of_le_of_lt
      (Nat.zero_le _) hk))
    rw [show pre ++ y :: (xs ++ [x]) = (pre ++ y :: xs) ++ [x] by simp] at h
    have hprev := h.prev_eq
    have hstep : walk test prev (k + 1) x = walk test prev k (prev x) :=
      Loop.run_succ_of_inr (by simp [hxs x (by simp)]) k
    have hlast : (pre ++ y :: xs).getLastD p = (y :: xs).getLastD p := by
      rw [List.getLastD_eq_getLast?, List.getLastD_eq_getLast?, List.getLast?_append_cons]
    rw [show y :: (xs ++ [x]) = (y :: xs) ++ [x] by simp, List.getLastD_concat, hstep, hprev,
      hlast]
    refine ih (linked_append.mp h).1 (fun z hz => hxs z (by simp [hz])) ?_
    rw [List.length_append, List.length_singleton] at hk
    omega

end Rules

/-! ### Where a test fails -/

/-- The first place in a list where a test fails. -/
theorem exists_first_fail {test : α → Bool} {xs : List α} (h : ∃ x ∈ xs, test x = false) :
    ∃ fs y post, xs = fs ++ y :: post ∧ test y = false ∧ ∀ f ∈ fs, test f = true := by
  induction xs with
  | nil =>
    obtain ⟨x, hx, -⟩ := h
    exact absurd hx List.not_mem_nil
  | cons x xs ih =>
    cases hx : test x with
    | false => exact ⟨[], x, xs, rfl, hx, fun f hf => absurd hf List.not_mem_nil⟩
    | true =>
      have hrest : ∃ y ∈ xs, test y = false := by
        obtain ⟨y, hy, hfail⟩ := h
        rcases List.mem_cons.mp hy with rfl | hy
        · rw [hx] at hfail
          cases hfail
        · exact ⟨y, hy, hfail⟩
      obtain ⟨fs, y, post, rfl, hy, hfs⟩ := ih hrest
      exact ⟨x :: fs, y, post, rfl, hy, List.forall_mem_cons.mpr ⟨hx, hfs⟩⟩

/-- The last place in a list where a test fails. -/
theorem exists_last_fail {test : α → Bool} {xs : List α} (h : ∃ x ∈ xs, test x = false) :
    ∃ pre z fs, xs = pre ++ z :: fs ∧ test z = false ∧ ∀ f ∈ fs, test f = true := by
  have hreverse : ∃ x ∈ xs.reverse, test x = false := by
    obtain ⟨x, hx, hfail⟩ := h
    exact ⟨x, List.mem_reverse.mpr hx, hfail⟩
  obtain ⟨fs, z, pre, hxs, hz, hfs⟩ := exists_first_fail hreverse
  refine ⟨pre.reverse, z, fs.reverse, ?_, hz, fun f hf => hfs f (List.mem_reverse.mp hf)⟩
  rw [← List.reverse_reverse xs, hxs]
  simp

end Lib
