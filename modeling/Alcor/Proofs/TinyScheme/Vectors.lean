import Alcor.Proofs.TinyScheme.Objects

/-!
# `Alcor.Proofs.TinyScheme.Vectors`: cells in a row

A vector takes cells that are next to each other from the free list.
`find_consecutive_cells` goes from one run of such cells to the next. It
finds some whenever there are enough of them anywhere in the list,
because the list is in the order of the addresses.

* `countConsecutiveCells_spec`: how long a run is.
* `findConsecutiveCells_exact`: the answer is `nil` exactly when there
  are not enough free cells in a row.
* `mkVector_spec`: the vector that is made of them.
-/

set_option autoImplicit false

namespace Alcor.Proofs.TinyScheme

open Lib.Marking Alcor.TinyScheme Alcor.TinyScheme.Heap Alcor.TinyScheme.Scheme

variable {pre rest : List Nat} {pp : Option Nat}

section
variable {conf : Conf} {s s' : Scheme} {free : List Nat} {out : Set Nat} {as : List Nat}
  {h : Heap} {n x : Nat}

/-! ### The length of a run -/

/-- The loop counts up to the end of the run, or until it has seen enough. -/
theorem countFrom_spec {nil : Nat} (needed passes m : Nat) {l : List Nat}
    (hl : FreeFrom nil h x (x :: l)) (hnil : ∀ y ∈ x :: l, y + 1 ≠ nil) :
    ∃ k rest, countFrom h needed passes x m = m + k ∧ x :: l = List.range' x (k + 1) ++ rest ∧
      (passes ≤ k ∨ needed < m + k ∨ x + k + 1 ∉ rest.head?) := by
  induction passes generalizing x m l with
  | zero => exact ⟨0, l, rfl, rfl, .inl (Nat.le_refl 0)⟩
  | succ passes ih =>
    obtain ⟨-, hx, hrest⟩ := hl
    by_cases hcdr : cdr h x = x + 1
    · -- The next free cell is the one behind.
      cases l with
      | nil => exact absurd (hcdr.symm.trans hrest) (hnil x List.mem_cons_self)
      | cons y ys =>
        have hy : y = x + 1 := hrest.1.symm.trans hcdr
        by_cases henough : m + 1 > needed
        · refine ⟨1, ys, ?_, ?_, .inr (.inl henough)⟩
          · rw [countFrom, if_pos hcdr, if_pos henough]
          · rw [hy]
            rfl
        · subst hy
          obtain ⟨k, rest, hcount, hsplit, hend⟩ := ih (m := m + 1) (x := x + 1) (l := ys)
            ⟨rfl, hrest.2⟩ fun z hz => hnil z (List.mem_cons_of_mem _ hz)
          refine ⟨k + 1, rest, ?_, ?_, ?_⟩
          · rw [countFrom, if_pos hcdr, if_neg henough, hcount]
            omega
          · rw [hsplit, ← List.cons_append, ← List.range'_succ]
          · rcases hend with h | h | h
            · exact .inl (by omega)
            · exact .inr (.inl (by omega))
            · rw [show x + (k + 1) + 1 = x + 1 + k + 1 by omega]
              exact .inr (.inr h)
    · refine ⟨0, l, ?_, rfl, .inr (.inr fun hhead => ?_)⟩
      · rw [countFrom, if_neg hcdr, Nat.add_zero]
      · cases l with
        | nil => cases hhead
        | cons y ys =>
          have hy : y = x + 0 + 1 := by simpa using hhead
          exact hcdr (hrest.1.trans hy)

/-- `count_consecutive_cells`: the cells from `x` on, up to the end of the run or to more than what
is needed. -/
theorem countConsecutiveCells_spec {nil : Nat} (needed : Nat) {l : List Nat}
    (hl : FreeFrom nil h x (x :: l))
    (hnil : ∀ y ∈ x :: l, y + 1 ≠ nil) :
    ∃ rest, x :: l = List.range' x (countConsecutiveCells h x needed) ++ rest ∧
      0 < countConsecutiveCells h x needed ∧
      (needed ≤ countConsecutiveCells h x needed ∨
        x + countConsecutiveCells h x needed ∉ rest.head?) := by
  obtain ⟨k, rest, hcount, hsplit, hend⟩ :=
    countFrom_spec needed needed 1 hl hnil
  have hcnt : countConsecutiveCells h x needed = k + 1 := by
    rw [countConsecutiveCells, hcount, Nat.add_comm]
  rw [hcnt]
  refine ⟨rest, hsplit, Nat.succ_pos k, ?_⟩
  rcases hend with h | h | h
  · exact .inl (by omega)
  · exact .inl (by omega)
  · exact .inr h

/-! ### The search -/

/-- The `n` cells from `x` on. -/
def row (x n : Nat) : Set Nat := {y | x ≤ y ∧ y < x + n}

/-- The loop stands behind the free cells `pre`, at the link to the others. -/
def StandsBehind (pre : List Nat) (pp : Option Nat) : Prop :=
  (pre = [] ∧ pp = none) ∨ ∃ pre' q, pre = pre' ++ [q] ∧ pp = some q

/-- `n` cells were taken out of the free list at `pp`. -/
def unlinked (s : Scheme) (pp : Option Nat) (x n : Nat) : Scheme :=
  { setLink s pp (cdr s.heap (x + n - 1)) with fcells := s.fcells - n }

theorem StandsBehind.leads (hb : StandsBehind pre pp)
    (hchain : FreeFrom conf.nil s.heap s.freeCell (pre ++ rest)) :
    FreeFrom conf.nil s.heap (link s pp) rest := by
  rcases hb with ⟨rfl, rfl⟩ | ⟨pre', q, rfl, rfl⟩
  · exact hchain
  · obtain ⟨r, hpre, hrest⟩ := leads_append.mp hchain
    obtain ⟨r', -, hq⟩ := leads_append.mp hpre
    obtain ⟨-, -, hr⟩ := hq
    have hr' : cdr s.heap q = r := hr
    rw [link, hr']
    exact hrest

/-- The cells `x`, …, `x + n - 1` are taken out of the list. -/
theorem unlinked_spec (hs : Sound conf s free ∅) (hn : 0 < n) (hb : StandsBehind pre pp)
    (hfree : free = pre ++ (List.range' x n ++ rest)) :
    Relinked conf s (unlinked s pp x n) {y | y ∈ free} ∧
      Sound conf (unlinked s pp x n) (pre ++ rest) (row x n) := by
  have hasc := hs.ascending
  rw [hfree] at hasc
  obtain ⟨hpre, hback, hcross⟩ := List.pairwise_append.mp hasc
  obtain ⟨-, hrest, hcross'⟩ := List.pairwise_append.mp hback
  have hlast : x + n - 1 ∈ List.range' x n := List.mem_range'_1.mpr ⟨by omega, by omega⟩
  -- The link of the last one leads to `rest`.
  have hlink : FreeFrom conf.nil s.heap (cdr s.heap (x + n - 1)) rest := by
    have hchain := hs.chain
    rw [hfree] at hchain
    obtain ⟨q, -, hback⟩ := leads_append.mp hchain
    obtain ⟨r, hrow, hrest⟩ := leads_append.mp hback
    obtain ⟨m, rfl⟩ : ∃ m, n = m + 1 := ⟨n - 1, by omega⟩
    rw [List.range'_concat, Nat.one_mul] at hrow
    obtain ⟨q', -, -, -, hr⟩ := leads_append.mp hrow
    have hr' : cdr s.heap (x + m) = r := hr
    rw [show x + (m + 1) - 1 = x + m by omega, hr']
    exact hrest
  have hnext : cdr s.heap (x + n - 1) = conf.nil ∨ cdr s.heap (x + n - 1) ∈ free :=
    hs.chain.next (hfree ▸ List.mem_append_right _ (List.mem_append_left _ hlast))
  have hD : ∀ y, y ∈ free ↔ y ∈ pre ++ rest ∨ y ∈ row x n := by
    intro y
    rw [hfree]
    simp only [List.mem_append, List.mem_range'_1]
    show _ ↔ _ ∨ (x ≤ y ∧ y < x + n)
    tauto
  have hdis : ∀ y ∈ pre ++ rest, y ∉ row x n := by
    rintro y hy hin
    have hin' : y ∈ List.range' x n := List.mem_range'_1.mpr hin
    rcases List.mem_append.mp hy with h | h
    · exact absurd (hcross y h y (List.mem_append_left _ hin')) (Nat.lt_irrefl y)
    · exact absurd (hcross' y hin' y h) (Nat.lt_irrefl y)
  have hsorted : (pre ++ rest).Pairwise (· < ·) :=
    List.pairwise_append.mpr
      ⟨hpre, hrest, fun y hy z hz => hcross y hy z (List.mem_append_right _ hz)⟩
  have hcount : s.fcells - (n : Int) = ((pre ++ rest).length : Int) := by
    rw [hs.fcells, hfree]
    simp only [List.length_append, List.length_range']
    push_cast
    omega
  rcases hb with ⟨rfl, rfl⟩ | ⟨pre', q, rfl, rfl⟩
  · have hrel : Relinked conf s (unlinked s none x n) {y | y ∈ free} :=
      relinked_same hs rfl rfl rfl rfl
    exact ⟨hrel, hrel.sound hs hD hdis hlink hsorted hcount⟩
  · have hqpre : q ∈ pre' ++ [q] := List.mem_append_right _ (List.mem_singleton_self q)
    have hqfree : q ∈ free := hfree ▸ List.mem_append_left _ hqpre
    have hat : ∀ y, y ≠ q → (unlinked s (some q) x n).heap y = s.heap y :=
      fun y hy => Function.update_of_ne hy _ _
    have hq : (unlinked s (some q) x n).heap q = blankCell conf.nil (cdr s.heap (x + n - 1)) := by
      refine (Function.update_self _ _ _).trans ?_
      rw [(hs.free_cell hqfree).1]
      rfl
    have hsame : Relinked conf s s {y | y ∈ free} := relinked_same hs rfl rfl rfl rfl
    have hrel : Relinked conf s (unlinked s (some q) x n) {y | y ∈ free} := by
      refine ⟨⟨hs.layout.size, hs.layout.distinct, hs.layout.zero, hs.layout.positive,
        hs.layout.outside, hs.layout.apart, hs.layout.descending⟩, rfl, fun _ => id, hsame.new,
        hs.inside, fun y hy _ => hat y fun heq => hy (heq ▸ hqfree), ?_, ?_, hsame.free,
        hsame.unlinked, hsame.held, hsame.recent⟩
      · refine ⟨_, id, hat _ fun heq => ?_⟩
        exact hs.layout.ne_nil (hs.inside q hqfree) heq.symm
      · intro y hy
        by_cases hyq : y = q
        · subst hyq
          exact ⟨_, hq, hnext⟩
        · rw [hat y hyq]
          exact ⟨_, hs.free_cell hy⟩
    refine ⟨hrel, hrel.sound hs hD hdis ?_ hsorted hcount⟩
    have hchain := hs.chain
    rw [hfree, List.append_assoc] at hchain
    obtain ⟨r, hfront, rfl, hqnil, -⟩ := leads_append.mp hchain
    have hne : ∀ y ∈ pre', y ≠ r := fun y hy heq =>
      absurd ((List.pairwise_append.mp hpre).2.2 y hy r (List.mem_singleton_self r))
        (by rw [heq]; exact Nat.lt_irrefl r)
    have hne' : ∀ y ∈ rest, y ≠ r := fun y hy heq =>
      absurd (hcross r hqpre y (List.mem_append_right _ hy)) (by rw [heq]; exact Nat.lt_irrefl r)
    rw [List.append_assoc]
    refine leads_append.mpr ⟨r, ?_, rfl, hqnil, ?_⟩
    · refine Leads.congr hfront fun y hy => ?_
      rw [Heap.cdr, hat y (hne y hy)]
      rfl
    · show Leads _ _ (Cell.cdr ((unlinked s (some r) x n).heap r)) rest _
      rw [hq]
      refine Leads.congr hlink fun y hy => ?_
      rw [Heap.cdr, hat y (hne' y hy)]
      rfl

/-- There are `n` free cells in a row. -/
def HasRow (free : List Nat) (n : Nat) : Prop := ∃ y, ∀ i < n, y + i ∈ free

/-- A row of free cells does not begin in a run that is too short. -/
theorem not_in_run {cnt y : Nat} (hcnt : cnt < n)
    (hasc : (pre ++ (List.range' x cnt ++ rest)).Pairwise (· < ·)) (hend : x + cnt ∉ rest.head?)
    (hy : y ∈ List.range' x cnt) (hrow : ∀ i < n, y + i ∈ pre ++ (List.range' x cnt ++ rest)) :
    False := by
  obtain ⟨hxy, hyx⟩ := List.mem_range'_1.mp hy
  obtain ⟨-, hback, hcross⟩ := List.pairwise_append.mp hasc
  obtain ⟨-, hrest, hcross'⟩ := List.pairwise_append.mp hback
  -- The row goes beyond the run, so it has the cell behind the run.
  have hin := hrow (x + cnt - y) (by omega)
  rw [show y + (x + cnt - y) = x + cnt by omega] at hin
  rcases List.mem_append.mp hin with h | h
  · have := hcross _ h y (List.mem_append_left _ hy)
    omega
  · rcases List.mem_append.mp h with h | h
    · have := List.mem_range'_1.mp h
      omega
    · -- What comes after the run is not before that cell, so it begins with it.
      cases rest with
      | nil => exact absurd h List.not_mem_nil
      | cons z zs =>
        have hlast : x + cnt - 1 ∈ List.range' x cnt := List.mem_range'_1.mpr ⟨by omega, by omega⟩
        have hz := hcross' _ hlast z List.mem_cons_self
        have hle : z ≤ x + cnt := by
          rcases List.mem_cons.mp h with heq | h
          · exact Nat.le_of_eq heq.symm
          · exact Nat.le_of_lt ((List.pairwise_cons.mp hrest).1 _ h)
        refine hend ?_
        rw [show x + cnt = z by omega]
        rfl

/-- What `find_consecutive_cells` answers: that there are no `n` free cells in a row, or some that
are not free any more. -/
def Found (conf : Conf) (s : Scheme) (free : List Nat) (n : Nat) (r : Nat × Scheme) : Prop :=
  (r = (conf.nil, s) ∧ ¬ HasRow free n) ∨
  ∃ x s' free', r = (x, s') ∧ x ∈ free ∧ (∀ y, y ∈ row x n → y ∈ free) ∧ s'.noMemory = s.noMemory ∧
    Relinked conf s s' {y | y ∈ free} ∧ Sound conf s' free' (row x n)

/-- The search over the rest of the free list, in which a row of cells
must be if there is one. Induction on the passes. -/
theorem findFrom_spec (hs : Sound conf s free ∅) (hn : 0 < n) {passes : Nat}
    (hb : StandsBehind pre pp) (hfree : free = pre ++ rest)
    (hrow : ∀ y, (∀ i < n, y + i ∈ free) → y ∈ rest) (hp : rest.length < passes) :
    Found conf s free n (findFrom conf s n passes pp) := by
  induction passes generalizing pre rest pp with
  | zero => exact absurd hp (Nat.not_lt_zero _)
  | succ passes ih =>
    have hlead := hb.leads (hfree ▸ hs.chain)
    cases rest with
    | nil =>
      have hend : link s pp = conf.nil := hlead
      rw [findFrom, if_pos hend]
      exact .inl ⟨rfl, fun ⟨y, hy⟩ => List.not_mem_nil (hrow y hy)⟩
    | cons x l =>
      have hx : link s pp = x := hlead.1
      have hsub : ∀ y ∈ x :: l, y ∈ free := fun y hy => hfree ▸ List.mem_append_right _ hy
      have hnil : ∀ y ∈ x :: l, y + 1 ≠ conf.nil := by
        intro y hy heq
        obtain ⟨seg, hseg, h₁, h₂⟩ := mem_segmentCells.mp (hs.inside y (hsub y hy))
        rcases hs.layout.outside seg (List.mem_append_left _ hseg) _ (mem_specials_nil conf)
          with h | h
        · omega
        · omega
      rw [hx] at hlead
      obtain ⟨rest, hsplit, hpos, hend⟩ :=
        countConsecutiveCells_spec n hlead hnil
      rw [findFrom, hx, if_neg hlead.2.1]
      dsimp only
      generalize countConsecutiveCells s.heap x n = cnt at hsplit hpos hend ⊢
      by_cases henough : n ≤ cnt
      · rw [if_pos henough]
        have hparts : List.range' x cnt = List.range' x n ++ List.range' (x + n) (cnt - n) := by
          rw [List.range'_append_1, Nat.add_sub_cancel' henough]
        have hfree' : free = pre ++ (List.range' x n ++ (List.range' (x + n) (cnt - n) ++ rest)) := by
          rw [hfree, hsplit, hparts, List.append_assoc]
        obtain ⟨hrel, hsound⟩ := unlinked_spec hs hn hb hfree'
        refine .inr ⟨x, _, _, rfl, hsub x List.mem_cons_self, fun y hy => ?_, ?_, hrel, hsound⟩
        · rw [hfree']
          exact List.mem_append_right _ (List.mem_append_left _ (List.mem_range'_1.mpr hy))
        · cases pp <;> rfl
      · rw [if_neg henough]
        have hend' : x + cnt ∉ rest.head? := hend.resolve_left henough
        have hconcat : List.range' x cnt = List.range' x (cnt - 1) ++ [x + cnt - 1] := by
          obtain ⟨m, rfl⟩ : ∃ m, cnt = m + 1 := ⟨cnt - 1, by omega⟩
          rw [List.range'_concat, Nat.one_mul]
          rfl
        have hfree' : free = (pre ++ List.range' x cnt) ++ rest := by
          rw [hfree, hsplit, List.append_assoc]
        have hasc := hs.ascending
        rw [hfree, hsplit] at hasc
        have hbehind : StandsBehind (pre ++ List.range' x cnt) (some (x + cnt - 1)) :=
          .inr ⟨pre ++ List.range' x (cnt - 1), _, by rw [hconcat, List.append_assoc], rfl⟩
        refine ih hbehind hfree' (fun y hy => ?_) ?_
        · have hin := hrow y hy
          rw [hsplit] at hin
          refine (List.mem_append.mp hin).resolve_left fun h => ?_
          refine not_in_run (Nat.lt_of_not_le henough) hasc hend' h fun i hi => ?_
          rw [← hsplit, ← hfree]
          exact hy i hi
        · have hlen := congrArg List.length hsplit
          rw [List.length_append, List.length_range'] at hlen
          omega

/-- `find_consecutive_cells` finds `n` free cells in a row whenever there are such. -/
theorem findConsecutiveCells_spec (hs : Sound conf s free ∅) (hn : 0 < n) :
    Found conf s free n (findConsecutiveCells conf s n) := by
  refine findFrom_spec hs hn (.inl ⟨rfl, rfl⟩) rfl (fun y hy => hy 0 hn) ?_
  have := hs.free_length_le
  omega

/-- **Cells in a row**: `find_consecutive_cells` answers `nil` exactly
when there are no `n` free cells in a row, and changes nothing then.
Otherwise it takes such cells out of the free list, and no others. -/
theorem findConsecutiveCells_exact (hs : Sound conf s free ∅) (hn : 0 < n) :
    ((findConsecutiveCells conf s n).1 = conf.nil ↔ ¬ HasRow free n) ∧
      ((findConsecutiveCells conf s n).1 = conf.nil → (findConsecutiveCells conf s n).2 = s) ∧
      ((findConsecutiveCells conf s n).1 ≠ conf.nil →
        ∃ free', Sound conf (findConsecutiveCells conf s n).2 free'
            (row (findConsecutiveCells conf s n).1 n) ∧
          ∀ y, y ∈ free ↔ y ∈ free' ∨ y ∈ row (findConsecutiveCells conf s n).1 n) := by
  rcases findConsecutiveCells_spec hs hn with ⟨heq, hnone⟩ | ⟨x, s', free', heq, hx, hrow, -, hrel, hs'⟩
  · rw [heq]
    exact ⟨⟨fun _ => hnone, fun _ => rfl⟩, fun _ => rfl, fun h => absurd rfl h⟩
  · rw [heq]
    have hne : x ≠ conf.nil := hs.layout.ne_nil (hs.inside x hx)
    have hhas : HasRow free n := ⟨x, fun i hi => hrow _ ⟨by omega, by omega⟩⟩
    refine ⟨⟨fun h => absurd h hne, fun h => absurd hhas h⟩, fun h => absurd h hne,
      fun _ => ⟨free', hs', fun y => ?_⟩⟩
    constructor
    · intro hy
      have hseg := hrel.inside y hy
      exact (hs'.zero y hseg).mp ((hrel.flagZero hseg).mpr hy)
    · rintro (hy | hy)
      · have hseg := hs'.inside y hy
        exact (hrel.flagZero hseg).mp ((hs'.zero y hseg).mpr (.inl hy))
      · exact hrow y hy

/-- The hypotheses of `findConsecutiveCells_exact` hold of four free
cells, of which three in a row are asked for. -/
theorem findConsecutiveCells_exact_small :
    ((findConsecutiveCells small smallStorage 3).1 = 2 ↔ ¬ HasRow [10, 11, 12, 13] 3) ∧
      ((findConsecutiveCells small smallStorage 3).1 = 2 →
        (findConsecutiveCells small smallStorage 3).2 = smallStorage) ∧
      ((findConsecutiveCells small smallStorage 3).1 ≠ 2 →
        ∃ free', Sound small (findConsecutiveCells small smallStorage 3).2 free'
            (row (findConsecutiveCells small smallStorage 3).1 3) ∧
          ∀ y, y ∈ [10, 11, 12, 13] ↔
            y ∈ free' ∨ y ∈ row (findConsecutiveCells small smallStorage 3).1 3) :=
  findConsecutiveCells_exact smallStorage_sound (by decide)

/-! ### The vector -/

/-- The cells of a new vector: there is no memory, or they were not in use. -/
theorem getConsecutiveCells_spec (hs : Sound conf s free ∅) (hn : 0 < n)
    (hm : s.noMemory = false) :
    ∃ x s', getConsecutiveCells conf s n = some (x, s') ∧ (s'.noMemory = true ∨
      (∀ y ∈ row x n, y ∈ segmentCells conf s') ∧
        ∃ free', Carries conf (roots conf s conf.nil conf.nil) s s' free' (row x n)) := by
  have hnil : Root conf s conf.nil := hs.constant (mem_specials_nil conf) hs.ne_nil_sink
  have hroots := roots_root hs hnil hnil
  -- What was found is carried from any storage that carries the roots.
  have hfound : ∀ {s₁ x s' free₁}, Carries conf (roots conf s conf.nil conf.nil) s s₁ free₁ ∅ →
      (∃ free', x ∈ free₁ ∧ (∀ y, y ∈ row x n → y ∈ free₁) ∧ s'.noMemory = s₁.noMemory ∧
        Relinked conf s₁ s' {y | y ∈ free₁} ∧ Sound conf s' free' (row x n)) →
      x ≠ conf.nil ∧ (∀ y ∈ row x n, y ∈ segmentCells conf s') ∧
        ∃ free', Carries conf (roots conf s conf.nil conf.nil) s s' free' (row x n) := by
    rintro s₁ x s' free₁ hc ⟨free', hx, hrow, hmem, hrel, hsound⟩
    refine ⟨fun heq => hc.sound.layout.ne_nil (hc.sound.inside x hx) heq, fun y hy =>
      hrel.inside y (hrow y hy), free', hc.trans hs hroots (hrel.carries hc.sound hsound ?_ hmem)⟩
    exact fun a ha => ((hc.roots_of hroots) a ha).not_free hc.sound
  have hself : Carries conf (roots conf s conf.nil conf.nil) s s free ∅ :=
    ⟨hs, ⟨rfl, fun _ => id, fun _ _ _ _ => rfl, ⟨_, rfl⟩, fun _ _ _ => rfl⟩, fun _ _ => id, rfl, rfl⟩
  rw [getConsecutiveCells, hm, if_neg Bool.false_ne_true]
  rcases findConsecutiveCells_spec hs hn with ⟨hnone, -⟩ | ⟨x, s', free', hsome, h⟩
  · rw [hnone]
    dsimp only
    rw [if_neg fun h => h rfl]
    obtain ⟨s₁, free₁, hgc, hc₁⟩ := gc_carries hs hnil hnil
    rw [hgc, Option.map_some]
    rcases findConsecutiveCells_spec hc₁.sound hn with ⟨hnone₁, -⟩ | ⟨x, s', free', hsome, h⟩
    · rw [hnone₁]
      dsimp only
      rw [if_neg fun h => h rfl]
      rcases allocCellseg_cases conf s₁ with ⟨rest, -, halloc⟩ | ⟨p, rest, hmal, halloc⟩
      · rw [halloc]
        exact ⟨_, _, rfl, .inl rfl⟩
      · rw [halloc]
        dsimp only
        obtain ⟨-, free₂, hc₂⟩ := addSegment_carries hc₁.sound (hc₁.roots_of hroots) hmal
        rcases findConsecutiveCells_spec hc₂.sound hn with ⟨hnone₂, -⟩ | ⟨x, s', free', hsome, h⟩
        · rw [hnone₂]
          dsimp only
          rw [if_neg fun h => h rfl]
          exact ⟨_, _, rfl, .inl rfl⟩
        · obtain ⟨hne, hcells, hc⟩ := hfound (hc₁.trans hs hroots hc₂) ⟨free', h⟩
          rw [hsome]
          dsimp only
          rw [if_pos hne]
          exact ⟨x, s', rfl, .inr ⟨hcells, hc⟩⟩
    · obtain ⟨hne, hcells, hc⟩ := hfound hc₁ ⟨free', h⟩
      rw [hsome]
      dsimp only
      rw [if_pos hne]
      exact ⟨x, s', rfl, .inr ⟨hcells, hc⟩⟩
  · obtain ⟨hne, hcells, hc⟩ := hfound hself ⟨free', h⟩
    rw [hsome]
    dsimp only
    rw [if_pos hne]
    exact ⟨x, s', rfl, .inr ⟨hcells, hc⟩⟩

/-- The cell of a vector. -/
def vectorCell (len : Nat) : Cell := ⟨.tVector, false, false, true, false, .number len⟩

/-- A cell with two elements of a vector, both `obj`. -/
def elementCell (obj : Nat) : Cell := ⟨.tPair, false, true, false, false, .cons obj obj⟩

theorem slots_vectorCell {len : Nat} (hx : h x = vectorCell len) :
    slots h x = len / 2 + len % 2 := by
  have hdiv : (len : Int).tdiv 2 = ((len / 2 : Nat) : Int) := rfl
  have hmod : (len : Int).tmod 2 = ((len % 2 : Nat) : Int) := rfl
  rw [slots, hx, vectorCell, Cell.ivalue, hdiv, hmod]
  omega

/-- `fill_vector` fills the cells behind that of the vector. -/
theorem fillVector_eq (h : Heap) (x obj : Nat) :
    fillVector h x obj = fun p => if x < p ∧ p ≤ x + slots h x then elementCell obj else h p := by
  unfold fillVector
  generalize slots h x = m
  induction m with
  | zero =>
    funext p
    rw [if_neg (by omega)]
    rfl
  | succ m ih =>
    rw [List.range_succ, List.foldl_append, ih, List.foldl_cons, List.foldl_nil]
    funext p
    by_cases hp : p = x + 1 + m
    · subst hp
      rw [Function.update_self, if_pos ⟨by omega, by omega⟩]
      rfl
    · rw [Function.update_of_ne hp]
      by_cases hin : x < p ∧ p ≤ x + m
      · rw [if_pos hin, if_pos ⟨hin.1, by omega⟩]
      · rw [if_neg hin, if_neg fun h => hin ⟨h.1, by omega⟩]

/-- The heap with a new vector at `x`, all elements of which are `obj`. -/
def vectorHeap (h : Heap) (x len obj : Nat) : Heap := fun p =>
  if p = x then vectorCell len
  else if p ∈ List.range' (x + 1) (len / 2 + len % 2) then elementCell obj
  else h p

theorem vectorHeap_eq (h : Heap) (x len obj : Nat) :
    fillVector (Function.update h x (vectorCell len)) x obj = vectorHeap h x len obj := by
  rw [fillVector_eq, slots_vectorCell (Function.update_self _ _ _)]
  funext p
  unfold vectorHeap
  by_cases hp : p = x
  · subst hp
    rw [if_neg (by omega), if_pos rfl, Function.update_self]
  · rw [if_neg hp, Function.update_of_ne hp]
    by_cases hin : x < p ∧ p ≤ x + (len / 2 + len % 2)
    · rw [if_pos hin, if_pos (List.mem_range'_1.mpr ⟨by omega, by omega⟩)]
    · rw [if_neg hin, if_neg fun h => hin (by have := List.mem_range'_1.mp h; omega)]

section
variable {len obj : Nat}

theorem children_vectorHeap_self :
    children (vectorHeap h x len obj) x =
      (List.range (len / 2 + len % 2)).map (x + 1 + ·) := by
  have hx : vectorHeap h x len obj x = vectorCell len := if_pos rfl
  have hvec : Vector (vectorHeap h x len obj) x := by
    rw [Vector, hx]
    rfl
  rw [children_vector hvec, slots_vectorCell hx]

theorem vectorHeap_element {p : Nat} (hp : p ∈ row (x + 1) (len / 2 + len % 2)) :
    vectorHeap h x len obj p = elementCell obj := by
  have hp' : x + 1 ≤ p ∧ p < x + 1 + (len / 2 + len % 2) := hp
  rw [vectorHeap, if_neg (by omega), if_pos (List.mem_range'_1.mpr hp')]

/-- The row of cells that was taken is filled with a vector. -/
theorem rewritten_vector (hs : Sound conf s free (row x (len / 2 + len % 2 + 1)))
    (hrow : ∀ y ∈ row x (len / 2 + len % 2 + 1), y ∈ segmentCells conf s)
    (hobj : Root conf s obj) :
    Rewritten conf s free (row x (len / 2 + len % 2 + 1)) (row x (len / 2 + len % 2 + 1))
      (vectorHeap s.heap x len obj) := by
  have hcase : ∀ p ∈ row x (len / 2 + len % 2 + 1),
      p = x ∨ p ∈ row (x + 1) (len / 2 + len % 2) := by
    rintro p ⟨h₁, h₂⟩
    by_cases hp : p = x
    · exact .inl hp
    · exact .inr ⟨by omega, by omega⟩
  have hx : vectorHeap s.heap x len obj x = vectorCell len := if_pos rfl
  have hnvec : ∀ p ∈ row (x + 1) (len / 2 + len % 2), ¬ Vector (vectorHeap s.heap x len obj) p := by
    intro p hp
    rw [Vector, vectorHeap_element hp]
    intro h
    cases h
  have hvec : ∀ p ∈ row x (len / 2 + len % 2 + 1), Vector (vectorHeap s.heap x len obj) p →
      p = x := fun p hp hv => (hcase p hp).resolve_right fun h => hnvec p h hv
  have hlinks : ∀ p ∈ row (x + 1) (len / 2 + len % 2), ∀ q ∈ children (vectorHeap s.heap x len obj) p,
      q = obj := by
    intro p hp q hq
    rw [children, vectorHeap_element hp] at hq
    have hq' : q ∈ [obj, obj] := (List.mem_filter.mp hq).1
    simpa using hq'
  have hchild : ∀ q ∈ children (vectorHeap s.heap x len obj) x,
      q ∈ row (x + 1) (len / 2 + len % 2) := by
    intro q hq
    rw [children_vectorHeap_self, List.mem_map] at hq
    obtain ⟨i, hi, rfl⟩ := hq
    have := List.mem_range.mp hi
    exact ⟨by omega, by omega⟩
  have hsub : ∀ q ∈ row (x + 1) (len / 2 + len % 2), q ∈ row x (len / 2 + len % 2 + 1) := by
    rintro q ⟨h₁, h₂⟩
    exact ⟨by omega, by omega⟩
  have hobj' : obj ∉ row x (len / 2 + len % 2 + 1) := by
    intro hin
    have hzero := (hs.zero obj (hrow obj hin)).mpr (.inr hin)
    rw [hobj.used] at hzero
    cases hzero
  refine ⟨?_, hrow, fun _ => id, fun p hp hfree => hs.disjoint p hfree hp,
    fun p hp => hs.out_not_vector hp (hrow p hp), ?_, ?_, ?_, ?_, ?_, fun _ hp _ => hp, ?_, ?_⟩
  · intro p hp
    rw [vectorHeap, if_neg fun h => hp ⟨by omega, by omega⟩, if_neg fun h => hp ?_]
    have := List.mem_range'_1.mp h
    exact ⟨by omega, by omega⟩
  · intro p hp
    rcases hcase p hp with rfl | h
    · rw [hx]
      exact ⟨fun _ => rfl, fun h => (by cases h)⟩
    · rw [vectorHeap_element h]
      exact ⟨fun h => (by cases h), fun _ => ⟨_, _, rfl⟩⟩
  · intro p hp
    rcases hcase p hp with rfl | h
    · rw [hx]
      rfl
    · rw [vectorHeap_element h]
      rfl
  · intro p hp
    rcases hcase p hp with rfl | h
    · rw [hx]
      rfl
    · rw [vectorHeap_element h]
      rfl
  · intro p hp hatom
    rcases hcase p hp with rfl | h
    · rw [isAtom, hx] at hatom
      cases hatom
    · rw [Heap.car, Heap.cdr, vectorHeap_element h]
      exact ⟨hobj.ne_zero hs, hobj.ne_zero hs⟩
  · intro p hp hv q hq
    rcases hcase p hp with rfl | h
    · exact absurd (by rw [Vector, hx]; rfl) hv
    · rw [hlinks p h q hq]
      exact hobj
  · intro p hp hv q hq
    obtain rfl := hvec p hp hv
    exact ⟨hsub q (hchild q hq), hnvec q (hchild q hq)⟩
  · intro p hp hv q hq p' hp' hq'
    obtain rfl := hvec p hp hv
    rcases hcase p' hp' with heq | h
    · exact heq
    · rw [hlinks p' h q hq'] at hq
      exact absurd (hsub obj (hchild obj hq)) hobj'

/-- A new vector: there is no memory, or it is there and nothing else has changed. -/
theorem mkVector_spec (hs : Sound conf s free ∅) (hm : s.noMemory = false) (len : Nat) :
    ∃ x s', mkVector conf s len = some (x, s') ∧ (s'.noMemory = true ∨
      Allocated conf (roots conf s conf.nil conf.nil) x (vectorCell len) s s' ∧
      ∀ p ∈ row (x + 1) (len / 2 + len % 2), s'.heap p = elementCell conf.nil ∧
        p ∈ segmentCells conf s' ∧
        ¬ Reaches (follow conf.sink s.heap) (roots conf s conf.nil conf.nil) p) := by
  have hnil : Root conf s conf.nil := hs.constant (mem_specials_nil conf) hs.ne_nil_sink
  have hroots := roots_root hs hnil hnil
  obtain ⟨x, s₁, hget, hcase⟩ :=
    getConsecutiveCells_spec (n := len / 2 + len % 2 + 1) hs (Nat.succ_pos _) hm
  rw [mkVector, getVectorObject, hget, Option.bind_some]
  dsimp only
  by_cases hno : s₁.noMemory = true
  · rw [if_pos hno]
    exact ⟨_, _, rfl, .inl hno⟩
  · obtain ⟨hrow, free₁, hc⟩ := hcase.resolve_left hno
    rw [if_neg hno]
    have hw := rewritten_vector hc.sound hrow (hc.roots_of hroots conf.nil (by simp [roots]))
    have hc₂ := hc.rewrite hs hroots hw
    have hxrow : x ∈ row x (len / 2 + len % 2 + 1) := ⟨Nat.le_refl x, by omega⟩
    have hxcell : vectorHeap s₁.heap x len conf.nil x = vectorCell len := if_pos rfl
    have hxroot : Root conf { s₁ with heap := vectorHeap s₁.heap x len conf.nil } x := by
      refine hw.root_new hc.sound hxrow fun v hv hvec hin => ?_
      exact (hw.elements v hv hvec x hin).2 (by rw [Vector, hxcell]; rfl)
    have hheap := vectorHeap_eq s₁.heap x len conf.nil
    unfold vectorCell at hheap
    rw [hheap]
    have hnil₂ := hc₂.sound.constant (mem_specials_nil conf) hs.ne_nil_sink
    obtain ⟨s', hpush, hcase'⟩ := pushRecentAlloc_spec hc₂.sound hxroot hnil₂ (hc₂.noMemory.trans hm)
    rw [hpush]
    refine ⟨x, s', rfl, hcase'.imp_right fun hp => ?_⟩
    have hbs := roots_root hc₂.sound hxroot hnil₂
    have hxr : Reaches (follow conf.sink (vectorHeap s₁.heap x len conf.nil))
        (roots conf { s₁ with heap := vectorHeap s₁.heap x len conf.nil } x conf.nil) x :=
      .of_mem (by simp [roots])
    refine ⟨hp.allocated hs hroots hc₂ (hrow x hxrow) hxcell (hc.fresh hs hroots hxrow (hrow x hxrow))
      (by simp [roots]) hbs fun q hq => ?_, fun p hp' => ?_⟩
    · rcases mem_roots_later hc₂ hq with rfl | rfl | h
      · exact .of_mem (by simp [roots])
      · exact .of_mem (by simp [roots])
      · exact .of_mem h
    · -- The elements are reached through the vector, which is in the list of recent objects.
      have hprow : p ∈ row x (len / 2 + len % 2 + 1) := by
        obtain ⟨h₁, h₂⟩ := hp'
        exact ⟨by omega, by omega⟩
      have hin : p ∈ follow conf.sink (vectorHeap s₁.heap x len conf.nil) x := by
        obtain ⟨h₁, h₂⟩ := hp'
        rw [follow_of_ne hxroot.ne_sink, children_vectorHeap_self]
        exact List.mem_map.mpr ⟨p - (x + 1), List.mem_range.mpr (by omega), by omega⟩
      refine ⟨?_, hp.kept.grows p (hrow p hprow), hc.fresh hs hroots hprow (hrow p hprow)⟩
      rw [hp.kept.reached p (hrow p hprow) (hxr.tail hin)]
      exact vectorHeap_element hp'

end

end

end Alcor.Proofs.TinyScheme
