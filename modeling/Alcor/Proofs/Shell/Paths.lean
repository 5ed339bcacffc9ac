import Alcor.Shell.Tree
import Mathlib.Algebra.Order.BigOperators.Group.List

/-!
# `Alcor.Proofs.Shell.Paths`: paths that are joined and taken apart

A path is in normal form if it begins with a slash and does not end in
one. For such paths `cmn_fs_path_join` is concatenation, and `Under` is
the order of directories.

* `joined_two`, `joined_three`: what `cmn_fs_path_join` gives.
* `lastName_child`, `parent_child`, `child_parent`: a path is its last
  name in the rest.
* `name_eq_of_under`: no path is under two names of one directory.
-/

set_option autoImplicit false

namespace Alcor.Proofs.Shell

open Alcor.Shell

variable {path a b : Path}

/-- The path begins with a slash and does not end in one. -/
def Normal (path : Path) : Prop := path.head? = some SLASH ∧ path.getLast? ≠ some SLASH

/-- The path of a name in a directory. -/
def child (path name : Path) : Path := path ++ SLASH :: name

/-- A path is that of a directory, or of something in it at any depth. -/
def Under (dir path : Path) : Prop := dir ++ [SLASH] <+: path ++ [SLASH]

theorem Normal.ne_nil (h : Normal path) : path ≠ [] := by
  rintro rfl
  exact absurd h.1 nofun

theorem Normal.cons_tail (h : Normal path) : SLASH :: path.drop 1 = path := by
  obtain ⟨hhead, -⟩ := h
  cases path with
  | nil => cases hhead
  | cons c path =>
    cases Option.some.inj hhead
    rfl

theorem Normal.append (ha : Normal a) (hb : Normal b) : Normal (a ++ b) := by
  constructor
  · rw [List.head?_append, ha.1]
    rfl
  · rw [List.getLast?_append_of_ne_nil _ hb.ne_nil]
    exact hb.2

theorem getLast?_name (name : Name) : name.path.getLast? ≠ some SLASH :=
  fun h => name.no_slash (List.mem_of_getLast? h)

theorem head?_name (name : Name) : name.path.head? ≠ some SLASH :=
  fun h => name.no_slash (List.mem_of_head? h)

theorem normal_slash_name (name : Name) : Normal (SLASH :: name.path) :=
  ⟨rfl, by rw [List.getLast?_cons_of_ne_nil name.ne_nil]; exact getLast?_name name⟩

theorem Normal.child (h : Normal path) (name : Name) :
    Normal (child path name.path) := h.append (normal_slash_name name)

/-! ### `cmn_fs_path_join` -/

/-- A pass of the loop of `cmn_fs_path_join`. -/
def joinStep (res p : Path) : Path :=
  if p = [] then res
  else
    let res := res ++ (if p.head? = some SLASH then p.drop 1 else p)
    if res.getLast? = some SLASH then res else res ++ [SLASH]

theorem joined_eq (parts : List Path) :
    joined parts = (parts.foldl joinStep [SLASH]).dropLast := rfl

theorem joinStep_normal (res : Path) {p : Path} (h : Normal p) :
    joinStep (res ++ [SLASH]) p = (res ++ p) ++ [SLASH] := by
  have hres : res ++ [SLASH] ++ p.drop 1 = res ++ p := by
    rw [List.append_assoc, List.singleton_append, h.cons_tail]
  have hlast : (res ++ p).getLast? ≠ some SLASH := by
    rw [List.getLast?_append_of_ne_nil _ h.ne_nil]
    exact h.2
  unfold joinStep
  rw [if_neg h.ne_nil, if_pos h.1, hres]
  exact if_neg hlast

theorem joinStep_name (res : Path) (name : Name) :
    joinStep (res ++ [SLASH]) name.path = child res name.path ++ [SLASH] := by
  have hres : res ++ [SLASH] ++ name.path = child res name.path := by simp [child]
  have hlast : (child res name.path).getLast? ≠ some SLASH := by
    rw [← hres, List.getLast?_append_of_ne_nil _ name.ne_nil]
    exact getLast?_name name
  unfold joinStep
  rw [if_neg name.ne_nil, if_neg (head?_name name), hres]
  exact if_neg hlast

theorem inside_eq (h : Normal path) (name : Name) :
    Dir.inside path name = child path name.path := by
  unfold Dir.inside
  rw [joined_eq, List.foldl_cons, List.foldl_cons, List.foldl_nil]
  rw [show [SLASH] = [] ++ [SLASH] from rfl, joinStep_normal _ h, joinStep_name,
    List.dropLast_concat]
  rfl

theorem joined_two (ha : Normal a) (hb : Normal b) : joined [a, b] = a ++ b := by
  rw [joined_eq, List.foldl_cons, List.foldl_cons, List.foldl_nil]
  rw [show [SLASH] = [] ++ [SLASH] from rfl, joinStep_normal _ ha, joinStep_normal _ hb,
    List.dropLast_concat]
  rfl

theorem joined_three (ha : Normal a) (hb : Normal b) (name : Name) :
    joined [a, b, name.path] = child (a ++ b) name.path := by
  rw [joined_eq, List.foldl_cons, List.foldl_cons, List.foldl_cons, List.foldl_nil]
  rw [show [SLASH] = [] ++ [SLASH] from rfl, joinStep_normal _ ha, joinStep_normal _ hb,
    joinStep_name, List.dropLast_concat]
  rfl

/-- Paths that are not all empty need memory. -/
theorem joinTotal_pos (ha : Normal a) (rest : List Path)
    (hrest : ∀ p ∈ rest, Normal p ∨ p.head? ≠ some SLASH) : 0 < joinTotal (a :: rest) := by
  have hpart : ∀ p : Path, Normal p ∨ p.head? ≠ some SLASH → 0 ≤
      (if p = [] then (0 : Int)
      else (p.length : Int) + (if p.getLast? = some SLASH then 0 else 1) -
        (if p.head? = some SLASH then 1 else 0)) := by
    rintro p (hp | hp)
    · rw [if_neg hp.ne_nil, if_neg hp.2, if_pos hp.1]
      omega
    · rw [if_neg hp]
      repeat' split
      all_goals omega
  have hsum : 0 ≤ joinTotal rest := by
    refine List.sum_nonneg fun x hx => ?_
    obtain ⟨p, hp, rfl⟩ := List.mem_map.mp hx
    exact hpart p (hrest p hp)
  have hlen : 0 < a.length := List.length_pos_iff.mpr ha.ne_nil
  have hcons : joinTotal (a :: rest) = (a.length : Int) + joinTotal rest := by
    unfold joinTotal
    rw [List.map_cons, List.sum_cons, if_neg ha.ne_nil, if_neg ha.2, if_pos ha.1]
    omega
  omega

/-! ### `strrchr( path, '/' )` -/

theorem lastName_child (path : Path) {name : Path} (h : SLASH ∉ name) :
    lastName (child path name) = name := by
  have hall : ∀ c ∈ name.reverse, decide (c ≠ SLASH) = true := by
    intro c hc
    simp only [decide_eq_true_eq]
    rintro rfl
    exact h (List.mem_reverse.mp hc)
  unfold lastName child
  rw [List.reverse_append, List.reverse_cons, List.append_assoc,
    List.takeWhile_append_of_pos hall]
  simp

theorem parent_child (path : Path) {name : Path} (h : SLASH ∉ name) :
    parent (child path name) = path := by
  unfold parent
  rw [lastName_child path h]
  unfold child
  rw [List.length_append, List.length_cons]
  have hlen : path.length + (name.length + 1) - name.length - 1 = path.length := by omega
  rw [hlen, List.take_left]

/-- A path with a slash is a name in its parent. -/
theorem child_parent (h : SLASH ∈ path) : child (parent path) (lastName path) = path := by
  obtain ⟨a, b, hrev, ha⟩ := List.eq_append_cons_of_mem (List.mem_reverse.mpr h)
  have hpath : path = child b.reverse a.reverse := by
    rw [← List.reverse_reverse path, hrev]
    simp [child]
  have hslash : SLASH ∉ a.reverse := fun hmem => ha (List.mem_reverse.mp hmem)
  rw [hpath, parent_child _ hslash, lastName_child _ hslash]

/-! ### The order of directories -/

theorem Under.refl (path : Path) : Under path path := List.prefix_refl _

theorem Under.trans {c : Path} (hab : Under a b) (hbc : Under b c) : Under a c :=
  List.IsPrefix.trans hab hbc

theorem under_child (path name : Path) : Under path (child path name) := by
  refine ⟨name ++ [SLASH], ?_⟩
  simp [child]

/-- Directories above one path are above one another. -/
theorem Under.total (ha : Under a path) (hb : Under b path) :
    Under a b ∨ Under b a := List.prefix_or_prefix_of_prefix ha hb

theorem not_under_of_child (path name : Path) : ¬ Under (child path name) path := by
  intro h
  have hlen := h.length_le
  simp only [child, List.length_append, List.length_cons, List.length_nil] at hlen
  omega

/-- Two names are one if something is under both. -/
theorem name_eq_of_under {q : Path} {a b : Name} (ha : Under (child q a.path) path)
    (hb : Under (child q b.path) path) : a.path = b.path := by
  obtain ⟨r, hr⟩ := ha
  obtain ⟨t, ht⟩ := hb
  have heq : a.path ++ SLASH :: r = b.path ++ SLASH :: t := by
    have happ := hr.trans ht.symm
    simp only [child, List.append_assoc, List.cons_append, List.nil_append,
      List.append_cancel_left_eq, List.cons.injEq, true_and] at happ
    exact happ
  have htake : ∀ (name : Name) (rest : Path),
      (name.path ++ SLASH :: rest).takeWhile (fun c => decide (c ≠ SLASH)) = name.path := by
    intro name rest
    rw [List.takeWhile_append_of_pos]
    · simp
    · intro c hc
      simp only [decide_eq_true_eq]
      rintro rfl
      exact name.no_slash hc
  rw [← htake a r, heq, htake b t]

end Alcor.Proofs.Shell
