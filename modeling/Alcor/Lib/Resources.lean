import Mathlib.Data.List.Basic

/-!
# `Alcor.Lib.Resources`: traces of handles that are opened, used and closed

A trace is a list of events, and `f` says which of them are about a
handle. `Tidy f lo hi d evs` is what a piece of a program may leave: the
handles from `lo` up to `hi` are opened, used and closed once each, the
handle `d` that was open already is only used, and no other is touched.

Two pieces one after the other are tidy (`Tidy.append`), and so is a
piece between the opening and the closing of one more handle
(`Tidy.bracket`).
-/

set_option autoImplicit false

namespace Lib.Resources

/-- What is done with a handle. -/
inductive Use where
  | opened
  | used
  | closed
  deriving DecidableEq, Repr

variable {ε : Type} (f : ε → Option (Nat × Use))

/-- What the trace does with one handle. -/
def on (h : Nat) (evs : List ε) : List Use :=
  evs.filterMap fun e => (f e).bind fun (h', u) => if h' = h then some u else none

/-- A handle from its opening to its closing. -/
def Complete (us : List Use) : Prop := ∃ n, us = .opened :: (List.replicate n .used ++ [.closed])

/-- Opened, used and closed once each, but for the handle that is open already. -/
def Tidy (lo hi : Nat) (d : Option Nat) (evs : List ε) : Prop :=
  ∀ h, if d = some h then ∃ n, on f h evs = List.replicate n .used
    else if lo ≤ h ∧ h < hi then Complete (on f h evs) else on f h evs = []

variable {f} {lo mid hi h : Nat} {d : Option Nat} {evs evs' : List ε} {e : ε}

@[simp] theorem on_append (h : Nat) (evs evs' : List ε) :
    on f h (evs ++ evs') = on f h evs ++ on f h evs' :=
  List.filterMap_append

theorem on_single_none (he : f e = none) (h : Nat) : on f h [e] = [] := by
  simp [on, he]

theorem on_single_some {k : Nat} {u : Use} (he : f e = some (k, u)) (h : Nat) :
    on f h [e] = if k = h then [u] else [] := by
  simp only [on, List.filterMap_cons, List.filterMap_nil, he, Option.bind_some]
  split <;> simp_all

theorem Tidy.nil (lo : Nat) (d : Option Nat) : Tidy f lo lo d [] := by
  intro h
  split
  · exact ⟨0, rfl⟩
  · rw [if_neg (by omega)]
    rfl

/-- Two pieces one after the other. Handles are numbered on, so what
comes later is about other handles. -/
theorem Tidy.append (hle : lo ≤ mid) (hle' : mid ≤ hi)
    (ha : Tidy f lo mid d evs) (hb : Tidy f mid hi d evs') : Tidy f lo hi d (evs ++ evs') := by
  intro h
  have ha := ha h
  have hb := hb h
  rw [on_append]
  by_cases hopen : d = some h
  · -- the open handle is only used, in either piece
    rw [if_pos hopen] at ha hb ⊢
    obtain ⟨m, hm⟩ := ha
    obtain ⟨n, hn⟩ := hb
    exact ⟨m + n, by rw [hm, hn, List.replicate_append_replicate]⟩
  · rw [if_neg hopen] at ha hb ⊢
    -- any other handle is of one of the pieces at most
    by_cases hfirst : lo ≤ h ∧ h < mid
    · rw [if_pos hfirst] at ha
      rw [if_neg (by omega)] at hb
      rwa [hb, List.append_nil, if_pos (by omega)]
    · rw [if_neg hfirst] at ha
      rw [ha, List.nil_append]
      by_cases hsecond : mid ≤ h ∧ h < hi
      · rw [if_pos hsecond] at hb
        rwa [if_pos (by omega)]
      · rw [if_neg hsecond] at hb
        rwa [if_neg (by omega)]

/-- An event that is not about a handle. -/
theorem Tidy.other (he : f e = none) (lo : Nat) (d : Option Nat) : Tidy f lo lo d [e] := by
  intro h
  rw [on_single_none he]
  split
  · exact ⟨0, rfl⟩
  · rw [if_neg (by omega)]

/-- The open handle is used. -/
theorem Tidy.used (he : f e = some (h, .used)) (lo : Nat) : Tidy f lo lo (some h) [e] := by
  intro h'
  rw [on_single_some he]
  by_cases heq : h = h'
  · rw [if_pos heq, if_pos (congrArg some heq)]
    exact ⟨1, rfl⟩
  · rw [if_neg heq, if_neg (fun hs => heq (Option.some.inj hs)), if_neg (by omega)]

/-- A piece that leaves the open handle alone is one that may use it. -/
theorem Tidy.weaken (hlt : h < lo) (ht : Tidy f lo hi none evs) : Tidy f lo hi (some h) evs := by
  intro h'
  have hh := ht h'
  rw [if_neg (by simp)] at hh
  split
  · next heq =>
      obtain rfl := Option.some.inj heq
      rw [if_neg (by omega)] at hh
      exact ⟨0, hh⟩
  · exact hh

/-- A handle is opened in front of a piece that uses it, and closed behind it. -/
theorem Tidy.bracket {e' : ε} (he : f e = some (lo, .opened)) (he' : f e' = some (lo, .closed))
    (hle : lo < hi) (ht : Tidy f (lo + 1) hi (some lo) evs) :
    Tidy f lo hi none (e :: (evs ++ [e'])) := by
  intro h
  have hh := ht h
  rw [if_neg (by simp), ← List.singleton_append, on_append, on_append, on_single_some he,
    on_single_some he']
  by_cases heq : lo = h
  · -- opened, used some times, closed
    subst heq
    rw [if_pos rfl] at hh
    obtain ⟨n, hn⟩ := hh
    rw [if_pos rfl, if_pos rfl, if_pos ⟨Nat.le_refl _, hle⟩, hn]
    exact ⟨n, rfl⟩
  · rw [if_neg fun hs => heq (Option.some.inj hs)] at hh
    rw [if_neg heq, if_neg heq, List.nil_append, List.append_nil]
    by_cases hin : lo + 1 ≤ h ∧ h < hi
    · rw [if_pos hin] at hh
      rwa [if_pos (by omega)]
    · rw [if_neg hin] at hh
      rwa [if_neg (by omega)]

end Lib.Resources
