import Mathlib.Data.List.Basic

/-!
# `Alcor.Lib.Compare`: programs side by side

Two programs in lock-step: a reader beside the writer of its bytes, and
a reader beside another one.

* `Carries K enc dec y`: whatever the encoder writes, the decoder takes
  from the front of it and returns `y`, with `K` between the two states
  kept. `Carries.bind` and `Carries.forM` follow the shape of an encoder.
* `Same`, `SameOn Q` and `Tracks R` relate two decoders: the second
  accepts what the first does, or what the first does with a result that
  has `Q`, or both stop at the same place with related results. Each has
  a rule for `>>=` and one for a number of repetitions (`times`).
* `Yields P`: what a decoder returns has the property `P`.
-/

set_option autoImplicit false

/-!
## An encoder and a decoder in step

An encoder writes bytes and a decoder reads them later; both have a
state, such as the position in the file or a log. A `Link` says in
which state the decoder is when it has read just what the encoder has
written. `Carries K enc dec x` says that what `enc` writes, `dec` reads
as `x`, whatever comes behind it, and that the two states belong
together again afterwards.

The rules follow the ways encoders and decoders are put together:
`Carries.bind` for one after the other, `Carries.last` for the last
step of a decoder that makes a value from its parts, and
`Carries.forM` for a loop over a list, whose length the decoder knows.
-/

namespace Lib.Lockstep

variable {σ τ α β γ : Type}
variable {next : α → StateT τ Option β} {x : α} {y : β}

/-- How the states of an encoder and of a decoder belong together. -/
structure Link (σ τ : Type) where
  /-- The encoder has met no error. -/
  good : σ → Prop
  /-- What the encoder has written. -/
  out : σ → List UInt8
  /-- The decoder that has read what the encoder has written, with these bytes before it. -/
  before : σ → List UInt8 → τ

/-- From the state `s` on, `enc` writes what `dec` reads as `x`. -/
def CarriesAt (K : Link σ τ) (s : σ) (enc : StateT σ Option Unit) (dec : StateT τ Option α)
    (x : α) : Prop :=
  ∃ s' bs, enc s = some ((), s') ∧ K.good s' ∧ K.out s' = K.out s ++ bs ∧
    ∀ rest, dec (K.before s (bs ++ rest)) = some (x, K.before s' rest)

/-- What `enc` writes, `dec` reads as `x`. -/
def Carries (K : Link σ τ) (enc : StateT σ Option Unit) (dec : StateT τ Option α) (x : α) : Prop :=
  ∀ s, K.good s → CarriesAt K s enc dec x

/-- A decoder in a loop. -/
def times (dec : StateT τ Option α) : Nat → StateT τ Option (List α)
  | 0     => pure []
  | n + 1 => do
      let x ← dec
      let xs ← times dec n
      pure (x :: xs)

variable {K : Link σ τ} {enc enc₁ enc₂ : StateT σ Option Unit} {dec : StateT τ Option α}

/-- Nothing is written and nothing is read. -/
theorem Carries.pure (x : α) : Carries K (Pure.pure ()) (Pure.pure x) x := fun s hs =>
  ⟨s, [], rfl, hs, (List.append_nil _).symm, fun _ => rfl⟩

/-- One after the other, where what is written first decides which
part of the decoder comes next. -/
theorem CarriesAt.bind {s : σ} (h₁ : CarriesAt K s enc₁ dec x)
    (h₂ : ∀ s', enc₁ s = some ((), s') → K.good s' → CarriesAt K s' enc₂ (next x) y) :
    CarriesAt K s (enc₁ >>= fun _ => enc₂) (dec >>= next) y := by
  obtain ⟨s₁, bs₁, henc₁, hgood₁, hout₁, hdec₁⟩ := h₁
  obtain ⟨s₂, bs₂, henc₂, hgood₂, hout₂, hdec₂⟩ := h₂ s₁ henc₁ hgood₁
  refine ⟨s₂, bs₁ ++ bs₂, ?_, hgood₂, ?_, fun rest => ?_⟩
  · show (enc₁ s).bind (fun p => enc₂ p.2) = _
    rw [henc₁]
    exact henc₂
  · rw [hout₂, hout₁, List.append_assoc]
  · show (dec _).bind (fun p => next p.1 p.2) = _
    rw [List.append_assoc, hdec₁]
    exact hdec₂ rest

theorem Carries.bind (h₁ : Carries K enc₁ dec x) (h₂ : Carries K enc₂ (next x) y) :
    Carries K (enc₁ >>= fun _ => enc₂) (dec >>= next) y :=
  fun s hs => (h₁ s hs).bind fun s' _ hs' => h₂ s' hs'

/-- After the last part the decoder only makes a value from what it has read. -/
theorem CarriesAt.last {s : σ} (h : CarriesAt K s enc dec x) (hnext : next x = Pure.pure y) :
    CarriesAt K s enc (dec >>= next) y := by
  obtain ⟨s', bs, henc, hgood, hout, hdec⟩ := h
  refine ⟨s', bs, henc, hgood, hout, fun rest => ?_⟩
  show (dec _).bind (fun p => next p.1 p.2) = _
  rw [hdec]
  show next x _ = _
  rw [hnext]
  rfl

theorem Carries.last (h : Carries K enc dec x) (hnext : next x = Pure.pure y) :
    Carries K enc (dec >>= next) y :=
  fun s hs => (h s hs).last hnext

/-- A loop over a list: what one element writes is read by one
repetition of the decoder. -/
theorem Carries.forM {enc : γ → StateT σ Option Unit} {dec : StateT τ Option γ} {xs : List γ}
    (h : ∀ x ∈ xs, Carries K (enc x) dec x) : Carries K (xs.forM enc) (times dec xs.length) xs := by
  induction xs with
  | nil => exact Carries.pure []
  | cons x xs ih =>
    have hx := h x List.mem_cons_self
    have hxs := ih fun y hy => h y (List.mem_cons_of_mem _ hy)
    exact hx.bind (hxs.last rfl)

end Lib.Lockstep

/-!
## Two decoders of one format

Two decoders read the same input in different ways, for instance one
that copies and one that does not. Wherever the first accepts,

* `Same` says that the second does the same;
* `SameOn Q` says so if the result has the property `Q`;
* `Tracks R` says that the second, if it accepts too, stops at the same
  place, with a result that is related to the first one.

`SameOn` and `Tracks` are the two halves of a statement of the form "the
results are equal exactly if `Q`". The rules follow the ways decoders
are put together. `Yields` is what a later part of a decoder needs to
say that the result contains what an earlier one has read.
-/

namespace Lib.Compare

open Lib.Lockstep (times)

variable {τ α β γ δ : Type}
variable {R : α → β → Prop}

/-- The second decoder accepts what the first one accepts, with the same result. -/
def Same (l l' : StateT τ Option α) : Prop :=
  ∀ s x s', l s = some (x, s') → l' s = some (x, s')

/-- The second decoder accepts what the first one accepts with a result that has `Q`. -/
def SameOn (Q : α → Prop) (l l' : StateT τ Option α) : Prop :=
  ∀ s x s', l s = some (x, s') → Q x → l' s = some (x, s')

/-- Where both decoders accept, they stop at the same place, with related results. -/
def Tracks (R : α → β → Prop) (l : StateT τ Option α) (l' : StateT τ Option β) : Prop :=
  ∀ s x s' y s'', l s = some (x, s') → l' s = some (y, s'') → s'' = s' ∧ R x y

/-- All results of a decoder have `P`. -/
def Yields (P : α → Prop) (l : StateT τ Option α) : Prop :=
  ∀ s x s', l s = some (x, s') → P x

/-- A run of two decoders, taken apart. -/
theorem bind_eq_some {l : StateT τ Option α} {next : α → StateT τ Option β} {s s' : τ} {y : β} :
    (l >>= next) s = some (y, s') ↔ ∃ x t, l s = some (x, t) ∧ next x t = some (y, s') := by
  show (l s).bind (fun r => next r.1 r.2) = _ ↔ _
  cases l s with
  | none => simp
  | some r =>
    obtain ⟨x, t⟩ := r
    simp

/-! ### One after the other -/

variable {l l' : StateT τ Option α} {next next' : α → StateT τ Option β}

theorem Same.refl (l : StateT τ Option α) : Same l l := fun _ _ _ h => h

theorem Same.bind (h : Same l l') (hnext : ∀ x, Same (next x) (next' x)) :
    Same (l >>= next) (l' >>= next') := by
  intro s y s' hrun
  obtain ⟨x, t, hx, hy⟩ := bind_eq_some.mp hrun
  exact bind_eq_some.mpr ⟨x, t, h s x t hx, hnext x t y s' hy⟩

theorem Same.sameOn (h : Same l l') (Q : α → Prop) : SameOn Q l l' :=
  fun s x s' hx _ => h s x s' hx

theorem Same.tracks (h : Same l l') : Tracks Eq l l' := by
  intro s x s' y s'' hx hy
  obtain ⟨rfl, rfl⟩ := Prod.mk.inj (Option.some.inj ((h s x s' hx).symm.trans hy))
  exact ⟨rfl, rfl⟩

theorem Yields.bind {P : β → Prop} (h : ∀ x, Yields P (next x)) : Yields P (l >>= next) := by
  intro s y s' hrun
  obtain ⟨x, t, -, hy⟩ := bind_eq_some.mp hrun
  exact h x t y s' hy

theorem Yields.pure {P : α → Prop} {x : α} (h : P x) :
    Yields P (Pure.pure x : StateT τ Option α) := by
  intro s y s' hrun
  obtain ⟨rfl, -⟩ := Prod.mk.inj (Option.some.inj hrun)
  exact h

/-- The whole result has `Q` only if what was read first has `P`. -/
theorem SameOn.bind {P : α → Prop} {Q : β → Prop} (h : SameOn P l l')
    (hyields : ∀ x, Yields (fun y => Q y → P x) (next x))
    (hnext : ∀ x, SameOn Q (next x) (next' x)) : SameOn Q (l >>= next) (l' >>= next') := by
  intro s y s' hrun hQ
  obtain ⟨x, t, hx, hy⟩ := bind_eq_some.mp hrun
  exact bind_eq_some.mpr ⟨x, t, h s x t hx (hyields x t y s' hy hQ), hnext x t y s' hy hQ⟩

/-- The first part is the same in both decoders. -/
theorem Same.bind_sameOn {Q : β → Prop} (h : Same l l')
    (hnext : ∀ x, SameOn Q (next x) (next' x)) : SameOn Q (l >>= next) (l' >>= next') := by
  intro s y s' hrun hQ
  obtain ⟨x, t, hx, hy⟩ := bind_eq_some.mp hrun
  exact bind_eq_some.mpr ⟨x, t, h s x t hx, hnext x t y s' hy hQ⟩

theorem Tracks.bind {T : γ → δ → Prop} {l : StateT τ Option α} {l' : StateT τ Option β}
    {next : α → StateT τ Option γ} {next' : β → StateT τ Option δ} (h : Tracks R l l')
    (hnext : ∀ x y, R x y → Tracks T (next x) (next' y)) :
    Tracks T (l >>= next) (l' >>= next') := by
  intro s x s' y s'' hx hy
  obtain ⟨a, t, ha, hx⟩ := bind_eq_some.mp hx
  obtain ⟨b, u, hb, hy⟩ := bind_eq_some.mp hy
  obtain ⟨rfl, hR⟩ := h s a t b u ha hb
  exact hnext a b hR u x s' y s'' hx hy

/-- The first part is the same in both decoders. -/
theorem Same.bind_tracks {T : β → β → Prop} (h : Same l l')
    (hnext : ∀ x, Tracks T (next x) (next' x)) : Tracks T (l >>= next) (l' >>= next') :=
  h.tracks.bind fun x _ hxy => hxy ▸ hnext x

theorem Tracks.mono {T : α → β → Prop} {l : StateT τ Option α} {l' : StateT τ Option β}
    (h : Tracks R l l') (hRT : ∀ x y, R x y → T x y) : Tracks T l l' :=
  fun s x s' y s'' hx hy => (h s x s' y s'' hx hy).imp_right (hRT x y)

theorem Tracks.pure {x : α} {y : β} (h : R x y) :
    Tracks R (Pure.pure x : StateT τ Option α) (Pure.pure y) := by
  intro s a s' b s'' ha hb
  obtain ⟨rfl, rfl⟩ := Prod.mk.inj (Option.some.inj ha)
  obtain ⟨rfl, rfl⟩ := Prod.mk.inj (Option.some.inj hb)
  exact ⟨rfl, h⟩

/-! ### Loops -/

theorem Same.times (h : Same l l') (n : Nat) : Same (times l n) (times l' n) := by
  induction n with
  | zero => exact Same.refl _
  | succ n ih => exact h.bind fun _ => ih.bind fun _ => Same.refl _

theorem SameOn.times {Q : α → Prop} (h : SameOn Q l l') (n : Nat) :
    SameOn (fun xs => ∀ x ∈ xs, Q x) (times l n) (times l' n) := by
  induction n with
  | zero => exact (Same.refl _).sameOn _
  | succ n ih =>
    refine h.bind (fun x => ?_) fun x => ?_
    · -- the first element is in the list
      refine Yields.bind fun xs => Yields.pure ?_
      exact fun hall => hall x List.mem_cons_self
    · refine ih.bind (fun xs => ?_) fun xs => (Same.refl _).sameOn _
      refine Yields.pure fun hall y hy => hall y (List.mem_cons_of_mem _ hy)

theorem Tracks.times {l : StateT τ Option α} {l' : StateT τ Option β} (h : Tracks R l l')
    (n : Nat) : Tracks (List.Forall₂ R) (times l n) (times l' n) := by
  induction n with
  | zero => exact Tracks.pure .nil
  | succ n ih =>
    exact h.bind fun x y hxy => ih.bind fun xs ys hxys => Tracks.pure (.cons hxy hxys)

end Lib.Compare
