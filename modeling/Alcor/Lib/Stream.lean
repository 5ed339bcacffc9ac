import Mathlib.Data.List.Basic

/-!
# `Alcor.Lib.Stream`: encoders and decoders of byte streams

A decoder answers each input with a list of outputs, and may stop for
good (`none`). `feed` runs it over a list of inputs and collects the
outputs. An encoder answers each value with the bytes it sends,
`encode` runs it over a list of values.

`feed_encode` is the rule for transparency: if a relation between the
two states holds before a value, the decoder answers the bytes of that
value with `out a`, and the relation holds afterwards, then the bytes
of any list of values decode to the outputs of these values, in order.
-/

set_option autoImplicit false

namespace Lib.Stream

variable {σ τ α β γ : Type}

/-- Run a decoder over its inputs: the last state and all outputs. -/
def feed (dec : τ → β → Option (τ × List γ)) : τ → List β → Option (τ × List γ)
  | t, []      => some (t, [])
  | t, b :: bs => do
      let (t₁, out) ← dec t b
      let (t₂, outs) ← feed dec t₁ bs
      return (t₂, out ++ outs)

/-- Run an encoder over its values: the last state and all bytes. -/
def encode (enc : σ → α → σ × List β) : σ → List α → σ × List β
  | s, []      => (s, [])
  | s, a :: as =>
    let (s₁, bs) := enc s a
    let (s₂, rest) := encode enc s₁ as
    (s₂, bs ++ rest)

variable {dec : τ → β → Option (τ × List γ)}

@[simp] theorem feed_nil (t : τ) : feed dec t [] = some (t, []) := rfl

/-- One input whose answer is known. -/
theorem feed_cons {t t₁ : τ} {b : β} {out : List γ} (h : dec t b = some (t₁, out))
    (bs : List β) :
    feed dec t (b :: bs) = (feed dec t₁ bs).map fun r => (r.1, out ++ r.2) := by
  simp only [feed, h, Option.bind_eq_bind, Option.bind_some]
  cases feed dec t₁ bs <;> rfl

/-- A decoder runs over two parts one after the other, the second from
the state that the first has left. -/
theorem feed_append {t t₁ : τ} {xs : List β} {out : List γ}
    (h : feed dec t xs = some (t₁, out)) (ys : List β) :
    feed dec t (xs ++ ys) = (feed dec t₁ ys).map fun r => (r.1, out ++ r.2) := by
  induction xs generalizing t out with
  | nil =>
    simp only [feed_nil, Option.some.injEq, Prod.mk.injEq] at h
    obtain ⟨rfl, rfl⟩ := h
    simp
  | cons b bs ih =>
    -- the first input has an answer, since the whole first part has one
    cases hb : dec t b with
    | none => simp [feed, hb] at h
    | some r =>
      obtain ⟨t', out'⟩ := r
      rw [feed_cons hb] at h
      obtain ⟨r', hr', heq⟩ := Option.map_eq_some_iff.mp h
      simp only [Prod.mk.injEq] at heq
      obtain ⟨rfl, rfl⟩ := heq
      rw [List.cons_append, feed_cons hb, ih hr', Option.map_map]
      simp [Function.comp_def]

/-- Transparency: what one value needs, for a whole list of values. -/
theorem feed_encode {enc : σ → α → σ × List β} {R : σ → τ → Prop} {out : α → List γ}
    (hstep : ∀ s t a, R s t →
      ∃ t', feed dec t (enc s a).2 = some (t', out a) ∧ R (enc s a).1 t') :
    ∀ (as : List α) (s : σ) (t : τ), R s t →
      ∃ t', feed dec t (encode enc s as).2 = some (t', as.flatMap out) ∧
        R (encode enc s as).1 t' := by
  intro as
  induction as with
  | nil => exact fun s t h => ⟨t, rfl, h⟩
  | cons a as ih =>
    intro s t h
    obtain ⟨t₁, hfeed, hR⟩ := hstep s t a h
    obtain ⟨t₂, hrest, hR'⟩ := ih (enc s a).1 t₁ hR
    refine ⟨t₂, ?_, hR'⟩
    simp only [encode, List.flatMap_cons]
    rw [feed_append hfeed, hrest]
    rfl

end Lib.Stream
