import Alcor.Uart.Handlers

/-!
# `Alcor.Proofs.Uart.Handlers`: when the buffered UARTs do not disturb each other

The handlers that an interrupt calls are a chain (`Linked`). Our handler
may go in front of it when it is not in it yet: behind a handler that
chains to it, it would chain to that handler in turn. It may leave only
when it serves no other UART.

* `handleRx_written`: our handler gives the byte to the buffer once.
* `Sound.step`: a harmless step keeps the chain in order.
* `undisturbed_of_harmless`: in every run whose steps are all harmless
  the buffered UARTs do not disturb each other.
* `not_always_undisturbed`: a run in which one buffer is disabled, and
  the other UART is not read any more.
-/

set_option autoImplicit false

namespace Alcor.Proofs.Uart

open Alcor.Uart Lib.Run
open Lib (Chain)

variable {id : Nat}
variable {cfg : Config} {s s' : State} {hs : List Handler}

/-! ### The handlers of an interrupt -/

/-- A chain of handlers comes to its end. -/
theorem handleRx_isSome (hs : List Handler) (id : Nat) :
    ∀ bytes, Chain s.next hs → (handleRx cfg s id hs.length hs.head? bytes).isSome := by
  induction hs with
  | nil => exact fun bytes _ => rfl
  | cons h hs ih =>
    intro bytes hchain
    rw [List.length_cons, List.head?_cons, handleRx, hchain.1]
    split
    · obtain ⟨⟨written, left⟩, hrest⟩ := Option.isSome_iff_exists.mp (ih [] hchain.2)
      rw [hrest]
      rfl
    · exact ih bytes hchain.2

/-- Our handler is the only one that reads, and it reads everything. -/
theorem handleRx_written (hs : List Handler) (hid : id ≠ cfg.sermuxPhysId)
    (hbuf : s.buffered id = true) :
    ∀ bytes, Chain s.next hs → handleRx cfg s id hs.length hs.head? bytes =
      some (if .shared ∈ hs then (bytes, []) else ([], bytes)) := by
  induction hs with
  | nil => exact fun bytes _ => rfl
  | cons h hs ih =>
    intro bytes hchain
    rw [List.length_cons, List.head?_cons, handleRx, hchain.1]
    by_cases hshared : h = .shared
    · have hmem : .shared ∈ h :: hs := List.mem_cons.mpr (.inl hshared.symm)
      rw [if_pos ⟨hshared, .inl hbuf⟩, ih [] hchain.2, if_pos hmem, if_neg hid]
      split <;> simp
    · rw [if_neg (fun hand => hshared hand.1), ih bytes hchain.2]
      simp only [List.mem_cons, Ne.symm hshared, false_or]

/-! ### The chain -/

/-- These are the handlers that an interrupt calls. -/
structure Linked (s : State) (hs : List Handler) : Prop where
  chain : Chain s.next hs
  head : hs.head? = s.handler
  found : ∀ k, .foreign k ∈ hs → k < s.found.length

theorem Linked.congr (h : Linked s hs) (hhandler : s'.handler = s.handler)
    (hprev : s'.prevUartRxHandler = s.prevUartRxHandler) (hfound : s'.found = s.found) :
    Linked s' hs := by
  refine ⟨h.chain.congr fun x _ => ?_, hhandler ▸ h.head, hfound ▸ h.found⟩
  cases x with
  | shared => exact hprev
  | foreign k => rw [State.next, State.next, hfound]

/-- Our handler goes in front of the others, or it is there already. -/
theorem Linked.setup (h : Linked s hs) (hcan : s.CanSetup) :
    ∃ hs', Linked (setupHandler s) hs' ∧ .shared ∈ hs' := by
  rw [setupHandler]
  split
  · next hne =>
      have hnotin : Handler.shared ∉ hs := fun hin =>
        hcan.resolve_left hne ⟨hs, h.chain, h.head, hin⟩
      refine ⟨.shared :: hs, ⟨⟨h.head.symm, h.chain.congr fun x hx => ?_⟩, rfl, fun k hk => ?_⟩,
        List.mem_cons_self⟩
      · cases x with
        | shared => exact absurd hx hnotin
        | foreign k => rfl
      · exact h.found k ((List.mem_cons.mp hk).resolve_left (fun heq => by cases heq))
  · next heq =>
      exact ⟨hs, h, List.mem_of_head? (h.head.trans (not_not.mp heq))⟩

/-- Our handler leaves the chain when it is at its front. -/
theorem Linked.restore (h : Linked s hs) :
    ∃ hs', Linked (restoreHandler s) hs' ∧ (s.handler ≠ some .shared → hs' = hs) := by
  rw [restoreHandler]
  split
  · next heq =>
      cases hs with
      | nil => exact absurd (h.head.trans heq) (by simp)
      | cons x hs =>
        obtain rfl : x = .shared := Option.some.inj (h.head.trans heq)
        refine ⟨hs, ⟨h.chain.2.congr fun x _ => ?_, h.chain.1.symm, fun k hk =>
          h.found k (List.mem_cons_of_mem _ hk)⟩, fun hne => absurd heq hne⟩
        cases x <;> rfl
  · exact ⟨hs, h, fun _ => rfl⟩

/-- Another handler comes in front. -/
theorem Linked.install (h : Linked s hs) :
    Linked (installForeign s) (.foreign s.found.length :: hs) := by
  refine ⟨⟨?_, h.chain.congr fun x hx => ?_⟩, rfl, fun k hk => ?_⟩
  · rw [State.next, installForeign, List.getElem?_concat_length, Option.join_some, h.head]
  · cases x with
    | shared => rfl
    | foreign k =>
      rw [State.next, State.next, installForeign, List.getElem?_append_left (h.found k hx)]
  · rw [installForeign, List.length_append, List.length_singleton]
    rcases List.mem_cons.mp hk with heq | hk
    · cases heq
      exact Nat.lt_succ_self _
    · exact Nat.lt_succ_of_lt (h.found k hk)

/-! ### What the calls leave alone -/

theorem setupHandler_with (s : State) (buffered interruptEnabled : Nat → Bool) :
    setupHandler { s with buffered, interruptEnabled } =
      { setupHandler s with buffered, interruptEnabled } := by
  rw [setupHandler, setupHandler]
  split
  · rfl
  · rfl

theorem restoreHandler_rest (s : State) : (restoreHandler s).buffered = s.buffered ∧
    (restoreHandler s).interruptEnabled = s.interruptEnabled := by
  rw [restoreHandler]
  split
  · exact ⟨rfl, rfl⟩
  · exact ⟨rfl, rfl⟩

/-- `buf_set` changes one buffer, which is enabled only if the call succeeds with a size. -/
theorem bufSet_eq (s : State) (id log2size : Nat) (allocOk : Bool) :
    ∃ b, (bufSet s id log2size allocOk).2 = { s with buffered := Function.update s.buffered id b } ∧
      (b = true → log2size % 256 ≠ 0 ∧ (bufSet s id log2size allocOk).1 = true) := by
  rw [bufSet]
  split
  · exact ⟨_, rfl, fun h => ⟨of_decide_eq_true h, rfl⟩⟩
  · exact ⟨false, rfl, fun h => by cases h⟩

theorem platformCpuSetInterrupt_eq (s : State) (id : Nat) (status ok : Bool) :
    ∃ b, platformCpuSetInterrupt s id status ok =
      { s with interruptEnabled := Function.update s.interruptEnabled id b } ∧
      (ok = true → b = status) ∧ (ok = false → b = s.interruptEnabled id) := by
  rw [platformCpuSetInterrupt]
  cases ok with
  | true => exact ⟨status, rfl, fun _ => rfl, fun h => (by cases h)⟩
  | false =>
    refine ⟨s.interruptEnabled id, ?_, fun h => (by cases h), fun _ => rfl⟩
    rw [Function.update_eq_self]
    rfl

/-! ### Runs -/

/-- What holds after every call. -/
structure Sound (cfg : Config) (s : State) : Prop where
  served : ∃ hs, Linked s hs ∧
    ∀ id < cfg.numUart, s.buffered id = true → s.interruptEnabled id = true ∧ .shared ∈ hs
  /-- The UART of the multiplexer has no buffer of its own. -/
  sermux : s.buffered cfg.sermuxPhysId = false

theorem Sound.undisturbed (h : Sound cfg s) : s.Undisturbed cfg := by
  obtain ⟨⟨hs, hlinked, hserved⟩, hsermux⟩ := h
  refine ⟨fun id hid hbuf => (hserved id hid hbuf).1, fun id hid hbuf bytes => ⟨hs.length, ?_⟩,
    fun id bytes => ⟨hs.length, ?_⟩⟩
  · have hne : id ≠ cfg.sermuxPhysId := by
      rintro rfl
      rw [hsermux] at hbuf
      cases hbuf
    rw [← hlinked.head, handleRx_written hs hne hbuf bytes hlinked.chain,
      if_pos (hserved id hid hbuf).2]
  · rw [← hlinked.head]
    exact handleRx_isSome hs id bytes hlinked.chain

/-- A buffer is disabled. The other UARTs keep our handler. -/
theorem Sound.disable (h : Sound cfg s) (hid : id < SERMUX_SERVICE_ID_FIRST)
    (hne : id ≠ cfg.sermuxPhysId) (a : Answers) (hok : Harmless cfg s (.setBuffer id 0 a)) :
    Sound cfg (platformUartSetBuffer cfg id 0 a s).2 := by
  obtain ⟨⟨hs, hlinked, hserved⟩, hsermux⟩ := h
  -- our handler is in front for this UART only
  have hothers : s.handler = some .shared →
      ∀ id' < cfg.numUart, id' ≠ id → ¬ s.buffered id' = true := by
    have hok := hok hne hid
    rwa [if_pos rfl] at hok
  rw [platformUartSetBuffer, if_neg hne, if_pos rfl, if_neg (Nat.not_le_of_lt hid)]
  -- its own interrupt is switched off, if it was on
  obtain ⟨t, ht, hthandler, htprev, htfound, htbuf, htint⟩ : ∃ t, (if s.interruptEnabled id then
      platformCpuSetInterrupt s id false a.interruptOk else s) = t ∧ t.handler = s.handler ∧
      t.prevUartRxHandler = s.prevUartRxHandler ∧ t.found = s.found ∧ t.buffered = s.buffered ∧
      ∀ id' ≠ id, t.interruptEnabled id' = s.interruptEnabled id' := by
    split
    · obtain ⟨b, hb, -⟩ := platformCpuSetInterrupt_eq s id false a.interruptOk
      refine ⟨_, hb, rfl, rfl, rfl, rfl, fun id' hne' => Function.update_of_ne hne' _ _⟩
    · exact ⟨s, rfl, rfl, rfl, rfl, rfl, fun _ _ => rfl⟩
  rw [ht]
  obtain ⟨hs', hlinked', hkeep⟩ := (hlinked.congr hthandler htprev htfound).restore
  obtain ⟨hbuf, hint⟩ := restoreHandler_rest t
  obtain ⟨b, hb, hb'⟩ := bufSet_eq (restoreHandler t) id 0 a.allocOk
  obtain rfl : b = false := Bool.eq_false_iff.mpr fun h => (hb' h).1 rfl
  simp only [hb, hbuf, hint, htbuf]
  refine ⟨⟨hs', hlinked'.congr rfl rfl rfl, fun id' hid' hbuf' => ?_⟩, ?_⟩
  · change Function.update s.buffered id false id' = true at hbuf'
    by_cases heq : id' = id
    · rw [heq, Function.update_self] at hbuf'
      cases hbuf'
    · rw [Function.update_of_ne heq] at hbuf'
      -- another buffered UART, so our handler was not in front
      obtain ⟨hint', hin⟩ := hserved id' hid' hbuf'
      have hsame : hs' = hs := hkeep fun hhead => hothers (hthandler ▸ hhead) id' hid' heq hbuf'
      exact ⟨(htint id' heq).trans hint', hsame ▸ hin⟩
  · exact (Function.update_of_ne hne.symm false s.buffered).trans hsermux

/-- A buffer that is disabled, or that of a virtual UART, needs nothing. -/
theorem Sound.setBuffered (h : Sound cfg s) (hne : id ≠ cfg.sermuxPhysId) {b : Bool}
    (hb : b = true → cfg.numUart ≤ id) :
    Sound cfg { s with buffered := Function.update s.buffered id b } := by
  obtain ⟨⟨hs, hlinked, hserved⟩, hsermux⟩ := h
  refine ⟨⟨hs, hlinked.congr rfl rfl rfl, fun id' hid' hbuf' => ?_⟩,
    (Function.update_of_ne hne.symm b s.buffered).trans hsermux⟩
  change Function.update s.buffered id b id' = true at hbuf'
  by_cases heq : id' = id
  · rw [heq, Function.update_self] at hbuf'
    exact absurd (hb hbuf') (Nat.not_le_of_lt (heq ▸ hid'))
  · rw [Function.update_of_ne heq] at hbuf'
    exact hserved id' hid' hbuf'

/-- A buffer is enabled, or gets another size. -/
theorem Sound.enable (h : Sound cfg s) {log2size : Nat} (hne : id ≠ cfg.sermuxPhysId)
    (hsize : log2size ≠ 0) (a : Answers) (hok : Harmless cfg s (.setBuffer id log2size a)) :
    Sound cfg (platformUartSetBuffer cfg id log2size a s).2 := by
  obtain ⟨b, hb, hb'⟩ := bufSet_eq s id log2size a.allocOk
  rw [platformUartSetBuffer, if_neg hne, if_neg hsize]
  dsimp only
  rw [hb]
  split
  · next hfails =>
      -- the reallocation failed, and the buffer is disabled
      refine h.setBuffered hne fun hb => ?_
      rw [(hb' hb).2] at hfails
      cases hfails
  · next hsucceeds =>
      split
      · next hvirtual => exact h.setBuffered hne fun _ => Nat.le_trans cfg.numUart_le hvirtual
      · next hphys =>
          have hok := hok hne (Nat.lt_of_not_le hphys)
          rw [if_neg hsize] at hok
          obtain ⟨hcan, hint⟩ := hok (by simpa using hsucceeds)
          obtain ⟨⟨hs, hlinked, hserved⟩, hsermux⟩ := h
          obtain ⟨hs', hlinked', hin⟩ := hlinked.setup hcan
          obtain ⟨i, hi, hion, hioff⟩ := platformCpuSetInterrupt_eq
            { setupHandler s with
              buffered := Function.update s.buffered id b
              interruptEnabled := s.interruptEnabled } id true a.interruptOk
          rw [setupHandler_with s _ s.interruptEnabled, hi]
          refine ⟨⟨hs', hlinked'.congr rfl rfl rfl, fun id' hid' hbuf' => ⟨?_, hin⟩⟩,
            (Function.update_of_ne hne.symm b s.buffered).trans hsermux⟩
          change Function.update s.buffered id b id' = true at hbuf'
          change Function.update s.interruptEnabled id i id' = true
          by_cases heq : id' = id
          · rw [heq, Function.update_self] at hbuf' ⊢
            -- the buffer is enabled, so the size is not 0 in 8 bits
            rcases hint.resolve_left (hb' hbuf').1 with hset | hwas
            · exact hion hset
            · cases hans : a.interruptOk with
              | true => exact hion hans
              | false => exact (hioff hans).trans hwas
          · rw [Function.update_of_ne heq] at hbuf' ⊢
            exact (hserved id' hid' hbuf').1

/-- **The step lemma**: a harmless step keeps the chain in order. -/
theorem Sound.step (h : Sound cfg s) {e : Event} (hok : Harmless cfg s e)
    (hstep : step cfg s e = some s') : Sound cfg s' := by
  cases e with
  | setBuffer id log2size a =>
    obtain ⟨-, hstep⟩ := Option.ite_none_right_eq_some.mp hstep
    obtain rfl := Option.some.inj hstep
    by_cases hne : id = cfg.sermuxPhysId
    · rw [platformUartSetBuffer, if_pos hne]
      exact h
    · by_cases hsize : log2size = 0
      · subst hsize
        by_cases hvirtual : id ≥ SERMUX_SERVICE_ID_FIRST
        · rw [platformUartSetBuffer, if_neg hne, if_pos rfl, if_pos hvirtual]
          exact h
        · exact h.disable (Nat.lt_of_not_le hvirtual) hne a hok
      · exact h.enable hne hsize a hok
  | setupSermux interruptOk =>
    obtain ⟨hint, hstep⟩ := Option.ite_none_right_eq_some.mp hstep
    obtain rfl := Option.some.inj hstep
    obtain ⟨⟨hs, hlinked, hserved⟩, hsermux⟩ := h
    obtain ⟨hs', hlinked', hin⟩ := hlinked.setup (hok hint)
    rw [platformCpuSetInterrupt, if_pos rfl, setupHandler_with s s.buffered]
    refine ⟨⟨hs', hlinked'.congr rfl rfl rfl, fun id hid hbuf => ⟨?_, hin⟩⟩, hsermux⟩
    change Function.update s.interruptEnabled cfg.sermuxPhysId true id = true
    by_cases heq : id = cfg.sermuxPhysId
    · rw [heq, Function.update_self]
    · rw [Function.update_of_ne heq]
      exact (hserved id hid hbuf).1
  | install =>
    obtain rfl := Option.some.inj hstep
    obtain ⟨⟨hs, hlinked, hserved⟩, hsermux⟩ := h
    refine ⟨⟨_, hlinked.install, fun id hid hbuf => ?_⟩, hsermux⟩
    obtain ⟨hint, hin⟩ := hserved id hid hbuf
    exact ⟨hint, List.mem_cons_of_mem _ hin⟩

/-- **Receive handlers**: in every run whose steps are all harmless the
buffered UARTs do not disturb each other. Each byte of a buffered UART
is given to `buf_write` once and in order; a full buffer is not part of
this model. -/
theorem undisturbed_of_harmless (cfg : Config) (es : List Event) (s : State)
    (hok : AllSteps (step cfg) (Harmless cfg) {} es) (hrun : run (step cfg) {} es = some s) :
    s.Undisturbed cfg := by
  have hinit : Sound cfg {} :=
    ⟨⟨[], ⟨trivial, rfl, fun _ h => (nomatch h)⟩, fun _ _ h => (by cases h)⟩, rfl⟩
  have hsound : Sound cfg s :=
    invariant_run (fun _ _ _ h hok hstep => h.step hok hstep) es {} s hinit hok hrun
  exact hsound.undisturbed

/-- A board with two UARTs. -/
def twoUarts : Config := ⟨2, 0xFFFF, 0, by decide⟩

/-- At the start our handler is nowhere. -/
theorem canSetup_init : ({} : State).CanSetup := by
  refine .inr ?_
  rintro ⟨hs, -, hhead, hin⟩
  rw [List.head?_eq_none_iff.mp hhead] at hin
  cases hin

/-- Two UARTs get buffers, and another handler comes in front. -/
theorem undisturbed_of_harmless_twoUarts :
    ∃ s, run (step twoUarts) {}
      [.setBuffer 0 7 ⟨true, true⟩, .setBuffer 1 7 ⟨true, true⟩, .install] = some s ∧
      s.Undisturbed twoUarts := by
  refine ⟨_, rfl, undisturbed_of_harmless twoUarts
    [.setBuffer 0 7 ⟨true, true⟩, .setBuffer 1 7 ⟨true, true⟩, .install] _ ?_ rfl⟩
  refine ⟨fun _ _ _ => ⟨canSetup_init, .inr (.inl rfl)⟩, fun s hs => ⟨fun _ _ _ => ?_, fun t _ =>
    ⟨trivial, fun _ _ => trivial⟩⟩⟩
  obtain rfl := Option.some.inj hs
  exact ⟨.inl rfl, .inr (.inl rfl)⟩

/-- Both UARTs get buffers, and that of the first is disabled: the other is not read any more. -/
theorem not_always_undisturbed :
    ¬ ∀ (cfg : Config) (es : List Event) (s s' : State) (e : Event),
      run (step cfg) {} es = some s → e.Succeeds cfg s → step cfg s e = some s' →
        s'.Undisturbed cfg := by
  intro h
  obtain ⟨fuel, hwritten⟩ := (h twoUarts [.setBuffer 0 7 ⟨true, true⟩, .setBuffer 1 7 ⟨true, true⟩]
    _ _ (.setBuffer 0 0 ⟨true, true⟩) rfl rfl rfl).written 1 (by decide) rfl [65]
  cases fuel <;> cases hwritten

end Alcor.Proofs.Uart
