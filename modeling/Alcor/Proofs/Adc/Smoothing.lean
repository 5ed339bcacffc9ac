import Alcor.Proofs.Adc.Handler

/-!
# `Alcor.Proofs.Adc.Smoothing`: the mean of the last samples

No sample of the channel comes during an update or a flush, so these only
have to lead to a good state in the end (`Settles`); the reallocation may
fail. The handler may still come for other channels, and the update of the
sequence with it. Neither changes more of the channel than its value
(`Moved`), and no statement of an update or a flush looks at that.

* `Sound` is what a run keeps: the samples returned so far were means,
  the sequence is that of the last update, and the channel is good or
  settles.
* `settles_flush` and `settles_update` are the two calls that start the
  smoothing again; `Settles.moved` is an interrupt between two of their
  statements.
* `sound_call`, `sound_go`, `sound_device`, `sound_outside` and
  `sound_inside` are the events, which `sound_step` puts together.
* `smooths` is about whole runs, and `not_smooths` is a run in which a
  sample of the channel does come during an update.
-/

set_option autoImplicit false

namespace Alcor.Proofs.Adc

open Lib (Mem)
open Lib.Window
open Alcor.Buffer
open Alcor.Proofs.Buffer
open Alcor.Adc
open Alcor.Adc.Device (Dev)

variable {p : Nat}
variable {n : Nat} {id : Fin n} {c c' : Channel} {gone : List UInt16} {r : Nat}
  {stored : List (List UInt8)}

/-! ### An update or a flush -/

/-- Without a sample of the channel in between, the statements that are left lead to a good state.
The smoothing has begun again there, so it does not matter which samples have come before. -/
inductive Settles : List Action → Channel → Prop
  | rest {ch : Channel} {gone : List UInt16} {r : Nat} {stored : List (List UInt8)}
      (hoff : ¬ Live ch) (hqueue : Waiting ch .idle [] gone r stored)
      (hringed : Ringed (ringOf ch) ch.valueFresh gone) : Settles [] ch
  | perform {ch ch' : Channel} {a : Action} {rest rest' : List Action}
      (ha : a.perform rest ch = some (rest', ch')) (h : Settles rest' ch') :
      Settles (a :: rest) ch

section Resets
variable {ch : Channel} {rest : List Action}

/-- What may follow the statements of a flush. -/
def Behind (ch : Channel) (rest : List Action) : Prop :=
  (rest = [] ∨ rest = [.bufFlush]) ∧ ∃ on held arrived gone r stored,
    Queue on ch.buf held .idle arrived gone r stored

/-- The ring is all zero, as the sum, and the smoothing begins again. -/
theorem settles_zeroed (hrest : Behind ch rest) (hle : ch.logsmoothlen ≤ 15)
    (hidx : ch.smoothidx = 0) (hsum : ch.smoothsum = 0) (hready : ch.smoothReady = false)
    (hring : 0 < ch.logsmoothlen → ch.smoothbuf = List.replicate (2 ^ ch.logsmoothlen) 0) :
    Settles rest ch := by
  have hringed : Ringed (ringOf ch) ch.valueFresh [] :=
    { le := hle
      on := by
        intro hpos
        refine { pos := hpos, le := hle, length := ?_, sum := ?_, idx_le := ?_, last := ?_ }
        · simp [ringOf, hring hpos]
        · simp [ringOf, hring hpos, hsum]
        · simp [ringOf, hidx]
        · simp [Ring.last, ringOf, hidx, hready]
      off := fun _ => ⟨hidx, hsum, hready⟩
      stale := fun _ _ => hidx }
  have hoff : ¬ Live ch := by
    rintro ⟨-, hwarm | hpos⟩
    · rw [hready] at hwarm
      cases hwarm
    · exact absurd hidx (Nat.ne_of_gt hpos)
  obtain ⟨hrest, on, held', arrived, gone, r, stored, hqueue⟩ := hrest
  rcases hrest with rfl | rfl
  · exact .rest hoff (hqueue.cold hoff _ _ _) hringed
  · have hflushed : Settles [] { ch with buf := bufFlush ch.buf } :=
      .rest hoff ((hqueue.flush hoff).cold hoff _ _ _) hringed
    exact .perform rfl hflushed

/-- The loop that fills the ring with zeros. -/
theorem settles_zero (ch : Channel) {n : Nat} (d : Nat) :
    ∀ (i : Nat) (cells : List UInt16), i + d = n → cells.length = n →
      cells.take i = List.replicate i 0 →
      Settles rest { ch with smoothbuf := List.replicate n 0 } →
      Settles (.zero i n :: rest) { ch with smoothbuf := cells } := by
  induction d with
  | zero =>
    -- the whole ring is zero
    intro i cells hi hlen hzero h
    obtain rfl : i = n := hi
    refine .perform (if_neg (Nat.lt_irrefl i)) ?_
    rwa [← hzero, ← hlen, List.take_length] at h
  | succ d ih =>
    intro i cells hi hlen hzero h
    have hlt : i < cells.length := by omega
    have hperform : (Action.zero i n).perform rest { ch with smoothbuf := cells } =
        some (.zero (i + 1) n :: rest, { ch with smoothbuf := cells.set i 0 }) := by
      rw [Action.perform, if_pos (by omega : i < n)]
      exact if_pos hlt
    refine .perform hperform (ih (i + 1) (cells.set i 0) (by omega) ?_ ?_ h)
    · rw [List.length_set, hlen]
    · rw [take_succ_set hlt, hzero, List.replicate_succ']

/-- `adc_flush_smoothing`, with a ring of the right length if there is to be one. -/
theorem settles_flush (hrest : Behind ch rest) (hle : ch.logsmoothlen ≤ 15)
    (hlen : 0 < ch.logsmoothlen → ch.smoothbuf.length = 2 ^ ch.logsmoothlen) :
    Settles (adcFlushSmoothing ++ rest) ch := by
  refine .perform rfl (.perform rfl (.perform rfl (.perform rfl ?_)))
  by_cases hpos : ch.logsmoothlen > 0
  · rw [if_pos hpos, smoothRealsize_eq]
    have hzeroed : Settles rest { ch with
        smoothidx := 0, smoothsum := 0, smoothReady := false,
        smoothbuf := List.replicate (2 ^ ch.logsmoothlen) 0 } :=
      settles_zeroed hrest hle rfl rfl rfl (fun _ => rfl)
    exact settles_zero { ch with smoothidx := 0, smoothsum := 0, smoothReady := false } _ 0
      ch.smoothbuf (Nat.zero_add _) (hlen hpos) rfl hzeroed
  · rw [if_neg hpos]
    exact settles_zeroed hrest hle rfl rfl rfl (fun h => absurd h hpos)

/-- `adc_update_smoothing`, whatever becomes of the reallocation. -/
theorem settles_update {arrived : List UInt16} {loglen : Nat} (hloglen : loglen ≤ 15)
    (alloc : Option (Nat → UInt16)) (hringed : Ringed (ringOf ch) ch.valueFresh gone)
    (hqueue : Waiting ch .idle arrived gone r stored) :
    Settles (adcUpdateSmoothing loglen alloc) ch := by
  have hbehind {ch' : Channel} (hbuf : ch'.buf = ch.buf) {rest : List Action}
      (hrest : rest = [] ∨ rest = [.bufFlush]) : Behind ch' rest :=
    ⟨hrest, Live ch, held ch, arrived, gone, r, stored, by rw [hbuf]; exact hqueue⟩
  -- `op_pending` is all that the stop changes
  suffices hresize : ∀ op : Bool, Settles (.resize loglen alloc ::
      (adcFlushSmoothing ++ [.bufFlush])) { ch with opPending := op } by
    refine .perform rfl ?_
    split
    · exact hresize false
    · exact hresize ch.opPending
  intro op
  by_cases hsame : loglen = ch.logsmoothlen
  · -- the length stays
    refine .perform (if_neg (not_not_intro hsame)) ?_
    exact settles_flush (hbehind rfl (.inr rfl)) hringed.le (fun hpos => (hringed.on hpos).length)
  · refine .perform (if_pos hsame) (.perform rfl ?_)
    cases alloc with
    | some m =>
      refine .perform rfl (settles_flush (hbehind rfl (.inr rfl)) hloglen fun _ => ?_)
      simp [smoothRealsize_eq]
    | none =>
      -- the ring is lost, and smoothing is off
      refine .perform rfl (.perform rfl (.perform rfl (.perform rfl
        (.perform rfl (.perform rfl ?_)))))
      dsimp only
      have hoff : ¬ 0 < 0 := Nat.lt_irrefl 0
      by_cases hzero : loglen = 0
      · rw [if_neg (not_not_intro hzero)]
        exact settles_flush (hbehind rfl (.inr rfl)) (Nat.zero_le _) (fun h => absurd h hoff)
      · rw [if_pos hzero]
        exact settles_zeroed (hbehind rfl (.inl rfl)) (Nat.zero_le _) rfl rfl rfl
          (fun h => absurd h hoff)

end Resets

/-! ### The handler comes for another channel -/

/-- The value may have moved and been lost, and the operation ended. -/
structure Moved (c c' : Channel) : Prop where
  ring : SameRing c c'
  fresh : c'.valueFresh = true → c.valueFresh = true

/-- No statement of an update or a flush looks at the value. -/
theorem Moved.perform {ch : Channel} {a : Action} {rest rest' : List Action} (h : Moved c c')
    (ha : a.perform rest c = some (rest', ch)) :
    ∃ ch', a.perform rest c' = some (rest', ch') ∧ Moved ch ch' := by
  obtain ⟨⟨hready, hlen, hidx, hsum, hring, hbuf⟩, hfresh⟩ := h
  cases a with
  | stop =>
    obtain ⟨rfl, rfl⟩ := Prod.mk.inj (Option.some.inj ha)
    refine ⟨_, rfl, ?_⟩
    split <;> split <;> exact ⟨⟨hready, hlen, hidx, hsum, hring, hbuf⟩, hfresh⟩
  | resize loglen alloc =>
    rw [Action.perform] at ha ⊢
    rw [hlen]
    split at ha <;> obtain ⟨rfl, rfl⟩ := Prod.mk.inj (Option.some.inj ha)
    · next hne => exact ⟨_, if_pos hne, ⟨hready, hlen, hidx, hsum, hring, hbuf⟩, hfresh⟩
    · next heq => exact ⟨_, if_neg heq, ⟨hready, hlen, hidx, hsum, hring, hbuf⟩, hfresh⟩
  | setLen loglen =>
    obtain ⟨rfl, rfl⟩ := Prod.mk.inj (Option.some.inj ha)
    exact ⟨_, rfl, ⟨hready, rfl, hidx, hsum, hring, hbuf⟩, hfresh⟩
  | realloc loglen alloc =>
    cases alloc with
    | some m =>
      obtain ⟨rfl, rfl⟩ := Prod.mk.inj (Option.some.inj ha)
      refine ⟨_, rfl, ⟨hready, hlen, hidx, hsum, ?_, hbuf⟩, hfresh⟩
      simp only [Channel.smoothRealsize, hlen, hring]
    | none =>
      obtain ⟨rfl, rfl⟩ := Prod.mk.inj (Option.some.inj ha)
      exact ⟨_, rfl, ⟨hready, hlen, hidx, hsum, rfl, hbuf⟩, hfresh⟩
  | lenZero =>
    obtain ⟨rfl, rfl⟩ := Prod.mk.inj (Option.some.inj ha)
    exact ⟨_, rfl, ⟨hready, rfl, hidx, hsum, hring, hbuf⟩, hfresh⟩
  | sumZero =>
    obtain ⟨rfl, rfl⟩ := Prod.mk.inj (Option.some.inj ha)
    exact ⟨_, rfl, ⟨hready, hlen, hidx, rfl, hring, hbuf⟩, hfresh⟩
  | readyZero =>
    obtain ⟨rfl, rfl⟩ := Prod.mk.inj (Option.some.inj ha)
    exact ⟨_, rfl, ⟨rfl, hlen, hidx, hsum, hring, hbuf⟩, hfresh⟩
  | idxZero =>
    obtain ⟨rfl, rfl⟩ := Prod.mk.inj (Option.some.inj ha)
    exact ⟨_, rfl, ⟨hready, hlen, rfl, hsum, hring, hbuf⟩, hfresh⟩
  | allocFailed loglen =>
    obtain ⟨rfl, rfl⟩ := Prod.mk.inj (Option.some.inj ha)
    exact ⟨_, rfl, ⟨hready, hlen, hidx, hsum, hring, hbuf⟩, hfresh⟩
  | zeroRing =>
    obtain ⟨rfl, rfl⟩ := Prod.mk.inj (Option.some.inj ha)
    refine ⟨c', ?_, ⟨hready, hlen, hidx, hsum, hring, hbuf⟩, hfresh⟩
    rw [Action.perform, Channel.smoothRealsize, Channel.smoothRealsize, hlen]
  | zero i m =>
    rw [Action.perform] at ha ⊢
    rw [hring]
    split at ha
    · split at ha
      · next hi hcell =>
          obtain ⟨rfl, rfl⟩ := Prod.mk.inj (Option.some.inj ha)
          rw [if_pos hi, if_pos hcell]
          exact ⟨_, rfl, ⟨hready, hlen, hidx, hsum, rfl, hbuf⟩, hfresh⟩
      · cases ha
    · next hi =>
        obtain ⟨rfl, rfl⟩ := Prod.mk.inj (Option.some.inj ha)
        exact ⟨_, if_neg hi, ⟨hready, hlen, hidx, hsum, hring, hbuf⟩, hfresh⟩
  | bufFlush =>
    obtain ⟨rfl, rfl⟩ := Prod.mk.inj (Option.some.inj ha)
    exact ⟨_, rfl, ⟨hready, hlen, hidx, hsum, hring, congrArg bufFlush hbuf⟩, hfresh⟩

/-- An update or a flush leads to a good state, whatever the handler does for other channels in
between. -/
theorem Settles.moved {rest : List Action} {ch : Channel} (h : Settles rest ch) :
    ∀ {ch' : Channel}, Moved ch ch' → Settles rest ch' := by
  induction h with
  | rest hoff hqueue hringed =>
    intro ch' hmoved
    have hoff' : ¬ Live ch' := fun hlive => hoff (hmoved.ring.live.mp hlive)
    have hqueue' := hqueue.cold hoff' (held ch') [] []
    rw [← hmoved.ring.buf] at hqueue'
    exact .rest hoff' (hqueue'.cold hoff' _ _ _) (hringed.unfresh hmoved.ring hmoved.fresh)
  | perform ha _ ih =>
    intro ch' hmoved
    obtain ⟨ch'', ha', hmoved'⟩ := hmoved.perform ha
    exact .perform ha' (ih hmoved')

/-! ### Runs -/

/-- What a run keeps. The sequence of the device is that of the last update, the samples returned
were means, and the channel is good or will be at the end of an update or a flush. -/
structure Sound (id : Fin n) (s : State n) : Prop where
  kept : Kept (s.ch.toDev id s.dev)
  results : ∀ res ∈ s.results, res.IsMean
  channel : (∃ a rest, s.pc = .reset (a :: rest) ∧ Settles (a :: rest) s.ch) ∨
    ∃ gone r stored, Processing s gone r stored

variable {s : State n}

theorem Sound.processing (h : Sound id s) (hpc : s.pc.isResetting = false) :
    ∃ gone r stored, Processing s gone r stored := by
  rcases h.channel with ⟨a, rest, hcons, -⟩ | hprocessing
  · rw [hcons] at hpc
    cases hpc
  · exact hprocessing

theorem Pc.eq_of_isIdle {pc : Pc} (h : pc.isIdle = true) : pc = .reset [] := by
  cases pc with
  | reset rest =>
    cases rest with
    | nil => rfl
    | cons a rest => cases h
  | _ => cases h

theorem Pc.eq_of_isBefore {pc : Pc} (h : pc.isBefore = true) : pc = .reset [] ∨ pc = .process := by
  cases pc with
  | reset rest =>
    cases rest with
    | nil => exact .inl rfl
    | cons a rest => cases h
  | process => exact .inr rfl
  | _ => cases h

/-- With nothing left to do, what settled is good. -/
theorem Settles.processing (h : Settles [] s.ch) (hpc : s.pc = .reset []) :
    ∃ gone r stored, Processing s gone r stored := by
  obtain ⟨ch, dev, pc, sample, arrived, results⟩ := s
  subst hpc
  cases h with
  | rest hoff hqueue hringed => exact ⟨_, _, _, hqueue.cold hoff _ _ _, hringed⟩

/-- The statements that are left of an update or a flush, if any are. -/
theorem Settles.sound {rest : List Action} (h : Settles rest s.ch) (hpc : s.pc = .reset rest) :
    (∃ a rest, s.pc = .reset (a :: rest) ∧ Settles (a :: rest) s.ch) ∨
      ∃ gone r stored, Processing s gone r stored := by
  cases rest with
  | nil => exact .inr (h.processing hpc)
  | cons a rest => exact .inl ⟨a, rest, hpc, h⟩

/-- A call of the program. -/
theorem sound_call (nullId : Nat) (h : Sound id s) (op : Op) :
    ∃ s', s.step nullId id (.call op) = some s' ∧ Sound id s' := by
  by_cases hidle : s.pc.isIdle = true
  · refine ⟨_, congrArg some (if_pos hidle), h.kept, h.results, ?_⟩
    have hpc := Pc.eq_of_isIdle hidle
    obtain ⟨gone, r, stored, hqueue, hat⟩ := h.processing (by rw [hpc]; rfl)
    rw [hpc] at hqueue hat
    -- an update or a flush will settle, as no sample of the channel may come before its end
    cases op with
    | update loglen alloc =>
      exact Settles.sound (s := { s with pc := .reset (adcUpdateSmoothing loglen alloc) })
        (settles_update (Nat.le_of_lt_succ loglen.isLt) alloc hat hqueue) rfl
    | flush =>
      have hflush : Settles (adcFlushSmoothing ++ []) s.ch :=
        settles_flush ⟨.inl rfl, _, _, _, _, _, _, hqueue⟩ hat.le
          (fun hpos => (hat.on hpos).length)
      rw [List.append_nil] at hflush
      exact Settles.sound (s := { s with pc := .reset adcFlushSmoothing }) hflush rfl
    | process => exact .inr ⟨gone, r, stored, hqueue, hat⟩
  · exact ⟨s, congrArg some (if_neg hidle), h⟩

/-- No statement of an update or a flush moves the value. -/
theorem Action.perform_valuePtr {a : Action} {rest rest' : List Action}
    (h : a.perform rest c = some (rest', c')) : c'.valuePtr = c.valuePtr := by
  cases a with
  | stop =>
    obtain ⟨-, rfl⟩ := Prod.mk.inj (Option.some.inj h)
    split <;> rfl
  | resize loglen alloc =>
    rw [Action.perform] at h
    split at h <;> obtain ⟨-, rfl⟩ := Prod.mk.inj (Option.some.inj h) <;> rfl
  | realloc loglen alloc =>
    cases alloc <;> obtain ⟨-, rfl⟩ := Prod.mk.inj (Option.some.inj h) <;> rfl
  | zero i m =>
    rw [Action.perform] at h
    split at h
    · split at h
      · obtain ⟨-, rfl⟩ := Prod.mk.inj (Option.some.inj h)
        rfl
      · cases h
    · obtain ⟨-, rfl⟩ := Prod.mk.inj (Option.some.inj h)
      rfl
  | _ =>
    obtain ⟨-, rfl⟩ := Prod.mk.inj (Option.some.inj h)
    rfl

/-- A step of the program leaves the value where it is, and the sequence. -/
theorem go_keeps {s' : State n} (h : s.go id = some s') :
    s'.ch.valuePtr = s.ch.valuePtr ∧
      (s'.dev = s.dev ∨ s'.dev = Device.platformAdcStop id (s.ch.toDev id s.dev)) := by
  obtain ⟨ch, dev, pc, sample, arrived, results⟩ := s
  cases pc with
  | reset rest =>
    cases rest with
    | nil =>
      obtain rfl := Option.some.inj h
      exact ⟨rfl, .inl rfl⟩
    | cons a rest =>
      obtain ⟨⟨rest', ch'⟩, ha, hs⟩ := Option.bind_eq_some_iff.mp h
      obtain rfl := Option.some.inj hs
      refine ⟨Action.perform_valuePtr ha, ?_⟩
      cases a with
      | stop =>
        dsimp only [Action.onDevice]
        split
        · exact .inr rfl
        · exact .inl rfl
      | _ => exact .inl rfl
  | smoothOut =>
    obtain ⟨ch', hout, hs⟩ := Option.bind_eq_some_iff.mp h
    obtain rfl := Option.some.inj hs
    exact ⟨(smoothOut_keeps hout).1.valuePtr, .inl rfl⟩
  | smoothIn =>
    obtain ⟨ch', hin, hs⟩ := Option.bind_eq_some_iff.mp h
    obtain rfl := Option.some.inj hs
    exact ⟨(smoothIn_keeps hin).1.valuePtr, .inl rfl⟩
  | readBuf smooth phase =>
    obtain ⟨⟨res, buf⟩, -, hs⟩ := Option.bind_eq_some_iff.mp h
    obtain rfl := Option.some.inj hs
    cases res <;> exact ⟨rfl, .inl rfl⟩
  | _ =>
    obtain rfl := Option.some.inj h
    exact ⟨rfl, .inl rfl⟩

/-- A step of the program keeps the sequence of the last update. -/
theorem Sound.kept_go {s' : State n} (h : Sound id s) (hgo : s.go id = some s') :
    Kept (s'.ch.toDev id s'.dev) := by
  obtain ⟨hptr, hdev⟩ := go_keeps hgo
  have hvalue : Function.update (s.ch.toDev id s.dev).valuePtr id s'.ch.valuePtr =
      (s.ch.toDev id s.dev).valuePtr := by
    rw [hptr]
    exact Function.update_idem ..
  rcases hdev with heq | heq
  · refine h.kept.same ⟨?_, ?_, ?_, ?_⟩ (.inl ?_) <;> rw [heq]
    · rfl
    · rw [← hvalue]
      exact (Function.update_idem ..).symm
    all_goals rfl
  · -- the channel was stopped
    obtain ⟨⟨hstate, hptr', hlast, hlen⟩, hctr⟩ := sameSequence_stop id (s.ch.toDev id s.dev)
    refine h.kept.same ⟨?_, ?_, ?_, ?_⟩ (.inl ?_) <;> rw [heq]
    · exact hstate
    · rw [← hvalue]
      exact congrArg (Function.update · id s'.ch.valuePtr) hptr'
    · exact hlast
    · exact hlen
    · exact hctr

/-- A step of the program. -/
theorem sound_go (nullId : Nat) (h : Sound id s) :
    ∃ s', s.step nullId id .go = some s' ∧ Sound id s' := by
  rcases h.channel with ⟨a, rest, hpc, hsettles⟩ | ⟨gone, r, stored, hprocessing⟩
  · -- the program has only one way to go on
    obtain ⟨ch, dev, pc, sample, arrived, results⟩ := s
    subst hpc
    cases hsettles with
    | @perform _ ch' _ _ rest' ha hsettles' =>
      have hgo : State.go id ⟨ch, dev, .reset (a :: rest), sample, arrived, results⟩ =
          some ⟨ch', a.onDevice id ch dev, .reset rest', sample, arrived, results⟩ := by
        simp only [State.go, ha, Option.bind_eq_bind, Option.bind_some, Option.pure_def]
      exact ⟨_, hgo, h.kept_go hgo, h.results, hsettles'.sound rfl⟩
  · obtain ⟨s', gone', r', stored', hgo, hprocessing', hresults⟩ := processing_go hprocessing
    refine ⟨s', hgo, h.kept_go hgo, fun res hres => ?_, .inr ⟨gone', r', stored', hprocessing'⟩⟩
    rcases hresults with hsame | ⟨new, hnew, hmean⟩
    · exact h.results res (hsame ▸ hres)
    · rw [hnew, List.mem_append, List.mem_singleton] at hres
      cases hres with
      | inl hold => exact h.results res hold
      | inr heq => exact heq ▸ hmean

/-! ### The device between two calls -/

/-- A call on the device, which may update the sequence. -/
theorem deviceCall_follows {nullId : Nat} {d d' : Dev n} {call : DeviceCall n}
    (h : Device.step nullId (c.toDev id d) call.event = some d') :
    (call.leave id c d').toDev id d' = d' ∧
      Follows c (call.leave id c d') (call.event.replaces (c.toDev id d) id) := by
  have hsync := synced_toDev c id d
  -- the state of the channel is the device's, but for the samples requested
  have hleave (hf : Follows c (c.ofDev id d') (call.event.replaces (c.toDev id d) id)) :
      (call.leave id c d').toDev id d' = d' ∧
        Follows c (call.leave id c d') (call.event.replaces (c.toDev id d) id) := by
    have hplain := (synced_ofDev c id d').toDev
    cases call with
    | setup j =>
      rw [DeviceCall.leave]
      split
      · exact ⟨hplain, ⟨hf.ring.smoothReady, hf.ring.logsmoothlen, hf.ring.smoothidx,
          hf.ring.smoothsum, hf.ring.smoothbuf, hf.ring.buf⟩, hf.fresh, hf.value⟩
      · exact ⟨hplain, hf⟩
    | _ => exact ⟨hplain, hf⟩
  refine hleave ?_
  -- what does not update the sequence leaves the value
  have hsame (hptr : d'.valuePtr id = c.valuePtr) (hval : d'.valueFresh id = c.valueFresh) :
      Follows c (c.ofDev id d') (call.event.replaces (c.toDev id d) id) :=
    ⟨⟨rfl, rfl, rfl, rfl, rfl, rfl⟩, fun hf => hval ▸ hf, fun _ => ⟨hval, by
      rw [Channel.value, Channel.value, show (c.ofDev id d').valuePtr = c.valuePtr from hptr]
      rfl⟩⟩
  cases call with
  | setup j =>
    obtain rfl := Option.some.inj h
    exact hsame hsync.valuePtr hsync.valueFresh
  | stop j =>
    obtain rfl := Option.some.inj h
    refine hsame ?_ ?_
    · rw [(sameSequence_stop j _).1.valuePtr]
      exact hsync.valuePtr
    · rw [platformAdcStop_valueFresh]
      exact hsync.valueFresh
  | start =>
    obtain rfl := Option.some.inj h
    rw [Device.platformAdcStartSequence] at hsame ⊢
    split
    · next hrun =>
        rw [if_pos hrun] at hsame
        exact hsame hsync.valuePtr hsync.valueFresh
    · next hrun =>
        rw [DeviceCall.event, Device.Event.replaces, Device.Event.entry, if_neg hrun]
        exact hsync.update nullId
  | force =>
    obtain rfl := Option.some.inj h
    exact hsame hsync.valuePtr hsync.valueFresh

theorem sound_device (nullId : Nat) (h : Sound id s) (call : DeviceCall n)
    (hok : s.Undisturbed id (.device call)) :
    ∃ s', s.step nullId id (.device call) = some s' ∧ Sound id s' := by
  by_cases hidle : s.pc.isIdle = true
  · obtain ⟨d', hstep⟩ : ∃ d', Device.step nullId (s.ch.toDev id s.dev) call.event = some d' := by
      cases call <;> exact ⟨_, rfl⟩
    obtain ⟨hsynced, hfollows⟩ := deviceCall_follows hstep
    have hs : s.step nullId id (.device call) =
        some { s with ch := call.leave id s.ch d', dev := d' } := by
      rw [State.step, if_pos hidle, hstep]
      rfl
    obtain ⟨gone, r, stored, hprocessing⟩ := h.processing (by rw [Pc.eq_of_isIdle hidle]; rfl)
    refine ⟨_, hs, ?_, h.results, .inr ⟨gone, r, stored, ?_⟩⟩
    · show Kept ((call.leave id s.ch d').toDev id d')
      rw [hsynced]
      exact h.kept.step hstep
    · refine hprocessing.move hfollows.ring hfollows.fresh (fun hwaits => ?_) d'
      obtain ⟨hfresh, hvalue⟩ := hfollows.value (hok hidle hwaits)
      exact ⟨hfresh.trans (State.fresh_of_valueWaits hwaits), hvalue⟩
  · exact ⟨s, if_neg hidle, h⟩

/-! ### The handler -/

theorem place_eq_none_iff : s.place id = none ↔ ∀ k < s.dev.seqLen, s.dev.chState k ≠ some id := by
  rw [State.place, List.find?_eq_none]
  simp only [List.mem_range, decide_eq_true_eq]

theorem place_eq_some (h : s.place id = some p) : p < s.dev.seqLen ∧ s.dev.chState p = some id := by
  have hfound := List.find?_some h
  exact ⟨List.mem_range.mp (List.mem_of_find?_eq_some h), of_decide_eq_true hfound⟩

/-- A channel has one place in the sequence, and its value is there. -/
theorem Kept.place {d : Dev n} (h : Kept d) (hp : d.chState p = some id) :
    d.valuePtr id = some p ∧ ∀ m, d.chState m = some id → m = p := by
  have hnodup : (Device.activeChannels d.lastChActive : List (Fin n)).Nodup :=
    (List.nodup_finRange n).filter _
  rw [h.entries] at hp
  refine ⟨h.slots p id hp, fun m hm => ?_⟩
  rw [h.entries] at hm
  obtain ⟨hlt, -⟩ := List.getElem?_eq_some_iff.mp hm
  exact (List.getElem?_inj hlt hnodup).mp (hm.trans hp.symm)

/-- A run of the handler that has no sample of the channel. -/
theorem sound_outside (nullId : Nat) (h : Sound id s) (i : Interrupt n)
    (hplace : s.place id = none)
    (hok : s.valueWaits = true → (∀ k < s.dev.seqLen, s.ch.valuePtr ≠ some k) ∧
      (Device.Event.interrupt i.others).replaces (s.ch.toDev id s.dev) id = false) :
    ∃ s', s.step nullId id (.interrupt i) = some s' ∧ Sound id s' := by
  obtain ⟨c', b, hhandler, hsync, hb, hfollows⟩ :=
    handler_outside nullId i (c := s.ch) (place_eq_none_iff.mp hplace)
  generalize hd : Device.adcIntHandler nullId i.others (s.ch.toDev id s.dev) = d'
    at hhandler hsync
  have hstep : s.step nullId id (.interrupt i) = some { s with ch := c', dev := d' } := by
    rw [State.step, hhandler, hplace]
    simp
  have hmoved : Moved s.ch c' :=
    have ⟨hready, hlen, hidx, hsum, hring, hbuf⟩ := hfollows.ring
    ⟨⟨hready, hlen, hidx, hsum, hring, hbuf⟩, hfollows.fresh⟩
  have hkept : Kept (c'.toDev id d') := by
    rw [hsync.toDev, ← hd]
    exact h.kept.step (e := .interrupt i.others) rfl
  refine ⟨_, hstep, hkept, h.results, ?_⟩
  rcases h.channel with ⟨a, rest, hpc, hsettles⟩ | ⟨gone, r, stored, hprocessing⟩
  · exact .inl ⟨a, rest, hpc, hsettles.moved hmoved⟩
  · refine .inr ⟨gone, r, stored, hprocessing.move hmoved.ring hmoved.fresh (fun hwaits => ?_) d'⟩
    -- no sample was stored where the value is, and it has not moved
    obtain ⟨hcell, hreplaces⟩ := hok hwaits
    obtain ⟨hfresh, hvalue⟩ := hfollows.value hreplaces
    refine ⟨hfresh.trans (State.fresh_of_valueWaits hwaits), hvalue.trans ?_⟩
    rw [Channel.value, Channel.value]
    dsimp only
    cases hptr : s.ch.valuePtr with
    | none => rfl
    | some k =>
      have hk : s.dev.seqLen ≤ k := Nat.le_of_not_lt fun hlt => hcell k hlt hptr
      exact hb k hk

/-- A run of the handler that has a sample of the channel. -/
theorem sound_inside (nullId : Nat) (h : Sound id s) (i : Interrupt n)
    (hplace : s.place id = some p) (hadmits : s.Admits) (hstays : s.staysInValue = true →
      (Device.Event.interrupt (i.sampled id false (!s.ch.freerunning))).replaces
        (s.ch.toDev id s.dev) id = false) :
    ∃ s', s.step nullId id (.interrupt i) = some s' ∧ Sound id s' := by
  obtain ⟨hp, hown⟩ := place_eq_some hplace
  obtain ⟨hptr, honly⟩ := h.kept.place (p := p) hown
  have hptr : s.ch.valuePtr = some p := (synced_toDev s.ch id s.dev).valuePtr.symm.trans hptr
  obtain ⟨b, hb, hhandler⟩ := handler_inside nullId i (c := s.ch) hp hown honly
  have hv : (brought s.ch b).value = i.tmpbuff p := by
    rw [← hb, Channel.value, show (brought s.ch b).valuePtr = some p from hptr]
    rfl
  obtain ⟨hresetting, hadmits⟩ := hadmits
  obtain ⟨gone, r, stored, hqueue, hat⟩ := h.processing hresetting
  -- what is left to show, once the sample was handled
  have hdone {c₂ : Channel} (hstore : smoothOrWrite (brought s.ch b) = some c₂)
      {gone' : List UInt16} {r' : Nat} {stored' : List (List UInt8)}
      (hprocessing : Processing { s with ch := c₂, arrived := s.arrived ++ [i.tmpbuff p] }
        gone' r' stored')
      (hkeep : c₂.valueFresh = true → 0 < c₂.logsmoothlen → c₂.smoothReady = true →
        c₂.value = (brought s.ch b).value ∧
        (Device.Event.interrupt (i.sampled id (!c₂.valueFresh) c₂.enough)).replaces
          (s.ch.toDev id s.dev) id = false) :
      ∃ s', s.step nullId id (.interrupt i) = some s' ∧ Sound id s' := by
    obtain ⟨c', b', op, hrun, hsync, hb', hfollows⟩ := hhandler c₂ hstore
    generalize hd : Device.adcIntHandler nullId _ (s.ch.toDev id s.dev) = d' at hrun hsync
    have hstep : s.step nullId id (.interrupt i) =
        some { s with ch := c', dev := d', arrived := s.arrived ++ [i.tmpbuff p] } := by
      rw [State.step, hrun, hplace]
      rfl
    have hkept : Kept (c'.toDev id d') := by
      rw [hsync.toDev, ← hd]
      exact h.kept.step (e := .interrupt _) rfl
    obtain ⟨hready, hlen, hidx, hsum, hring, hbuf⟩ := hfollows.ring
    refine ⟨_, hstep, hkept, h.results, .inr ⟨gone', r', stored', ?_⟩⟩
    refine hprocessing.move (show SameRing c₂ c' from ⟨hready, hlen, hidx, hsum, hring, hbuf⟩)
      hfollows.fresh
      (fun hwaits => ?_) d'
    obtain ⟨hpos, hwarm, hfresh⟩ := State.of_valueWaits hwaits
    obtain ⟨hsame, hreplaces⟩ := hkeep hfresh hpos hwarm
    obtain ⟨hfresh', hvalue⟩ := hfollows.value hreplaces
    refine ⟨hfresh'.trans hfresh, hvalue.trans ?_⟩
    have hptr₂ : c₂.valuePtr = some p := (smoothOrWrite_keeps hstore).valuePtr.trans hptr
    show ((c₂.valuePtr.map b').getD 0) = c₂.value
    rw [hsame, hv, hptr₂, ← hb]
    exact hb'
  by_cases hwarm : s.ch.warming = true
  · -- the sample goes into the ring at once, so the buffer has to be empty
    rw [if_pos hwarm] at hadmits
    have hstored : stored = [] := by
      rw [← List.length_eq_zero_iff, ← hqueue.hold.count]
      exact hadmits.2
    subst hstored
    have hringed : Ringed (ringOf s.ch) s.ch.valueFresh gone ∧
        Waiting s.ch .idle s.arrived gone r [] := by
      rcases Pc.eq_of_isBefore hadmits.1 with hpc | hpc <;>
      · rw [hpc] at hqueue hat
        exact ⟨hat, hqueue⟩
    obtain ⟨c₂, hstore, hfresh, hqueue', hringed'⟩ := sample_warms hwarm hringed.2 hringed.1 hv
    have hprocessing : Processing { s with ch := c₂, arrived := s.arrived ++ [i.tmpbuff p] }
        (s.arrived ++ [i.tmpbuff p]) r [] := by
      obtain ⟨ch, dev, pc, sample, arrived, results⟩ := s
      rcases Pc.eq_of_isBefore hadmits.1 with rfl | rfl <;> exact ⟨hqueue', hringed'⟩
    refine hdone hstore hprocessing fun hf => ?_
    rw [hfresh] at hf
    cases hf
  · rw [if_neg hwarm] at hadmits
    obtain ⟨c₂, stored', hstore, hvalue, hqueue', hat'⟩ :=
      sample_waits (Bool.eq_false_iff.mpr hwarm) hadmits.1 hadmits.2 hqueue hat hv
    have hprocessing : Processing { s with ch := c₂, arrived := s.arrived ++ [i.tmpbuff p] }
        gone r stored' := ⟨hqueue', hat'⟩
    refine hdone hstore hprocessing fun hf hpos hready => ?_
    obtain ⟨rfl, hreq⟩ := hvalue hf
    refine ⟨rfl, ?_⟩
    -- one sample is there, which is enough
    have henough : (brought s.ch b).enough = !s.ch.freerunning := by
      have havail : s.ch.reqsamples ≤ adcSamplesAvailable (brought s.ch b) := by
        rw [adcSamplesAvailable]
        split
        · exact hreq
        · next hcount => exact hreq.trans (Nat.pos_of_ne_zero hcount)
      have havail : adcSamplesAvailable (brought s.ch b) ≥ (brought s.ch b).reqsamples := havail
      rw [Channel.enough, decide_eq_true havail, Bool.true_and]
      rfl
    rw [henough]
    refine hstays ?_
    have hpos : 0 < s.ch.logsmoothlen := hpos
    have hready : s.ch.smoothReady = true := hready
    rw [State.staysInValue, hready, decide_eq_true hpos, decide_eq_true hreq]
    rfl

theorem sound_step (nullId : Nat) (s : State n) (e : Event n) (h : Sound id s)
    (hok : s.Undisturbed id e) : ∃ s', s.step nullId id e = some s' ∧ Sound id s' := by
  cases e with
  | call op => exact sound_call nullId h op
  | go => exact sound_go nullId h
  | device call => exact sound_device nullId h call hok
  | interrupt i =>
    rw [State.Undisturbed] at hok
    cases hplace : s.place id with
    | none =>
      rw [hplace, Option.isSome_none, if_neg Bool.false_ne_true] at hok
      exact sound_outside nullId h i hplace hok
    | some p =>
      rw [hplace, if_pos Option.isSome_some] at hok
      exact sound_inside nullId h i hplace hok.1 hok.2

theorem Ringed.consistent (h : Ringed (ringOf c) c.valueFresh gone) : c.Consistent where
  ring := fun hpos => ⟨(h.on hpos).length, (h.on hpos).sum⟩
  index := by
    by_cases hpos : 0 < c.logsmoothlen
    · exact (h.on hpos).idx_le
    · rw [show c.smoothidx = 0 from (h.off (Nat.eq_zero_of_not_pos hpos)).1]
      exact Nat.zero_le _
  null := by
    intro hnull
    by_contra hne
    have hlen : c.smoothbuf.length = 2 ^ c.logsmoothlen := (h.on (Nat.pos_of_ne_zero hne)).length
    rw [hnull] at hlen
    exact absurd hlen.symm (Nat.ne_of_gt (Nat.two_pow_pos _))
  off := h.off

theorem Sound.holds (h : Sound id s) : s.Smooths where
  consistent := by
    intro hidle
    have hpc := Pc.eq_of_isIdle hidle
    obtain ⟨gone, r, stored, -, hat⟩ := h.processing (by rw [hpc]; rfl)
    rw [hpc] at hat
    exact Ringed.consistent hat
  results := h.results

/-- A channel without smoothing, in a device that was just initialised. -/
theorem sound_start {sz : Size} (htwo : sz.logdsize = 1) (hsz : sz.logsize ≠ BUF_SIZE_NONE)
    (m : Mem) (opPending freerunning : Bool) (reqsamples : Nat) (sampleBuf : Nat → UInt16) :
    Sound id { ch := .start sz m opPending freerunning reqsamples sampleBuf } where
  kept := by
    have hnone : Function.update (fun _ : Fin n => (none : Option Nat)) id none = fun _ => none :=
      Function.update_eq_self (f := fun _ : Fin n => (none : Option Nat)) id
    exact kept_init.same ⟨rfl, hnone, rfl, rfl⟩ (.inl rfl)
  results := fun res hres => absurd hres List.not_mem_nil
  channel := by
    refine .inr ⟨[], 0, [], ?_, ?_⟩
    · exact { hold := holding_start hsz m
              inPhase := by simp [InPhase, readPhase, Channel.start, bufSet]
              two := htwo
              arrived := fun _ => rfl, newest := fun _ => .inl rfl }
    · exact { le := Nat.zero_le _, on := fun h => absurd h (Nat.lt_irrefl 0),
              off := fun _ => ⟨rfl, rfl, rfl⟩, stale := fun _ _ => rfl }

/-- Any calls, with any reallocations failing, any use of the device between them, and any
interrupts that disturb nothing, from a channel without smoothing: no access is outside the ring or
the buffer, the smoothing is consistent between two calls, and every sample returned is the mean of
the last ones in the order of arrival. -/
theorem smooths (nullId : Nat) (id : Fin n) {sz : Size} (htwo : sz.logdsize = 1)
    (hsz : sz.logsize ≠ BUF_SIZE_NONE) (m : Mem) (opPending freerunning : Bool) (reqsamples : Nat)
    (sampleBuf : Nat → UInt16) {es : List (Event n)}
    (hok : Lib.Run.AllSteps (State.step nullId id) (State.Undisturbed id)
      { ch := .start sz m opPending freerunning reqsamples sampleBuf } es) :
    ∃ s, Lib.Run.run (State.step nullId id)
      { ch := .start sz m opPending freerunning reqsamples sampleBuf } es = some s ∧
        s.Smooths := by
  obtain ⟨s, hrun, hsound⟩ := Lib.Run.progress_run (sound_step nullId) es _
    (sound_start htwo hsz m opPending freerunning reqsamples sampleBuf) hok
  exact ⟨s, hrun, hsound.holds⟩

/-- Eight elements of two bytes. -/
def eightSamples : Size := ⟨3, 1, by decide, by decide⟩

/-- The samples of a sequence of two channels, of which the second has not enough. -/
def twoSamples (v w : UInt16) : Interrupt 4 where
  tmpbuff := fun k => if k = 0 then v else w
  others := ⟨fun _ => true, fun _ => false⟩

/-- An update of channel 0 to a ring of two, which is then sampled with channel 1. -/
def updateAndStart : List (Event 4) :=
  .call (.update 1 (some fun _ => 7)) :: List.replicate 13 .go ++
    [.device (.setup 0), .device (.setup 1), .device .start]

/-- Three samples that warm up the ring and one more, which is processed. -/
def oneMean : List (Event 4) :=
  updateAndStart ++ [.interrupt (twoSamples 10 1), .interrupt (twoSamples 20 2),
    .interrupt (twoSamples 30 3), .interrupt (twoSamples 41 4), .call .process] ++
    List.replicate 14 .go

/-- A ring of two warms up while channel 1 is sampled too, and one
more sample of channel 0 is processed. -/
theorem smooths_oneMean : ∃ s, Lib.Run.run (State.step 7 0)
    { ch := .start eightSamples (fun _ => 0) false true 0 (fun _ => 0) } oneMean = some s ∧
      s.Smooths :=
  smooths 7 0 rfl (by decide) (fun _ => 0) false true 0 (fun _ => 0) (by decide)

/-- An update to the length that there is, with a sample before the ring is filled with zeros.
Channel 1 keeps the sequencer going. -/
def interruptedUpdate : List (Event 4) :=
  updateAndStart ++ .call (.update 1 none) :: List.replicate 5 .go ++
    .interrupt (twoSamples 10 1) :: List.replicate 6 .go

/-- An interrupt for the channel while an update fills its ring: the
sum is 10 then, and there are two zeros in the ring. -/
theorem not_smooths : ∃ s, Lib.Run.run (State.step 7 0)
    { ch := .start eightSamples (fun _ => 0) false true 0 (fun _ => 0) } interruptedUpdate = some s ∧
      ¬ s.Smooths := by
  obtain ⟨s, hrun, heq⟩ := Option.map_eq_some_iff.mp
    (show (Lib.Run.run (State.step 7 0)
      { ch := .start eightSamples (fun _ => 0) false true 0 (fun _ => 0) } interruptedUpdate).map
        (fun s => (s.pc.isIdle, s.ch.logsmoothlen, s.ch.smoothsum, s.ch.smoothbuf)) =
      some (true, 1, 10, [0, 0]) by decide)
  simp only [Prod.mk.injEq] at heq
  obtain ⟨hidle, hlen, hsum, hring⟩ := heq
  refine ⟨s, hrun, fun hsmooths => ?_⟩
  have hsame := ((hsmooths.consistent hidle).ring (by omega)).2
  rw [hsum, hring] at hsame
  exact absurd hsame (by decide)

end Alcor.Proofs.Adc
