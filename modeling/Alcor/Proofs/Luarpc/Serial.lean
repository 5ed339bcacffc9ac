import Alcor.Luarpc.Sessions

/-!
# `Alcor.Proofs.Luarpc.Serial`: what the serial transport loses

Two steps lose a byte: a poll that takes a 0 from the UART, and a read
that expires behind its first byte.

* `step_exact`: every other step keeps the stream together, and these two
  do not.
* `lossless_iff`: so nothing is lost in a run exactly if all of its steps
  are careful.
-/

set_option autoImplicit false

namespace Alcor.Proofs.Luarpc

open Alcor.Luarpc Lib.Run

variable {t' : SerialTransport}
variable {t : SerialTransport}

/-- The step keeps the stream together exactly if it is a careful one. -/
def SerialExact (t : SerialTransport) (e : SerialEvent) : Prop :=
  t.Careful e ↔ ∀ t', t.step e = some t' → t'.Lossless

theorem serialExact_of_some {e : SerialEvent} (ht' : t.step e = some t')
    (h : t.Careful e ↔ t'.Lossless) : SerialExact t e := by
  rw [SerialExact, ht']
  simp only [Option.some.injEq, forall_eq']
  exact h

theorem arrive_exact (h : t.Lossless) (b : UInt8) : SerialExact t (.arrive b) := by
  refine serialExact_of_some rfl ⟨fun _ => ⟨?_, h.polls⟩, fun _ => trivial⟩
  show t.arrived ++ [b] = t.returned ++ t.underWay ++ t.polled ++ (t.uart ++ [b])
  rw [h.stream, List.append_assoc]

/-- A poll, with its answer. -/
theorem poll_step {c : Int} (hreading : t.reading = none) (h : transportReadable t = (c, t')) :
    t.step .poll = some { t' with polls := t.polls ++ [⟨t.available, c⟩] } := by
  rw [SerialTransport.step, h, hreading]
  rfl

/-- One more poll, with the same stream. -/
theorem lossless_polled {p : PollCall} (h : t.Lossless) (hp : p.available = true → p.result = 1)
    (hstream : t'.arrived = t'.returned ++ t'.underWay ++ t'.polled ++ t'.uart) :
    SerialTransport.Lossless { t' with polls := t.polls ++ [p] } := by
  refine ⟨hstream, fun q hq => ?_⟩
  rw [List.mem_append, List.mem_singleton] at hq
  obtain hq | rfl := hq
  · exact h.polls q hq
  · exact hp

/-- A poll returns the next byte, and 0 when there is none: so it
loses a 0. -/
theorem poll_exact (h : t.Lossless) : SerialExact t .poll := by
  cases hreading : t.reading with
  | some r =>
    have hstep : t.step .poll = some t := by simp [SerialTransport.step, hreading]
    refine serialExact_of_some hstep ?_
    refine iff_of_true (fun hnone => ?_) h
    rw [hreading] at hnone
    cases hnone
  | none =>
    by_cases hstored : t.adispatchBuff ≥ 0
    · -- the byte was polled before
      have hreadable : transportReadable t = (1, t) := if_pos hstored
      refine serialExact_of_some (poll_step hreading hreadable) ?_
      refine iff_of_true (fun _ hneg => absurd hstored (Int.not_le.mpr hneg)) ?_
      exact lossless_polled h (fun _ => rfl) h.stream
    have hempty : t.polled = [] := if_pos (Int.not_le.mp hstored)
    have hreadable : transportReadable t =
        if (platformUartRecv t.uart).1 > 0 then
          (1, { t with
            uart := (platformUartRecv t.uart).2
            adispatchBuff := (platformUartRecv t.uart).1 })
        else (0, { t with uart := (platformUartRecv t.uart).2 }) := if_neg hstored
    have hstream := h.stream
    rw [hempty, List.append_nil] at hstream
    cases huart : t.uart with
    | nil =>
      -- nothing is there, and the answer says so
      have hnone : t.available = false := by
        simp [SerialTransport.available, hstored, huart]
      rw [huart, platformUartRecv, if_neg (by decide)] at hreadable
      refine serialExact_of_some (poll_step hreading hreadable) ?_
      rw [hnone]
      refine iff_of_true (fun _ _ => by simp [huart]) ?_
      refine lossless_polled h (fun hfalse => by cases hfalse) ?_
      show t.arrived = t.returned ++ t.underWay ++ t.polled ++ []
      rw [hstream, hempty, huart, List.append_nil, List.append_nil]
    | cons b uart =>
      have havailable : t.available = true := by
        simp [SerialTransport.available, huart]
      rw [huart, platformUartRecv] at hreadable
      by_cases hb : b = 0
      · -- the byte is gone, and the answer is 0
        subst hb
        rw [if_neg (show ¬ ((UInt8.toNat 0 : Int) > 0) by decide)] at hreadable
        refine serialExact_of_some (poll_step hreading hreadable) ?_
        rw [havailable]
        refine iff_of_false (fun hcareful => ?_) (fun hlossless => ?_)
        · exact hcareful hreading (Int.not_le.mp hstored) (by rw [huart]; rfl)
        · have hone :=
            hlossless.polls _ (List.mem_append_right _ (List.mem_singleton_self _)) rfl
          cases hone
      · have hpos : (0 : Int) < b.toNat := by
          have hne : b.toNat ≠ 0 := fun hzero => hb (UInt8.toNat_inj.mp hzero)
          omega
        rw [if_pos hpos] at hreadable
        refine serialExact_of_some (poll_step hreading hreadable) ?_
        refine iff_of_true (fun _ _ => ?_) (lossless_polled h (fun _ => rfl) ?_)
        · rw [huart, List.head?_cons, Ne, Option.some.injEq]
          exact hb
        · have hpolled : SerialTransport.polled { t with uart, adispatchBuff := b.toNat } =
              [b] := by
            simp [SerialTransport.polled]
          rw [hpolled]
          show t.arrived = t.returned ++ t.underWay ++ [b] ++ uart
          rw [hstream, huart, List.append_assoc _ [b], List.singleton_append]

theorem read_exact (h : t.Lossless) (length : Int) : SerialExact t (.read length) := by
  refine serialExact_of_some rfl (iff_of_true trivial ?_)
  split
  · exact h
  · next hnone =>
      have hreading : t.reading = none := by simpa using hnone
      refine ⟨?_, h.polls⟩
      have hstream := h.stream
      rw [SerialTransport.underWay, hreading] at hstream
      exact hstream

/-- One step of a read: it takes a byte, or expires with what it has. -/
theorem go_exact (h : t.Lossless) (expired : Bool) : SerialExact t (.go expired) := by
  refine serialExact_of_some rfl ?_
  cases hreading : t.reading with
  | none =>
    refine iff_of_true (fun r hr => ?_) h
    rw [hreading] at hr
    cases hr
  | some r =>
    have hstream := h.stream
    have hunder : t.underWay = r.buffer := by rw [SerialTransport.underWay, hreading]; rfl
    rw [hunder] at hstream
    have hcareful : t.Careful (.go expired) ↔ (r.buffer.length < r.length → t.adispatchBuff < 0 →
        t.uart = [] → r.buffer ≠ [] → expired = false) := by
      simp only [SerialTransport.Careful, hreading, Option.some.injEq, forall_eq']
    rw [hcareful]
    dsimp only
    rw [SerialTransport.readPass]
    by_cases hmore : (r.buffer.length : Int) < r.length
    · rw [if_pos hmore]
      by_cases hempty : t.adispatchBuff < 0
      · have hpolled : t.polled = [] := if_pos hempty
        rw [hpolled, List.append_nil] at hstream
        rw [if_pos hempty]
        cases huart : t.uart with
        | cons b uart =>
          -- a byte is read from the UART
          refine iff_of_true (fun _ _ hnil => by cases hnil) ⟨?_, h.polls⟩
          have hpolled' : SerialTransport.polled
              { t with uart, reading := some (r.store b.toNat) } = [] := if_pos hempty
          rw [hpolled', List.append_nil]
          show t.arrived =
            t.returned ++ (r.buffer ++ [UInt8.ofNat (b.toNat : Int).toNat]) ++ uart
          rw [hstream, huart, Int.toNat_natCast, UInt8.ofNat_toNat]
          simp
        | nil =>
          dsimp only
          by_cases hlost : expired = true ∧ r.buffer ≠ []
          · -- what was read so far is not returned
            rw [if_pos hlost]
            refine iff_of_false (fun hcare => ?_) (fun hlossless => ?_)
            · rw [hcare hmore hempty rfl hlost.2] at hlost
              cases hlost.1
            · have hnone : t.arrived = t.returned ++ [] ++ t.polled ++ [] :=
                hlossless.stream
              rw [hpolled, hstream, huart, List.append_nil, List.append_nil,
                List.append_nil, List.append_nil] at hnone
              exact hlost.2 (List.append_right_eq_self.mp hnone)
          · rw [if_neg hlost]
            refine iff_of_true (fun _ _ _ hne => ?_) h
            exact Bool.eq_false_iff.mpr fun hexpired => hlost ⟨hexpired, hne⟩
      · -- the byte that was polled
        have hpolled : t.polled = [UInt8.ofNat t.adispatchBuff.toNat] := if_neg hempty
        rw [if_neg hempty]
        refine iff_of_true (fun _ hneg => absurd hneg hempty) ⟨?_, h.polls⟩
        show t.arrived = t.returned ++ (r.buffer ++ [UInt8.ofNat t.adispatchBuff.toNat]) ++ [] ++
          t.uart
        rw [hstream, hpolled]
        simp
    · -- the read returns
      rw [if_neg hmore]
      refine iff_of_true (fun hlt => absurd hlt hmore) ⟨?_, h.polls⟩
      show t.arrived = t.returned ++ r.buffer ++ [] ++ t.polled ++ t.uart
      rw [List.append_nil]
      exact hstream

theorem step_exact (h : t.Lossless) (e : SerialEvent) : SerialExact t e := by
  cases e with
  | arrive b => exact arrive_exact h b
  | poll => exact poll_exact h
  | read length => exact read_exact h length
  | go expired => exact go_exact h expired

/-- In a run, whatever arrives and whenever the program polls or
reads, nothing is lost up to any of its states exactly if all of its
steps are careful: no poll takes the byte 0 from the UART, and no read
expires behind its first byte. -/
theorem lossless_iff (es : List SerialEvent) :
    (∀ xs ys t, es = xs ++ ys → run SerialTransport.step {} xs = some t → t.Lossless) ↔
      AllSteps SerialTransport.step SerialTransport.Careful {} es :=
  invariant_run_iff (J := fun _ => True) (fun _ _ _ _ _ => trivial)
    (fun _ e _ h => step_exact h e) es {} trivial ⟨rfl, fun _ hp => absurd hp List.not_mem_nil⟩

/-- A byte 0 arrives, and the program polls. -/
theorem not_always_lossless : ∃ t,
    run SerialTransport.step {} [.arrive 0, .poll, .arrive 7, .read 1, .go false, .go false] =
      some t ∧ t.arrived = [0, 7] ∧ t.returned = [7] ∧ ¬ t.Lossless := by
  refine ⟨_, rfl, rfl, rfl, fun h => ?_⟩
  have hstream := h.stream
  revert hstream
  decide

end Alcor.Proofs.Luarpc
