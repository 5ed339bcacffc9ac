import Alcor.Proofs.Xmodem.Records

/-!
# `Alcor.Proofs.Xmodem.Reception`: what a reception that succeeds has stored

The line is any sequence of bytes and timeouts, one for each call of
the receive function. `Received heard payloads` is the purpose of the
receiver: among what was heard there are packets with the numbers 1,
2, 3 and so on, and these are their payloads.

* `pass_kept`: the step lemma. Every pass of the loop keeps the
  invariant `Inv`.
* `receive_sound`: no pass writes outside the block, and the block holds
  the payloads when the call returns a length.
* `receive_sound_two`: a reception of two packets, the second of which
  is asked for again.
-/

set_option autoImplicit false

namespace Alcor.Proofs.Xmodem

open Lib (Mem Buf)
open Alcor.Xmodem

variable {r : Receiver Nat} {how : Flush} {buf : List UInt8} {n : Int}

/-- A line on which the calls of the receive function give these values. -/
def line (input : Nat → Option UInt8) : Port Nat where
  inFunc _ n := (input n, n + 1)
  outFunc _ n := n

/-- What `n` calls give from the call number `p` on. -/
def heard (input : Nat → Option UInt8) (p n : Nat) : List (Option UInt8) :=
  (List.range' p n).map input

/-- The number of bytes of the first `n` calls. -/
def bytesReceived (input : Nat → Option UInt8) (n : Nat) : Nat :=
  ((heard input 0 n).filterMap id).length

theorem heard_add (input : Nat → Option UInt8) (p m n : Nat) :
    heard input p (m + n) = heard input p m ++ heard input (p + m) n := by
  rw [heard, heard, heard, ← List.map_append, List.range'_append_1]

theorem heard_succ (input : Nat → Option UInt8) (p n : Nat) :
    heard input p (n + 1) = input p :: heard input (p + 1) n := by
  rw [heard, List.range'_succ]
  rfl

theorem heard_split (input : Nat → Option UInt8) {p q : Nat} (h : p ≤ q) :
    heard input 0 q = heard input 0 p ++ heard input p (q - p) := by
  obtain ⟨n, rfl⟩ := Nat.exists_eq_add_of_le h
  rw [heard_add, Nat.zero_add, Nat.add_sub_cancel_left]

theorem bytesReceived_mono (input : Nat → Option UInt8) {p q : Nat} (h : p ≤ q) :
    bytesReceived input p ≤ bytesReceived input q := by
  rw [bytesReceived, bytesReceived, heard_split input h, List.filterMap_append, List.length_append]
  exact Nat.le_add_right _ _

/-- Among what was heard there are the packets of these payloads, in order and numbered from 1
on. -/
inductive Received : List (Option UInt8) → List (List UInt8) → Prop
  | start : Received [] []
  | other {hs ps} (x : Option UInt8) : Received hs ps → Received (hs ++ [x]) ps
  | packet {hs ps payload buf} :
      Received hs ps → IsPacket (UInt8.ofNat (ps.length + 1)) payload buf →
      Received (hs ++ (XM_SOH :: buf).map some) (ps ++ [payload])

namespace Received

variable {hs : List (Option UInt8)} {ps : List (List UInt8)}

theorem append (h : Received hs ps) (xs : List (Option UInt8)) : Received (hs ++ xs) ps := by
  induction xs generalizing hs with
  | nil => rwa [List.append_nil]
  | cons x xs ih =>
    have hx := ih (h.other x)
    rwa [List.append_assoc, List.singleton_append] at hx

/-- All payloads have the same length. -/
theorem length_flatten (h : Received hs ps) : ps.flatten.length = PACKET_SIZE * ps.length := by
  induction h with
  | start => rfl
  | other _ _ ih => exact ih
  | packet _ hpacket ih =>
    simp only [List.flatten_append, List.length_append, ih, List.flatten_singleton, hpacket.1,
      List.length_singleton, Nat.mul_add, Nat.mul_one]

/-- The payloads are a part of the bytes. -/
theorem length_le (h : Received hs ps) : PACKET_SIZE * ps.length ≤ (hs.filterMap id).length := by
  induction h with
  | start => exact Nat.le_refl _
  | other x _ ih =>
    rw [List.filterMap_append, List.length_append]
    omega
  | @packet hs ps payload buf _ hpacket ih =>
    obtain ⟨hlen, hi, lo, rfl, -⟩ := hpacket
    rw [List.filterMap_append, List.length_append, List.length_append, List.length_singleton]
    simp only [List.filterMap_map, Function.id_comp, List.filterMap_some, List.length_cons,
      List.length_append, hlen, Nat.mul_add, Nat.mul_one]
    omega

end Received

/-! ### The functions of the receiver on a line -/

section Calls
variable {input : Nat → Option UInt8} {p q : Nat}

/-- A flush goes on along the line. -/
theorem flush_le {calls : Nat} (h : xmodemFlush (line input) calls how p = some q) : p ≤ q := by
  have hrun : ∀ n p q, Lib.Loop.run (flushStep (line input)) n p = some q → p ≤ q := by
    intro n
    induction n with
    | zero =>
      intro p q h
      cases h
    | succ n ih =>
      intro p q h
      cases hp : input p with
      | none =>
        have hstep : flushStep (line input) p = .inl (p + 1) := by simp [flushStep, line, hp]
        rw [Lib.Loop.run_succ_of_inl hstep, Option.some.injEq] at h
        omega
      | some b =>
        have hstep : flushStep (line input) p = .inr (p + 1) := by simp [flushStep, line, hp]
        rw [Lib.Loop.run_succ_of_inr hstep] at h
        exact Nat.le_of_succ_le (ih (p + 1) q h)
  rw [xmodemFlush, Option.map_eq_some_iff] at h
  obtain ⟨s, hs, heq⟩ := h
  have hle := hrun calls p s hs
  cases how <;> exact heq ▸ hle

/-- A packet that was read is what was heard. -/
theorem readPacket_some {n : Nat} (h : readPacket (line input) n p = (some buf, q)) :
    q = p + n ∧ buf.length = n ∧ heard input p n = buf.map some := by
  induction n generalizing p buf with
  | zero =>
    simp only [readPacket, Prod.mk.injEq, Option.some.injEq] at h
    obtain ⟨rfl, rfl⟩ := h
    exact ⟨rfl, rfl, rfl⟩
  | succ n ih =>
    cases hp : input p with
    | none => simp [readPacket, line, hp] at h
    | some ch =>
      cases hr : readPacket (line input) n (p + 1) with
      | mk rest s =>
        have hin : (line input).inFunc XMODEM_TIMEOUT p = (some ch, p + 1) := by
          simp [line, hp]
        rw [readPacket, hin] at h
        simp only [hr] at h
        cases rest with
        | none => simp at h
        | some bs =>
          simp only [Prod.mk.injEq, Option.some.injEq] at h
          obtain ⟨rfl, rfl⟩ := h
          obtain ⟨hq, hlen, hheard⟩ := ih hr
          refine ⟨by omega, by rw [List.length_cons, hlen], ?_⟩
          rw [heard_succ, hp, hheard, List.map_cons]

/-- Reading a packet goes on along the line. -/
theorem readPacket_le {n : Nat} {buf : Option (List UInt8)}
    (h : readPacket (line input) n p = (buf, q)) : p ≤ q := by
  induction n generalizing p q buf with
  | zero =>
    simp only [readPacket, Prod.mk.injEq] at h
    omega
  | succ n ih =>
    cases hp : input p with
    | none =>
      simp only [readPacket, line, hp, Prod.mk.injEq] at h
      omega
    | some ch =>
      cases hr : readPacket (line input) n (p + 1) with
      | mk rest s =>
        have hle := ih hr
        have hin : (line input).inFunc XMODEM_TIMEOUT p = (some ch, p + 1) := by
          simp [line, hp]
        rw [readPacket, hin] at h
        simp only [hr] at h
        cases rest <;> simp only [Prod.mk.injEq] at h <;> omega

theorem getRecord_le {number : UInt8} {buf : Option (List UInt8)}
    (h : xmodemGetRecord (line input) number p = (buf, q)) : p ≤ q := by
  cases hr : readPacket (line input) (PACKET_SIZE + 4) p with
  | mk rest s =>
    have hle := readPacket_le hr
    rw [xmodemGetRecord, hr] at h
    cases rest with
    | none =>
      simp only [line, Prod.mk.injEq] at h
      omega
    | some bs =>
      simp only [line] at h
      split at h <;> simp only [Prod.mk.injEq] at h <;> omega

/-- A record that was accepted is a packet that was heard. -/
theorem getRecord_some {number : UInt8}
    (h : xmodemGetRecord (line input) number p = (some buf, q)) :
    q = p + (PACKET_SIZE + 4) ∧ heard input p (PACKET_SIZE + 4) = buf.map some ∧
      IsPacket number ((buf.drop 2).take PACKET_SIZE) buf := by
  cases hr : readPacket (line input) (PACKET_SIZE + 4) p with
  | mk rest s =>
    rw [xmodemGetRecord, hr] at h
    cases rest with
    | none => simp at h
    | some bs =>
      simp only at h
      split at h
      · next hok =>
          simp only [Prod.mk.injEq, Option.some.injEq] at h
          obtain ⟨rfl, rfl⟩ := h
          obtain ⟨hq, hlen, hheard⟩ := readPacket_some hr
          exact ⟨hq, hheard, (recordOk_iff hlen).mp hok⟩
      · simp at h

end Calls

/-! ### The invariant -/

/-- What the variables of the receiver say about the payloads it has stored. -/
structure Stored {σ : Type} (ps : List (List UInt8)) (r : Receiver σ) : Prop where
  size : r.size.toNat = PACKET_SIZE * ps.length
  limit : r.limit.toNat = r.dest.size
  size_le : r.size.toNat ≤ r.limit.toNat
  limit_le : r.limit.toNat ≤ r.size.toNat + XMODEM_INITIAL_BUFFER_SIZE.toNat
  dest : r.dest.mem.Holds 0 ps.flatten

/-- Between two passes, as long as fewer than `2 ^ 31` bytes were received. -/
def Inv (input : Nat → Option UInt8) (r : Receiver Nat) : Prop :=
  bytesReceived input r.line < 2 ^ 31 →
    ∃ ps, Received (heard input 0 r.line) ps ∧ r.packnum = UInt8.ofNat (ps.length + 1) ∧
      Stored ps r

/-- What a call leaves: nothing was written outside the block, and a value that is not negative is
the length of the payloads in the block, with an end of transmission heard behind them. -/
def Sound (input : Nat → Option UInt8) (e : Exit) (r : Receiver Nat) : Prop :=
  bytesReceived input r.line < 2 ^ 31 →
    e ≠ .outside ∧ ∀ n : Int, 0 ≤ n → e = .returned n →
      ∃ before after ps, heard input 0 r.line = before ++ some XM_EOT :: after ∧
        Received before ps ∧ n = PACKET_SIZE * ps.length ∧
        ps.flatten.length = n.toNat ∧ n.toNat ≤ r.dest.size ∧ r.dest.mem.Holds 0 ps.flatten

section Block
variable {σ : Type} {E : Setup σ}

theorem grow_line {r r' : Receiver σ} (h : E.grow r = some r') :
    r'.line = r.line ∧ r'.packnum = r.packnum ∧ r'.size = r.size ∧ r'.starting = r.starting ∧
      r'.retries = r.retries := by
  rw [Setup.grow] at h
  split at h
  · cases hm : E.realloc r.reallocs with
    | none => simp [hm] at h
    | some m =>
      simp only [hm, Option.some.injEq] at h
      subst h
      exact ⟨rfl, rfl, rfl, rfl, rfl⟩
  · rw [Option.some.injEq] at h
    subst h
    exact ⟨rfl, rfl, rfl, rfl, rfl⟩

theorem size_add {r : Receiver σ} (hsmall : r.size.toNat + PACKET_SIZE < 2 ^ 31) :
    (r.size + UInt32.ofNat PACKET_SIZE).toNat = r.size.toNat + PACKET_SIZE := by
  rw [UInt32.toNat_add, show (UInt32.ofNat PACKET_SIZE).toNat = PACKET_SIZE from rfl]
  omega

/-- Room is made where it is missing, and what is stored stays. -/
theorem grow_stored {ps : List (List UInt8)} {r r' : Receiver σ} (hstored : Stored ps r)
    (hflat : ps.flatten.length = PACKET_SIZE * ps.length)
    (hsmall : r.size.toNat + PACKET_SIZE < 2 ^ 31)
    (h : E.grow r = some r') :
    r'.limit.toNat = r'.dest.size ∧ r.size.toNat + PACKET_SIZE ≤ r'.limit.toNat ∧
      r'.limit.toNat ≤ r.size.toNat + PACKET_SIZE + XMODEM_INITIAL_BUFFER_SIZE.toNat ∧
      r'.dest.mem.Holds 0 ps.flatten := by
  have hinitial : XMODEM_INITIAL_BUFFER_SIZE.toNat = 1024 := rfl
  have hsize : PACKET_SIZE = 128 := rfl
  have hadd := size_add hsmall
  have hlimit := hstored.limit_le
  have hle := hstored.size_le
  rw [hinitial] at hlimit ⊢
  rw [Setup.grow] at h
  split at h
  · next hgt =>
      have hgt : r.limit.toNat < r.size.toNat + PACKET_SIZE := by
        rw [← hadd]
        exact UInt32.lt_iff_toNat_lt.mp hgt
      have hincrement : (r.limit + XMODEM_INCREMENT_AMOUNT).toNat = r.limit.toNat + 512 := by
        rw [UInt32.toNat_add, show XMODEM_INCREMENT_AMOUNT.toNat = 512 from rfl]
        omega
      cases hm : E.realloc r.reallocs with
      | none => simp [hm] at h
      | some m =>
        simp only [hm, Option.some.injEq] at h
        subst h
        refine ⟨rfl, ?_, ?_, ?_⟩
        · simp only [hincrement]
          omega
        · simp only [hincrement]
          omega
        · -- the payloads are below the old size
          have hagree : Mem.Agree r.dest.mem
              (fun x => if x < r.dest.size then r.dest.mem x else m x) 0 r.dest.size :=
            fun x _ hx => (if_pos hx).symm
          refine hagree.holds (Nat.le_refl 0) ?_ hstored.dest
          rw [hflat, ← hstored.size, ← hstored.limit]
          omega
  · next hgt =>
      have hroom : r.size.toNat + PACKET_SIZE ≤ r.limit.toNat := by
        have hnot := mt UInt32.lt_iff_toNat_lt.mpr hgt
        rw [hadd] at hnot
        omega
      rw [Option.some.injEq] at h
      subst h
      exact ⟨hstored.limit, hroom, by omega, hstored.dest⟩

/-- A payload that fits is stored behind the others. -/
theorem consume_stored {ps : List (List UInt8)} {payload : List UInt8} {r : Receiver σ}
    (hpayload : (buf.drop 2).take PACKET_SIZE = payload) (hlen : payload.length = PACKET_SIZE)
    (hsize : r.size.toNat = PACKET_SIZE * ps.length)
    (hflat : ps.flatten.length = PACKET_SIZE * ps.length) (hlimit : r.limit.toNat = r.dest.size)
    (hroom : r.size.toNat + PACKET_SIZE ≤ r.limit.toNat)
    (hle : r.limit.toNat ≤ r.size.toNat + PACKET_SIZE + XMODEM_INITIAL_BUFFER_SIZE.toNat)
    (hsmall : r.size.toNat + PACKET_SIZE < 2 ^ 31) (hdest : r.dest.mem.Holds 0 ps.flatten) :
    ∃ r', E.consume r buf = .inr r' ∧ r'.line = E.port.outFunc XM_ACK r.line ∧
      r'.packnum = r.packnum ∧ r'.starting = r.starting ∧ r'.retries = r.retries ∧
      Stored (ps ++ [payload]) r' := by
  have hput : r.dest.put? r.size.toNat payload =
      some { r.dest with mem := r.dest.mem.store r.size.toNat payload } :=
    Lib.Buf.put?_of_le (by rw [hlen, ← hlimit]; exact hroom)
  have hadd := size_add hsmall
  have hconsume : E.consume r buf =
      .inr { r with
        line := E.port.outFunc XM_ACK r.line,
        dest := { r.dest with mem := r.dest.mem.store r.size.toNat payload },
        size := r.size + UInt32.ofNat PACKET_SIZE } := by
    rw [Setup.consume, hpayload, hput]
  refine ⟨_, hconsume, rfl, rfl, rfl, rfl, ?_⟩
  constructor
  · rw [hadd, hsize, List.length_append, List.length_singleton, Nat.mul_add, Nat.mul_one]
  · exact hlimit
  · rw [hadd]
    exact hroom
  · rw [hadd]
    exact hle
  · -- the store begins where the payloads end
    have hbegin : r.size.toNat = 0 + ps.flatten.length := by rw [hsize, hflat, Nat.zero_add]
    rw [List.flatten_append, List.flatten_singleton, Mem.holds_append, ← hbegin]
    refine ⟨?_, Mem.holds_store_self _ _ _⟩
    exact (Mem.agree_store_below _ _ _).holds (Nat.le_refl 0) (by omega) hdest

end Block

section Pass
variable {input : Nat → Option UInt8} {realloc : Nat → Option Mem} {calls : Nat}

/-- A receiver on the line. -/
abbrev env (input : Nat → Option UInt8) (realloc : Nat → Option Mem) (calls : Nat) : Setup Nat :=
  ⟨line input, realloc, calls⟩

theorem leave_cases {r' : Receiver Nat} {e : Exit}
    (h : (env input realloc calls).leave r how n = (e, r')) :
    (e = .flushing ∨ e = .returned n) ∧ r.line ≤ r'.line ∧ r' = { r with line := r'.line } := by
  cases hf : xmodemFlush (line input) calls how r.line with
  | none =>
    rw [Setup.leave, hf, Prod.mk.injEq] at h
    obtain ⟨rfl, rfl⟩ := h
    exact ⟨.inl rfl, Nat.le_refl _, rfl⟩
  | some q =>
    rw [Setup.leave, hf, Prod.mk.injEq] at h
    obtain ⟨rfl, rfl⟩ := h
    exact ⟨.inr rfl, flush_le hf, rfl⟩

/-- A call that reports an error leaves nothing to show. -/
theorem sound_leave {r' : Receiver Nat} {e : Exit} (hn : n < 0)
    (h : (env input realloc calls).leave r how n = (e, r')) : Sound input e r' := by
  obtain ⟨he, -, -⟩ := leave_cases h
  intro _
  rcases he with rfl | rfl
  · exact ⟨by simp, by simp⟩
  · refine ⟨by simp, fun m hm heq => ?_⟩
    rw [Exit.returned.injEq] at heq
    omega

/-- What a pass that has got to `q` leaves: the invariant when it goes on, and a sound result when
the call ends. -/
def Kept (input : Nat → Option UInt8) (q : Nat) (step : (Exit × Receiver Nat) ⊕ Receiver Nat) :
    Prop :=
  (∀ r, step = .inr r → q ≤ r.line ∧ Inv input r) ∧
    ∀ e r, step = .inl (e, r) → Sound input e r

theorem kept_inr {q : Nat} (hq : q ≤ r.line) (h : Inv input r) : Kept input q (.inr r) := by
  refine ⟨fun r' hr => ?_, by simp⟩
  rw [Sum.inr.injEq] at hr
  exact hr ▸ ⟨hq, h⟩

theorem kept_flushing (q : Nat) (r : Receiver Nat) : Kept input q (.inl (.flushing, r)) := by
  refine ⟨by simp, fun e r' h => ?_⟩
  rw [Sum.inl.injEq, Prod.mk.injEq] at h
  obtain ⟨rfl, rfl⟩ := h
  intro _
  exact ⟨by simp, by simp⟩

theorem kept_leave {q : Nat} (hn : n < 0) :
    Kept input q (.inl ((env input realloc calls).leave r how n)) := by
  refine ⟨by simp, fun e r' h => ?_⟩
  rw [Sum.inl.injEq] at h
  exact sound_leave hn h

/-- The pass has got to `q`. -/
def Past (q : Nat) (step : (Exit × Receiver Nat) ⊕ Receiver Nat) : Prop :=
  (∀ r, step = .inr r → q ≤ r.line) ∧ ∀ e r, step = .inl (e, r) → q ≤ r.line

/-- From `2 ^ 31` bytes on nothing is said. -/
theorem kept_of_many {q : Nat} {step : (Exit × Receiver Nat) ⊕ Receiver Nat}
    (hmany : ¬ bytesReceived input q < 2 ^ 31) (hpast : Past q step) : Kept input q step := by
  constructor
  · intro r h
    refine ⟨hpast.1 r h, fun hbound => ?_⟩
    exact absurd (Nat.lt_of_le_of_lt (bytesReceived_mono input (hpast.1 r h)) hbound) hmany
  · intro e r h hbound
    exact absurd (Nat.lt_of_le_of_lt (bytesReceived_mono input (hpast.2 e r h)) hbound) hmany

theorem Kept.mono {p q : Nat} {step : (Exit × Receiver Nat) ⊕ Receiver Nat}
    (h : Kept input q step) (hpq : p ≤ q) : Kept input p step :=
  ⟨fun r hr => ⟨Nat.le_trans hpq (h.1 r hr).1, (h.1 r hr).2⟩, h.2⟩

/-- The invariant does not depend on what was heard since, nor on the retries. -/
theorem inv_later {q : Nat} (hinv : Inv input r) (hq : r.line ≤ q) (starting : Bool)
    (retries : UInt32) :
    Inv input { r with line := q, starting := starting, retries := retries } := by
  intro hbound
  obtain ⟨ps, hps, hnumber, hstored⟩ :=
    hinv (Nat.lt_of_le_of_lt (bytesReceived_mono input hq) hbound)
  refine ⟨ps, ?_, hnumber, ⟨hstored.size, hstored.limit, hstored.size_le, hstored.limit_le,
    hstored.dest⟩⟩
  have hmore := hps.append (heard input r.line (q - r.line))
  rwa [← heard_split input hq] at hmore

theorem consume_past (r : Receiver Nat) (buf : List UInt8) :
    Past r.line ((env input realloc calls).consume r buf) := by
  cases hput : r.dest.put? r.size.toNat ((buf.drop 2).take PACKET_SIZE) with
  | none =>
    rw [Setup.consume, hput]
    refine ⟨by simp, fun e r' h => ?_⟩
    rw [Sum.inl.injEq, Prod.mk.injEq] at h
    rw [h.2]
  | some dest =>
    rw [Setup.consume, hput]
    refine ⟨fun r' h => ?_, by simp⟩
    rw [Sum.inr.injEq] at h
    subst h
    exact Nat.le_refl _

theorem accept_past (r : Receiver Nat) (buf : List UInt8) :
    Past r.line ((env input realloc calls).accept r buf) := by
  rw [Setup.accept]
  cases hgrow : (env input realloc calls).grow r with
  | none =>
    refine ⟨by simp, fun e r' h => ?_⟩
    rw [Sum.inl.injEq] at h
    exact (leave_cases h).2.1
  | some r' =>
    rw [← (grow_line hgrow).1]
    exact consume_past r' buf

/-- A packet with the expected number, heard after everything that is stored. -/
theorem accept_kept (ps : List (List UInt8))
    (hnumber : r.packnum = UInt8.ofNat (ps.length + 1) + 1) (hstored : Stored ps r)
    (hlen : ((buf.drop 2).take PACKET_SIZE).length = PACKET_SIZE)
    (hreceived : Received (heard input 0 r.line) (ps ++ [(buf.drop 2).take PACKET_SIZE]))
    (hflat : ps.flatten.length = PACKET_SIZE * ps.length) :
    Kept input r.line ((env input realloc calls).accept r buf) := by
  rw [Setup.accept]
  cases hgrow : (env input realloc calls).grow r with
  | none => exact kept_leave (by decide)
  | some r' =>
    obtain ⟨hline, hpacknum, hsame, -, -⟩ := grow_line hgrow
    by_cases hbound : bytesReceived input r.line < 2 ^ 31
    · -- the payloads are a part of the bytes, so there is no overflow
      have hsmall : r.size.toNat + PACKET_SIZE < 2 ^ 31 := by
        have hbytes := hreceived.length_le
        rw [List.length_append, List.length_singleton, Nat.mul_add, Nat.mul_one,
          ← hstored.size] at hbytes
        exact Nat.lt_of_le_of_lt hbytes hbound
      obtain ⟨hlimit, hroom, hle, hdest⟩ := grow_stored hstored hflat hsmall hgrow
      rw [← hsame] at hroom hle hsmall
      obtain ⟨r'', hconsume, hline', hpacknum', -, -, hstored'⟩ := consume_stored
        (E := env input realloc calls) rfl hlen (hsame ▸ hstored.size) hflat hlimit
        hroom hle hsmall hdest
      simp only [hconsume]
      replace hline' : r''.line = r'.line := hline'
      refine kept_inr (by rw [hline', hline]) fun _ => ?_
      refine ⟨_, ?_, ?_, hstored'⟩
      · rwa [hline', hline]
      · rw [hpacknum', hpacknum, hnumber, List.length_append, List.length_singleton,
          ← UInt8.toNat_inj, UInt8.toNat_add]
        simp only [UInt8.toNat_ofNat', UInt8.toNat_ofNat, Nat.reducePow]
        omega
    · exact kept_of_many hbound (hline ▸ consume_past r' buf)

/-- What follows a start of header that was heard. -/
theorem packet_kept (hstart : input r.line = some XM_SOH) (hinv : Inv input r) (retries : UInt32) :
    Kept input r.line ((env input realloc calls).packet
      { r with line := r.line + 1, retries := retries }) := by
  cases hget : xmodemGetRecord (line input) r.packnum (r.line + 1) with
  | mk got s =>
    have hle : r.line ≤ s := Nat.le_of_succ_le (getRecord_le hget)
    rw [Setup.packet, hget]
    cases got with
    | none =>
      -- a record that is not accepted changes nothing that is stored
      exact kept_inr hle (inv_later hinv hle false retries)
    | some buf =>
      obtain ⟨hs, hheard, hbuf⟩ := getRecord_some hget
      cases hflush : xmodemFlush (line input) calls .only s with
      | none =>
        simp only [hflush]
        exact kept_flushing _ _
      | some q =>
        have hq := flush_le hflush
        simp only [hflush]
        by_cases hbound : bytesReceived input r.line < 2 ^ 31
        · obtain ⟨ps, hps, hnumber, hstored⟩ := hinv hbound
          -- the packet stands behind the start of header
          have hsplit : heard input 0 s =
              heard input 0 r.line ++ (XM_SOH :: buf).map some := by
            rw [heard_split input hle, show s - r.line = PACKET_SIZE + 4 + 1 by omega,
              heard_succ, hstart, hheard]
            rfl
          refine Kept.mono (accept_kept ps ?_ ⟨hstored.size, hstored.limit,
            hstored.size_le, hstored.limit_le, hstored.dest⟩ hbuf.1 ?_
            hps.length_flatten) (Nat.le_trans hle hq)
          · rw [hnumber]
          · rw [heard_split input hq, hsplit]
            exact (hps.packet (hnumber ▸ hbuf)).append _
        · have hrq : r.line ≤ q := Nat.le_trans hle hq
          have hmany : ¬ bytesReceived input q < 2 ^ 31 :=
            fun h => hbound (Nat.lt_of_le_of_lt (bytesReceived_mono input hrq) h)
          exact (kept_of_many hmany (accept_past _ buf)).mono hrq

/-- One pass of the loop. -/
theorem pass_kept (hinv : Inv input r) : Kept input r.line ((env input realloc calls).pass r) := by
  have hnext : r.line ≤ r.line + 1 := Nat.le_succ _
  rw [Setup.pass]
  by_cases hretries : r.retries = 0
  · rw [if_pos hretries]
    exact kept_leave (by decide)
  rw [if_neg hretries]
  -- the letter that is sent does not change what is heard
  have hout : (if r.starting then (env input realloc calls).port.outFunc XM_START r.line
      else r.line) = r.line := by
    split <;> rfl
  have hin : (line input).inFunc XMODEM_TIMEOUT r.line = (input r.line, r.line + 1) := rfl
  have hnothing := kept_inr hnext (inv_later hinv hnext r.starting (r.retries - 1))
  cases hch : input r.line with
  | none =>
    simp only [hout, hin, hch]
    exact hnothing
  | some ch =>
    simp only [hout, hin, hch]
    split
    · -- the end of the transmission
      next heot =>
        subst heot
        refine ⟨by simp, fun e r' h => ?_⟩
        rw [Sum.inl.injEq] at h
        obtain ⟨he, hline, hsame⟩ := leave_cases h
        have hline : r.line + 1 ≤ r'.line := hline
        intro hbound
        rcases he with rfl | rfl
        · exact ⟨by simp, by simp⟩
        refine ⟨by simp, fun n hn heq => ?_⟩
        obtain ⟨ps, hps, -, hstored⟩ := hinv (Nat.lt_of_le_of_lt (bytesReceived_mono input
          (Nat.le_of_succ_le hline)) hbound)
        have hbytes := hps.length_le
        rw [← hstored.size] at hbytes
        have hlt : r.size.toNat < 2 ^ 31 := Nat.lt_of_le_of_lt hbytes (Nat.lt_of_le_of_lt
          (bytesReceived_mono input (Nat.le_of_succ_le hline)) hbound)
        have hvalue : r.size.toInt32.toInt = r.size.toNat :=
          BitVec.toInt_eq_toNat_of_lt (show 2 * r.size.toNat < 2 ^ 32 by omega)
        rw [Exit.returned.injEq, hvalue] at heq
        subst heq
        refine ⟨heard input 0 r.line, heard input (r.line + 1) (r'.line - (r.line + 1)), ps, ?_,
          hps, ?_, ?_, ?_, ?_⟩
        · rw [heard_split input (Nat.le_of_succ_le hline),
            show r'.line - r.line = r'.line - (r.line + 1) + 1 by omega, heard_succ, hch]
        · rw [hstored.size, Int.natCast_mul]
        · rw [hps.length_flatten, Int.toNat_natCast, hstored.size]
        · rw [hsame, Int.toNat_natCast]
          exact hstored.limit ▸ hstored.size_le
        · rw [hsame]
          exact hstored.dest
    split
    · exact kept_leave (by decide)
    split
    · next hsoh => exact packet_kept (hch.trans (congrArg some hsoh)) hinv (r.retries - 1)
    · exact hnothing

end Pass

/-! ### Receptions -/

/-- The invariant holds when the call begins. -/
theorem inv_start (input : Nat → Option UInt8) (dest : Mem) :
    Inv input { line := 0, dest := ⟨dest, XMODEM_INITIAL_BUFFER_SIZE.toNat⟩ } :=
  fun _ => ⟨[], .start, rfl, ⟨rfl, rfl, Nat.zero_le _, Nat.le_add_left _ _, rfl⟩⟩

/-- **A reception** writes only inside the block, and when it returns
a value that is not negative, this is the length of the payloads in
the block. The line may have any bytes and timeouts, and any
allocation may fail. -/
theorem receive_sound (input : Nat → Option UInt8) (realloc : Nat → Option Mem)
    (calls passes : Nat) (dest : Mem) (e : Exit) (r : Receiver Nat)
    (h : xmodemReceive ⟨line input, realloc, calls⟩ passes dest 0 = some (e, r)) :
    Sound input e r := by
  have hpass : ∀ s : Receiver Nat, Inv input s →
      Kept input s.line ((env input realloc calls).pass s) := fun s hs => pass_kept hs
  exact Lib.Loop.run_inv (P := Inv input) (Q := fun result => Sound input result.1 result.2)
    (fun s s' hs hb => ((hpass s hs).1 s' hb).2) (fun s result hs hb => (hpass s hs).2 _ _ hb)
    (inv_start input dest) h

/-- A packet on the line, and the silence behind it. -/
def packet (num : UInt8) (payload chk : List UInt8) : List (Option UInt8) :=
  (XM_SOH :: num :: ~~~num :: (payload ++ chk)).map some ++ [none]

/-- The bytes from 0 on, and from 255 on downwards. -/
def upward : List UInt8 := (List.range PACKET_SIZE).map UInt8.ofNat
def downward : List UInt8 := upward.map (~~~·)

/-- A packet that breaks off, then the two records and the end of the
transmission. -/
def twoRecords (n : Nat) : Option UInt8 :=
  ([some XM_SOH, some 1, none] ++ packet 1 upward [0xE8, 0x0A] ++ packet 2 downward [0x05, 0xA3] ++
    [some XM_EOT]).getD n none

set_option maxRecDepth 20000 in
/-- The packet that breaks off is asked for again, and the two payloads
are stored one behind the other. -/
theorem receive_sound_two : ∃ r,
    xmodemReceive ⟨line twoRecords, fun _ => none, 1⟩ 5 (fun _ => 1) 0 = some (.returned 256, r) ∧
      Sound twoRecords (.returned 256) r := by
  have hexit : (xmodemReceive ⟨line twoRecords, fun _ => none, 1⟩ 5 (fun _ => 1) 0).map Prod.fst =
      some (.returned 256) := by decide +kernel
  obtain ⟨⟨e, r⟩, hrun, he⟩ := Option.map_eq_some_iff.mp hexit
  subst he
  exact ⟨r, hrun, receive_sound _ _ _ _ _ _ _ hrun⟩

end Alcor.Proofs.Xmodem
