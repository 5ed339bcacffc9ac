import Alcor.Proofs.Xmodem.Reception
import Alcor.Shell.Recv

/-!
# `Alcor.Proofs.Shell.Recv`: what `recv` hands on

`Held` is kept by every pass of the reception, however much is received:
a packet is only copied when it fits in the block, and then the 32-bit
size has not overflowed. So the block holds the payloads that were heard
when the reception ends, and the scan for the padding stops inside of
the block unless all of it is padding.

* `pass_held`: the step lemma.
* `held_of_receive`: a reception that returns a length has stored the
  payloads that were heard.
* `handsOn_iff`: the data is handed on without its padding, unless all
  of it is padding.
* `not_always_handsOn`: nothing is received, and `recv` reads in front
  of its block.
-/

set_option autoImplicit false

namespace Alcor.Proofs.Shell

open Lib (Mem Buf)
open Alcor.Xmodem Alcor.Shell
open Alcor.Proofs.Xmodem

/-! ### The block of a reception -/

/-- The block holds the payloads that were heard. -/
structure Held (input : Nat → Option UInt8) (ps : List (List UInt8)) (r : Receiver Nat) : Prop where
  received : Received (heard input 0 r.line) ps
  number : r.packnum = UInt8.ofNat (ps.length + 1)
  size : r.size.toNat = ps.flatten.length
  fits : r.size.toNat ≤ r.dest.size
  block : r.dest.size < 2 ^ 32
  dest : r.dest.mem.Holds 0 ps.flatten

variable {input : Nat → Option UInt8} {realloc : Nat → Option Mem} {calls : Nat}
  {ps : List (List UInt8)} {r r' : Receiver Nat}

/-- What is held does not depend on what was heard since, nor on the retries. -/
theorem Held.later (h : Held input ps r) {q : Nat} (hq : r.line ≤ q) (starting : Bool)
    (retries : UInt32) :
    Held input ps { r with line := q, starting := starting, retries := retries } := by
  refine ⟨?_, h.number, h.size, h.fits, h.block, h.dest⟩
  have hmore := h.received.append (heard input r.line (q - r.line))
  rwa [← heard_split input hq] at hmore

/-- Making room keeps the bytes of the old block. -/
theorem grow_keeps (h : (env input realloc calls).grow r = some r')
    (hblock : r.dest.size < 2 ^ 32) :
    r'.dest.size < 2 ^ 32 ∧ Mem.Agree r.dest.mem r'.dest.mem 0 r.dest.size := by
  rw [Setup.grow] at h
  split at h
  · cases hm : realloc r.reallocs with
    | none => simp [hm] at h
    | some m =>
      simp only [hm, Option.some.injEq] at h
      subst h
      exact ⟨UInt32.toNat_lt _, fun x _ hx => (if_pos hx).symm⟩
  · rw [Option.some.injEq] at h
    subst h
    exact ⟨hblock, fun _ _ _ => rfl⟩

/-- A payload that was copied has fitted. -/
theorem consume_held {payload buf : List UInt8}
    (hpayload : (buf.drop 2).take PACKET_SIZE = payload) (hlen : payload.length = PACKET_SIZE)
    (hreceived : Received (heard input 0 r.line) (ps ++ [payload]))
    (hnumber : r.packnum = UInt8.ofNat (ps.length + 1 + 1))
    (hsize : r.size.toNat = ps.flatten.length) (hblock : r.dest.size < 2 ^ 32)
    (hdest : r.dest.mem.Holds 0 ps.flatten)
    (h : (env input realloc calls).consume r buf = .inr r') :
    Held input (ps ++ [payload]) r' := by
  have hpacket : (UInt32.ofNat PACKET_SIZE).toNat = PACKET_SIZE := rfl
  rw [Setup.consume, hpayload] at h
  cases hput : r.dest.put? r.size.toNat payload with
  | none => simp [hput] at h
  | some dest =>
    -- otherwise the copy would have written past the end
    have hfits : r.size.toNat + payload.length ≤ r.dest.size := by
      by_contra hlong
      rw [Buf.put?_eq_none.mpr (Nat.lt_of_not_le hlong)] at hput
      cases hput
    rw [Buf.put?_of_le hfits, Option.some.injEq] at hput
    subst hput
    rw [Buf.put?_of_le hfits] at h
    simp only [Sum.inr.injEq] at h
    subst h
    have hadd : (r.size + UInt32.ofNat PACKET_SIZE).toNat = r.size.toNat + PACKET_SIZE := by
      rw [UInt32.toNat_add, hpacket]
      omega
    have hflat : (ps ++ [payload]).flatten = ps.flatten ++ payload := by
      rw [List.flatten_append, List.flatten_singleton]
    refine ⟨hreceived, ?_, ?_, ?_, hblock, ?_⟩
    · rw [hnumber, List.length_append, List.length_singleton]
    · rw [hadd, hflat, List.length_append, hlen, hsize]
    · rw [hadd, ← hlen]
      exact hfits
    · -- the copy begins where the payloads end
      rw [hflat, Mem.holds_append, Nat.zero_add, ← hsize]
      refine ⟨?_, Mem.holds_store_self _ _ _⟩
      exact (Mem.agree_store_below _ _ _).holds (Nat.le_refl 0)
        (by rw [Nat.zero_add, ← hsize]) hdest

/-- What follows a start of header that was heard. -/
theorem packet_held (hstart : input r.line = some XM_SOH) (hheld : Held input ps r)
    (retries : UInt32)
    (h : (env input realloc calls).packet { r with line := r.line + 1, retries := retries } =
      .inr r') :
    ∃ ps', Held input ps' r' := by
  cases hget : xmodemGetRecord (line input) r.packnum (r.line + 1) with
  | mk got s =>
    have hle : r.line ≤ s := Nat.le_of_succ_le (getRecord_le hget)
    rw [Setup.packet, hget] at h
    cases got with
    | none =>
      -- a record that is not accepted changes nothing that is held
      rw [Sum.inr.injEq] at h
      subst h
      exact ⟨ps, hheld.later hle false retries⟩
    | some buf =>
      obtain ⟨hs, hheard, hbuf⟩ := getRecord_some hget
      cases hflush : xmodemFlush (line input) calls .only s with
      | none => simp [hflush] at h
      | some q =>
        have hq := flush_le hflush
        simp only [hflush] at h
        -- the packet stands behind the start of header
        have hsplit : heard input 0 s =
            heard input 0 r.line ++ (XM_SOH :: buf).map some := by
          rw [heard_split input hle, show s - r.line = PACKET_SIZE + 4 + 1 by omega,
            heard_succ, hstart, hheard]
          rfl
        have hreceived : Received (heard input 0 q)
            (ps ++ [(buf.drop 2).take PACKET_SIZE]) := by
          rw [heard_split input hq, hsplit]
          exact (hheld.received.packet (hheld.number ▸ hbuf)).append _
        rw [Setup.accept] at h
        cases hgrow : (env input realloc calls).grow
            { r with
              starting := false, line := q, retries := XMODEM_RETRY_LIMIT,
              packnum := r.packnum + 1 } with
        | none => simp [hgrow] at h
        | some r₁ =>
          simp only [hgrow] at h
          obtain ⟨hline, hpacknum, hsame, -, -⟩ := grow_line hgrow
          obtain ⟨hblock, hagree⟩ := grow_keeps hgrow hheld.block
          refine ⟨_, consume_held rfl hbuf.1 (hline ▸ hreceived) ?_
            (hsame ▸ hheld.size) hblock ?_ h⟩
          · rw [hpacknum, hheld.number, ← UInt8.toNat_inj, UInt8.toNat_add]
            simp only [UInt8.toNat_ofNat', UInt8.toNat_ofNat, Nat.reducePow]
            omega
          · refine hagree.holds (Nat.le_refl 0) ?_ hheld.dest
            rw [Nat.zero_add, ← hheld.size]
            exact hheld.fits

/-- A pass that goes on keeps what is held. -/
theorem pass_held (hheld : ∃ ps, Held input ps r) (h : (env input realloc calls).pass r = .inr r') :
    ∃ ps, Held input ps r' := by
  obtain ⟨ps, hheld⟩ := hheld
  have hnext : r.line ≤ r.line + 1 := Nat.le_succ _
  have hout : (if r.starting then (env input realloc calls).port.outFunc XM_START r.line
      else r.line) = r.line := by
    split <;> rfl
  have hin : (line input).inFunc XMODEM_TIMEOUT r.line = (input r.line, r.line + 1) := rfl
  -- a byte that is no header changes nothing that is held
  have hnothing := hheld.later hnext r.starting (r.retries - 1)
  rw [Setup.pass] at h
  split at h
  · cases h
  cases hch : input r.line with
  | none =>
    simp only [hout, hin, hch, Sum.inr.injEq] at h
    exact ⟨ps, h ▸ hnothing⟩
  | some ch =>
    simp only [hout, hin, hch] at h
    -- the end of the transmission and the cancellation leave the loop
    split at h
    · cases h
    split at h
    · cases h
    split at h
    · next hsoh =>
        exact packet_held (hch.trans (congrArg some hsoh)) hheld (r.retries - 1) h
    · rw [Sum.inr.injEq] at h
      exact ⟨ps, h ▸ hnothing⟩

/-- What a call leaves that returns a length: the end of the transmission was heard behind these
payloads, and the block holds them. -/
def Ended (input : Nat → Option UInt8) (n : Int) (r : Receiver Nat) : Prop :=
  ∃ before after ps, heard input 0 r.line = before ++ some XM_EOT :: after ∧ Received before ps ∧
    n = ps.flatten.length ∧ ps.flatten.length ≤ r.dest.size ∧ r.dest.mem.Holds 0 ps.flatten

/-- A pass that ends with a length has met the end of the transmission. -/
theorem pass_ended {n : Int} (hn : 0 ≤ n) (hheld : ∃ ps, Held input ps r)
    (h : (env input realloc calls).pass r = .inl (.returned n, r')) : Ended input n r' := by
  obtain ⟨ps, hheld⟩ := hheld
  have hout : (if r.starting then (env input realloc calls).port.outFunc XM_START r.line
      else r.line) = r.line := by
    split <;> rfl
  have hin : (line input).inFunc XMODEM_TIMEOUT r.line = (input r.line, r.line + 1) := rfl
  have hnegative : ∀ {r₀ : Receiver Nat} {how : Flush} {m : Int}, m < 0 →
      (env input realloc calls).leave r₀ how m ≠ (.returned n, r') := by
    intro r₀ how m hm hleave
    obtain ⟨he | he, -, -⟩ := leave_cases hleave
    · cases he
    · rw [Exit.returned.injEq] at he
      omega
  rw [Setup.pass] at h
  split at h
  · rw [Sum.inl.injEq] at h
    exact absurd h (hnegative (by decide))
  cases hch : input r.line with
  | none => simp [hout, hin, hch] at h
  | some ch =>
    simp only [hout, hin, hch] at h
    split at h
    · next heot =>
        subst heot
        rw [Sum.inl.injEq] at h
        obtain ⟨he, hline, hsame⟩ := leave_cases h
        have hline : r.line + 1 ≤ r'.line := hline
        rcases he with he | he
        · cases he
        rw [Exit.returned.injEq] at he
        refine ⟨heard input 0 r.line, heard input (r.line + 1) (r'.line - (r.line + 1)), ps, ?_,
          hheld.received, ?_, ?_, ?_⟩
        · rw [heard_split input (Nat.le_of_succ_le hline),
            show r'.line - r.line = r'.line - (r.line + 1) + 1 by omega, heard_succ, hch]
        · -- a length that is not negative is the size itself
          rw [← hheld.size, he]
          have hint : r.size.toInt32.toInt = r.size.toBitVec.toInt := rfl
          have hnat : r.size.toBitVec.toNat = r.size.toNat := rfl
          rw [he, hint, BitVec.toInt_eq_toNat_cond] at hn
          rw [hint, BitVec.toInt_eq_toNat_cond]
          split at hn
          · next hlt => rw [if_pos hlt, hnat]
          · have hlt := r.size.toNat_lt
            omega
        · rw [hsame, ← hheld.size]
          exact hheld.fits
        · rw [hsame]
          exact hheld.dest
    split at h
    · rw [Sum.inl.injEq] at h
      exact absurd h (hnegative (by decide))
    split at h
    · next hsoh =>
        -- a packet ends a call with an error only
        rw [Setup.packet] at h
        split at h
        · cases h
        · split at h
          · simp at h
          · rw [Setup.accept] at h
            split at h
            · rw [Sum.inl.injEq] at h
              exact absurd h (hnegative (by decide))
            · rw [Setup.consume] at h
              split at h <;> simp at h
    · cases h

/-- Nothing is held when the call begins. -/
theorem held_start (input : Nat → Option UInt8) (prog : Mem) :
    ∃ ps, Held input ps { line := 0, dest := ⟨prog, XMODEM_INITIAL_BUFFER_SIZE.toNat⟩ } :=
  ⟨[], .start, rfl, rfl, Nat.zero_le _, UInt32.toNat_lt _, Mem.holds_nil _ _⟩

/-- A reception that returns a length has stored the payloads that were heard. -/
theorem held_of_receive {passes : Nat} {prog : Mem} {n : Int} (hn : 0 ≤ n)
    (h : xmodemReceive ⟨line input, realloc, calls⟩ passes prog 0 = some (.returned n, r)) :
    Ended input n r :=
  Lib.Loop.run_inv (P := fun r => ∃ ps, Held input ps r)
    (Q := fun result => result.1 = .returned n → Ended input n result.2)
    (fun _ _ hs hb => pass_held hs hb)
    (fun _ result hs hb he => pass_ended hn hs (hb.trans (by rw [← he])))
    (held_start input prog) h rfl

/-! ### The padding -/

/-- The scan over bytes that a block holds. -/
theorem stripPadding_of_holds {prog : Buf} {data : List UInt8} (hfits : data.length ≤ prog.size)
    (hholds : prog.mem.Holds 0 data) :
    stripPadding prog data.length =
      if withoutPadding data = [] then none else some (withoutPadding data).length := by
  -- the scan begins behind the data, so the induction takes the last byte off
  induction data using List.reverseRecOn with
  | nil => rfl
  | append_singleton data b ih =>
    rw [List.length_append, List.length_singleton] at hfits
    obtain ⟨hdata, hb⟩ := (Mem.holds_append _ _ _ _).mp hholds
    have hlast : prog.get? data.length = some b := by
      rw [Buf.get?_of_lt (by omega), ← ((Mem.holds_cons _ _ _ _).mp hb).1, Nat.zero_add]
    rw [List.length_append, List.length_singleton, stripPadding, hlast, Option.bind_some,
      withoutPadding, List.rdropWhile_concat]
    by_cases hpad : b = PADDING
    · simp only [hpad, decide_true, if_true]
      exact ih (by omega) hdata
    · simp [hpad]

/-- The data without its padding stands at the front of the block. -/
theorem read_withoutPadding {prog : Buf} {data : List UInt8} (hholds : prog.mem.Holds 0 data) :
    prog.mem.read 0 (withoutPadding data).length = withoutPadding data := by
  obtain ⟨rest, hrest⟩ := List.rdropWhile_prefix (fun b => decide (b = PADDING)) data
  have hsplit : prog.mem.Holds 0 (withoutPadding data ++ rest) := by rwa [withoutPadding, hrest]
  exact ((Mem.holds_append _ _ _ _).mp hsplit).1

/-- Data that is not all padding is handed on without the padding
behind it; otherwise `recv` reads in front of its block. So it is for
every line and every number of packets that a reception ends with. -/
theorem handsOn_iff (input : Nat → Option UInt8) (realloc : Nat → Option Mem) (calls passes : Nat)
    (t : Target) (argc : Nat) (prog : Mem) (n : Int) (r : Receiver Nat)
    (hargs : ¬(2 < argc ∨ t.lang = .picoc ∧ argc = 0)) (hmalloc : t.malloc = some prog)
    (hn : 0 ≤ n)
    (h : xmodemReceive ⟨line input, realloc, calls⟩ passes prog 0 = some (.returned n, r)) :
    ∃ before after ps, heard input 0 r.line = before ++ some XM_EOT :: after ∧
      Received before ps ∧ n = ps.flatten.length ∧ r.dest.mem.Holds 0 ps.flatten ∧
      (HandsOn t argc ps.flatten (shellRecv t ⟨line input, realloc, calls⟩ passes argc 0) ↔
        ∃ b ∈ ps.flatten, b ≠ PADDING) := by
  obtain ⟨before, after, ps, hheard, hreceived, hlen, hfits, hholds⟩ := held_of_receive hn h
  refine ⟨before, after, ps, hheard, hreceived, hlen, hholds, ?_⟩
  have hresult : shellRecv t ⟨line input, realloc, calls⟩ passes argc 0 =
      if withoutPadding ps.flatten = [] then some .front
      else some (.done (withoutPadding ps.flatten)
        (handOn t argc (withoutPadding ps.flatten))) := by
    simp only [shellRecv, if_neg hargs, hmalloc, h, if_neg (Int.not_lt.mpr hn)]
    rw [hlen, Int.toNat_natCast, stripPadding_of_holds hfits hholds]
    -- data that is all padding takes the scan past the front of the block
    by_cases hnil : withoutPadding ps.flatten = []
    · simp only [if_pos hnil]
    · simp only [if_neg hnil, read_withoutPadding hholds]
  have hall : withoutPadding ps.flatten = [] ↔ ¬∃ b ∈ ps.flatten, b ≠ PADDING := by
    simp [withoutPadding, List.rdropWhile_eq_nil_iff]
  rw [HandsOn, hresult]
  split
  · next hnil => simpa using hall.mp hnil
  · next hnil => exact ⟨fun _ => not_not.mp (mt hall.mpr hnil), fun _ => rfl⟩

/-- A target with Lua, which runs everything without an error. -/
def luaTarget : Target where
  lang := .lua
  malloc := some fun _ => 1
  fopen := true
  fwrite := List.length
  luaOpen := true
  loadbuffer _ := none
  pcall _ := none

/-- A line with one packet of zeros and the end of the transmission. -/
def zeros (n : Nat) : Option UInt8 :=
  match n with
  | 0   => some XM_SOH
  | 1   => some 1
  | 2   => some (~~~1)
  | 133 => none
  | 134 => some XM_EOT
  | n   => if n < 133 then some 0 else none

set_option maxRecDepth 20000 in
/-- The hypotheses of `handsOn_iff` hold of the transmission of one
packet of zeros. -/
theorem handsOn_iff_zeros : ∃ r before after ps,
    xmodemReceive ⟨line zeros, fun _ => none, 1⟩ 2 (fun _ => 1) 0 = some (.returned 128, r) ∧
      heard zeros 0 r.line = before ++ some XM_EOT :: after ∧ Received before ps ∧
      (128 : Int) = ps.flatten.length ∧ r.dest.mem.Holds 0 ps.flatten ∧
      (HandsOn luaTarget 1 ps.flatten (shellRecv luaTarget ⟨line zeros, fun _ => none, 1⟩ 2 1 0) ↔
        ∃ b ∈ ps.flatten, b ≠ PADDING) := by
  have hexit : (xmodemReceive ⟨line zeros, fun _ => none, 1⟩ 2 (fun _ => 1) 0).map Prod.fst =
      some (.returned 128) := by decide +kernel
  obtain ⟨⟨e, r⟩, hrun, he⟩ := Option.map_eq_some_iff.mp hexit
  subst he
  obtain ⟨before, after, ps, hps⟩ := handsOn_iff zeros (fun _ => none) 1 2 luaTarget 1 (fun _ => 1)
    128 r (by decide) rfl (by decide) hrun
  exact ⟨r, before, after, ps, hrun, hps⟩

/-- A transmission without a record. -/
def nothing (n : Nat) : Option UInt8 := if n = 0 then some XM_EOT else none

/-- Nothing is received, and `recv` reads in front of its block. -/
theorem not_always_handsOn : ∃ r,
    xmodemReceive ⟨line nothing, fun _ => none, 1⟩ 1 (fun _ => 1) 0 = some (.returned 0, r) ∧
      ¬HandsOn luaTarget 1 [] (shellRecv luaTarget ⟨line nothing, fun _ => none, 1⟩ 1 1 0) :=
  ⟨_, rfl, by unfold HandsOn; decide +kernel⟩

end Alcor.Proofs.Shell
