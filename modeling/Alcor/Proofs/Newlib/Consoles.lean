import Mathlib.Algebra.Order.Group.Int
import Alcor.Newlib.Consoles

/-!
# `Alcor.Proofs.Newlib.Consoles`: the consoles deliver lines

What the two consoles hand on of what was typed: packets of bytes over
TCP, and single bytes over a serial line.

* `delivers_iff`: a call that receives packets delivers them exactly if
  none finds more than `len` bytes when those before it count twice.
  `loopFrom_safe` says that no byte goes behind the buffer.
* `stdReadPass_ending` and `stdReadPass_other` are the two cases of one
  byte, and `stdReadLoop_spec` a call from any of its passes.
* `stdRead_spec`: a call takes one line of the cooked stream, or as much
  of it as the buffer has room for, and `stdReads_lines` is a sequence of
  calls.
* `delivers_lines` is the result about every sequence of calls, and
  `linesOf_spec` says what lines are.
-/

set_option autoImplicit false

/-!
## A call of `std_read`

The loop compares the bytes received since the start of the call with
the length that is left, so the bytes before the last packet count twice.
`stdReadLoop_cons` is one pass, in terms of the packets received so far.
-/

namespace Alcor.Proofs.Newlib

open Lib (Mem Buf)
open Alcor.Newlib

variable {vptr : Mem} {len : Nat} {received packets : List (List UInt8)} {packet : List UInt8}

/-- The buffer with these packets. -/
def heldBuf (vptr : Mem) (len : Nat) (received : List (List UInt8)) : Buf :=
  ⟨vptr.store 0 received.flatten, len⟩

theorem put?_heldBuf (h : received.flatten.length + packet.length ≤ len) :
    (heldBuf vptr len received).put? received.flatten.length packet =
      some (heldBuf vptr len (received ++ [packet])) := by
  have happend := Mem.store_append vptr 0 received.flatten packet
  rw [Nat.zero_add] at happend
  rw [Buf.put?_of_le h, heldBuf, heldBuf, happend, List.flatten_append, List.flatten_singleton]

theorem askedFor_le (n : Nat) : askedFor n ≤ n := by
  unfold askedFor
  rw [Int.bmod_def]
  split <;> omega

theorem length_flatten_snoc (received : List (List UInt8)) (packet : List UInt8) :
    (received ++ [packet]).flatten.length = received.flatten.length + packet.length := by
  rw [List.flatten_append, List.flatten_singleton, List.length_append]

/-- The loop, behind these packets. -/
def loopFrom (vptr : Mem) (len : Nat) (received packets : List (List UInt8)) : StdRead :=
  stdReadLoop (heldBuf vptr len received) received.flatten.length
    (len - received.flatten.length) received.flatten.length packets

/-- One pass with a packet. -/
theorem stdReadLoop_cons
    (h : Results (len - received.flatten.length) (packet :: packets)) :
    loopFrom vptr len received (packet :: packets) =
      if len ≤ 2 * received.flatten.length + packet.length then
        .returned ↑(len - received.flatten.length) (heldBuf vptr len (received ++ [packet])) packets
      else if endsLine packet then
        .returned ↑(received.flatten.length + packet.length)
          (heldBuf vptr len (received ++ [packet])) packets
      else loopFrom vptr len (received ++ [packet]) packets := by
  obtain ⟨⟨hpos, hasked, heof⟩, -⟩ := h
  have hle := askedFor_le (len - received.flatten.length)
  have hany : (packet.any fun b => decide (b = STD_CTRLZ_CODE)) = false := by
    rw [List.any_eq_false]
    intro b hb hb'
    exact heof (of_decide_eq_true hb' ▸ hb)
  -- `bytes_read` is compared with a length that is reduced already
  have hwhen : received.flatten.length + packet.length ≥ len - received.flatten.length ↔
      len ≤ 2 * received.flatten.length + packet.length := by omega
  rw [loopFrom, stdReadLoop, if_neg (by omega), put?_heldBuf (by omega)]
  simp only [hany, Bool.false_eq_true, if_false, hwhen]
  rw [loopFrom, length_flatten_snoc, Nat.sub_sub, Int.natCast_add]

/-- What a pass leaves for the others. -/
theorem results_tail (h : Results (len - received.flatten.length) (packet :: packets)) :
    Results (len - (received ++ [packet]).flatten.length) packets := by
  rw [length_flatten_snoc, ← Nat.sub_sub]
  exact h.2

theorem loopFrom_nil : loopFrom vptr len received [] =
    if askedFor (len - received.flatten.length) = 0 then
      if received.flatten.length ≥ len - received.flatten.length then
        .returned ↑(len - received.flatten.length) (heldBuf vptr len received) []
      else .spins
    else .waits := rfl

/-- No byte is stored behind the buffer. -/
theorem loopFrom_safe (packets : List (List UInt8)) :
    ∀ received, Results (len - received.flatten.length) packets →
      loopFrom vptr len received packets ≠ .wild := by
  induction packets with
  | nil =>
    intro received _
    rw [loopFrom_nil]
    split
    · split <;> simp
    · simp
  | cons packet packets ih =>
    intro received h
    -- a packet is not longer than what is asked for
    rw [stdReadLoop_cons h]
    split
    · simp
    · split
      · simp
      · exact ih _ (results_tail h)

/-- Each packet has a byte, so as many packets as the buffer has bytes are enough. -/
theorem loopFrom_returns (packets : List (List UInt8)) :
    ∀ received, Results (len - received.flatten.length) packets →
      (received = [] ∨ received.flatten.length < len) →
      len ≤ received.flatten.length + packets.length →
      ∃ result buf rest, loopFrom vptr len received packets = .returned result buf rest := by
  induction packets with
  | nil =>
    intro received _ hmore hlen
    rw [List.length_nil, Nat.add_zero] at hlen
    -- only an empty buffer is full before the first packet
    have hnil : received = [] := hmore.resolve_right (by omega)
    subst hnil
    obtain rfl : len = 0 := Nat.eq_zero_of_le_zero hlen
    exact ⟨_, _, _, rfl⟩
  | cons packet packets ih =>
    intro received h hmore hlen
    rw [stdReadLoop_cons h]
    split
    · exact ⟨_, _, _, rfl⟩
    split
    · exact ⟨_, _, _, rfl⟩
    · have hpos := h.1.1
      rw [List.length_cons] at hlen
      refine ih _ (results_tail h) (.inr ?_) ?_
      · rw [length_flatten_snoc]
        omega
      · rw [length_flatten_snoc]
        omega

/-- What is right about a call that returns, behind these packets. -/
def RightFrom (vptr : Mem) (len : Nat) (received packets : List (List UInt8)) : Prop :=
  ∀ result buf rest, loopFrom vptr len received packets = .returned result buf rest →
    ∃ all, received ++ packets = all ++ rest ∧ result = all.flatten.length ∧
      all.flatten.length ≤ len ∧ buf = heldBuf vptr len all

/-- Without more packets a call is right if the bytes it has received
are counted right. -/
theorem rightFrom_nil (h : received.flatten.length ≤ len) :
    RightFrom vptr len received [] ↔ CountsRight len received.flatten.length [] := by
  rw [RightFrom, CountsRight, loopFrom_nil]
  constructor
  · intro hright hasked
    rw [if_pos hasked] at hright
    by_cases hge : received.flatten.length ≥ len - received.flatten.length
    · rw [if_pos hge] at hright
      obtain ⟨all, hall, hresult, -, -⟩ := hright _ _ _ rfl
      rw [List.append_nil, List.append_nil] at hall
      -- what is returned is the length, not what was read
      subst hall
      omega
    · omega
  · intro hcounts result buf rest hcall
    split at hcall
    · next hasked =>
        have htwice := hcounts hasked
        split at hcall
        · simp only [StdRead.returned.injEq] at hcall
          obtain ⟨rfl, rfl, rfl⟩ := hcall
          exact ⟨received, rfl, by omega, h, rfl⟩
        · cases hcall
    · cases hcall

/-- The call counts right in the end exactly if it does in every pass. -/
theorem rightFrom_iff (packets : List (List UInt8)) :
    ∀ received, received.flatten.length ≤ len → Results (len - received.flatten.length) packets →
      (RightFrom vptr len received packets ↔ CountsRight len received.flatten.length packets) := by
  induction packets with
  | nil => exact fun received hlen _ => rightFrom_nil hlen
  | cons packet packets ih =>
    intro received hlen h
    have hfits : received.flatten.length + packet.length ≤ len := by
      have hasked := h.1.2.1
      have hle := askedFor_le (len - received.flatten.length)
      omega
    have hsnoc := length_flatten_snoc received packet
    have hsplit : received ++ packet :: packets = received ++ [packet] ++ packets := by
      rw [List.append_assoc, List.singleton_append]
    rw [RightFrom, CountsRight, stdReadLoop_cons h]
    by_cases hfull : len ≤ 2 * received.flatten.length + packet.length
    · -- the call ends, and returns the length that was left
      rw [if_pos hfull]
      constructor
      · intro hright
        obtain ⟨all, hall, hresult, -, -⟩ := hright _ _ _ rfl
        rw [hsplit] at hall
        obtain rfl := List.append_cancel_right hall
        exact ⟨by omega, fun _ hlt => absurd hfull (Nat.not_le_of_lt hlt)⟩
      · rintro ⟨htwice, -⟩ result buf rest hcall
        simp only [StdRead.returned.injEq] at hcall
        obtain ⟨rfl, rfl, rfl⟩ := hcall
        exact ⟨_, hsplit, by omega, by omega, rfl⟩
    rw [if_neg hfull]
    by_cases hline : endsLine packet = true
    · -- the line ends, and the bytes so far are returned
      rw [if_pos hline]
      refine ⟨fun _ => ⟨by omega, fun hmore => ?_⟩, fun _ result buf rest hcall => ?_⟩
      · rw [hline] at hmore
        cases hmore
      · simp only [StdRead.returned.injEq] at hcall
        obtain ⟨rfl, rfl, rfl⟩ := hcall
        exact ⟨_, hsplit, by omega, by omega, rfl⟩
    · rw [if_neg hline, hsplit]
      have hrest := ih (received ++ [packet]) (by omega) (results_tail h)
      rw [RightFrom, hsnoc] at hrest
      rw [hrest]
      constructor
      · exact fun hcounts => ⟨by omega, fun _ _ => hcounts⟩
      · exact fun hcounts => hcounts.2 (Bool.eq_false_iff.mpr hline) (by omega)

theorem heldBuf_nil (vptr : Mem) (len : Nat) : heldBuf vptr len [] = ⟨vptr, len⟩ := by
  have hstore : vptr.store 0 [] = vptr := by
    funext x
    exact Mem.store_of_ge _ _ _ (Nat.zero_le x)
  rw [heldBuf, List.flatten_nil, hstore]

/-- A call delivers what it receives exactly if no packet finds more
than `len` bytes when the bytes before it count twice. The number that
is still wanted and the length both go down with each packet. -/
theorem delivers_iff (vptr : Mem) (len : Nat) (packets : List (List UInt8))
    (h : Results len packets) :
    Delivers vptr len packets (stdRead DM_STDIN_NUM vptr len packets) ↔
      CountsRight len 0 packets := by
  have hcall : stdRead DM_STDIN_NUM vptr len packets = loopFrom vptr len [] packets := by
    rw [stdRead, if_neg (not_not_intro rfl), loopFrom, heldBuf_nil]
    rfl
  have hright : RightFrom vptr len [] packets ↔ _ := rightFrom_iff packets [] (Nat.zero_le len) h
  rw [RightFrom, List.nil_append] at hright
  rw [hcall, ← show _ ↔ CountsRight len 0 packets from hright]
  constructor
  · exact fun hdelivers => hdelivers.right
  · intro hcounts
    refine ⟨loopFrom_safe packets [] h, fun hlen => ?_, hcounts⟩
    exact loopFrom_returns packets [] h (.inl rfl)
      (by rw [List.flatten_nil, List.length_nil]; omega)

/-- A line in one packet, in a buffer of ten bytes. -/
theorem delivers_iff_oneLine :
    Delivers (fun _ => 0) 10 [[97, 13, 10]]
        (stdRead DM_STDIN_NUM (fun _ => 0) 10 [[97, 13, 10]]) ↔
      CountsRight 10 0 [[97, 13, 10]] :=
  delivers_iff (fun _ => 0) 10 [[97, 13, 10]] (by decide)

/-- Four bytes and then three more, in a buffer of ten bytes: seven bytes are received, and the
result is 6. -/
theorem not_always_delivers :
    Results 10 [[97, 98, 99, 100], [101, 13, 10]] ∧
      ¬ Delivers (fun _ => 0) 10 [[97, 98, 99, 100], [101, 13, 10]]
        (stdRead DM_STDIN_NUM (fun _ => 0) 10 [[97, 98, 99, 100], [101, 13, 10]]) := by
  refine ⟨by decide, fun h => ?_⟩
  obtain ⟨received, hreceived, hresult, -, -⟩ := h.right 6 _ [] rfl
  rw [List.append_nil] at hreceived
  rw [← hreceived] at hresult
  exact absurd hresult (by decide)

end Alcor.Proofs.Newlib

/-!
## Lines from the console

What a call of `std_read` returns depends only on the stream with its
line endings made one LF each: it takes from there up to the first LF, or as many
characters as the buffer has room for (`lineOf`). `stdReadLoop_spec` says so for the
loop, with `Holds` for the state of the look-ahead character.
-/

namespace Alcor.Proofs.Newlib.Genstd

open Alcor.Newlib (STD_CTRLZ_CODE)
open Alcor.Newlib.Genstd

variable {x y : UInt8} {n : Nat}
variable {a b : Arrival} {rest : List Arrival} {s : Console} {got : List Int} {len : Nat}

/-- These bytes come next, the first of them perhaps as the look-ahead character. -/
def Holds (s : Console) (as : List Arrival) : Prop :=
  (s.stdPrevChar = -1 ∧ s.line = as) ∨
    ∃ a, s.stdPrevChar = a.byte.toNat ∧ as = a :: s.line

theorem pending_of_holds {as : List Arrival} (h : Holds s as) :
    s.pending = as.map (·.byte) := by
  rcases h with ⟨hprev, hline⟩ | ⟨a, hprev, has⟩
  · rw [Console.pending, if_pos hprev, hline, List.nil_append]
  · rw [Console.pending, if_neg (by omega), hprev, has]
    simp

/-- The next character, wherever it is. -/
theorem nextChar_of_holds (h : Holds s (a :: rest)) :
    nextChar s = some ((a.byte.toNat : Int), { s with stdPrevChar := -1, line := rest }) := by
  rcases h with ⟨hprev, hline⟩ | ⟨a', hprev, has⟩
  · rw [nextChar, if_neg (not_not_intro hprev), getChar, hline]
    simp [← hprev]
  · obtain ⟨rfl, rfl⟩ := List.cons.inj has
    rw [nextChar, if_pos (by omega), hprev]

theorem nextChar_of_holds_nil (h : Holds s []) : nextChar s = none := by
  rcases h with ⟨hprev, hline⟩ | ⟨a, hprev, has⟩
  · rw [nextChar, if_neg (not_not_intro hprev), getChar, hline]
  · cases has

/-! ### The stream -/

theorem eq_of_toNat_eq (h : (x.toNat : Int) = n) : x = UInt8.ofNat n := by
  have hx : x.toNat = n := by exact_mod_cast h
  rw [← hx, UInt8.ofNat_toNat]

theorem eq_cr_iff (x : UInt8) : (x.toNat : Int) = 13 ↔ x = 13 :=
  ⟨fun h => @eq_of_toNat_eq x 13 h, fun h => by rw [h]; rfl⟩

theorem eq_lf_iff (x : UInt8) : (x.toNat : Int) = 10 ↔ x = 10 :=
  ⟨fun h => @eq_of_toNat_eq x 10 h, fun h => by rw [h]; rfl⟩

/-- The test with the sum of the two characters. -/
theorem isPair_iff (hx : x = 13 ∨ x = 10) : (y.toNat : Int) + x.toNat = 13 + 10 ↔ IsPair x y := by
  rcases hx with rfl | rfl
  · have hsum : (y.toNat : Int) + (13 : UInt8).toNat = 13 + 10 ↔ (y.toNat : Int) = 10 := by
      have : ((13 : UInt8).toNat : Int) = 13 := rfl
      omega
    rw [hsum, eq_lf_iff]
    simp [IsPair]
  · have hsum : (y.toNat : Int) + (10 : UInt8).toNat = 13 + 10 ↔ (y.toNat : Int) = 13 := by
      have : ((10 : UInt8).toNat : Int) = 10 := rfl
      omega
    rw [hsum, eq_cr_iff]
    simp [IsPair]

theorem isPair_left (h : IsPair x y) : x = 13 ∨ x = 10 :=
  h.imp And.left And.left

/-- Both parts of the stream behind a byte that starts no pair. -/
theorem cooked_cons (x : UInt8) (ys : List UInt8) (h : ∀ y ∈ ys.head?, ¬ IsPair x y) :
    cooked (x :: ys) = single x ++ cooked ys := by
  cases ys with
  | nil => rw [cooked, cooked, List.append_nil]
  | cons y ys => rw [cooked, if_neg (h y rfl)]

theorem cooked_pair (ys : List UInt8) (h : IsPair x y) :
    cooked (x :: y :: ys) = 10 :: cooked ys := by
  rw [cooked, if_pos h]

theorem pairsInTime_tail (h : PairsInTime (a :: rest))
    (hpair : ∀ b ∈ rest.head?, ¬ IsPair a.byte b.byte) : PairsInTime rest := by
  cases rest with
  | nil => trivial
  | cons b rest =>
    rw [PairsInTime, if_neg (hpair b rfl)] at h
    exact h

theorem pairsInTime_pair (h : PairsInTime (a :: b :: rest)) (hpair : IsPair a.byte b.byte) :
    b.inTime = true ∧ PairsInTime rest := by
  rw [PairsInTime, if_pos hpair] at h
  exact h

/-! ### One pass -/

/-- A line ending: the call returns, and the next byte is dropped if the two are a pair. -/
theorem stdReadPass_ending (ha : a.byte = 13 ∨ a.byte = 10)
    (htime : PairsInTime (a :: s.line)) :
    ∃ s', stdReadPass got s a.byte.toNat = (.inl (got ++ [10]), s') ∧
      ∃ rest, Holds s' rest ∧ PairsInTime rest ∧ rest ⊆ s.line ∧
        cooked (a.byte :: s.line.map (·.byte)) = 10 :: cooked (rest.map (·.byte)) := by
  have hsingle : single a.byte = [10] := if_pos ha
  have hc : (a.byte.toNat : Int) = 13 ∨ (a.byte.toNat : Int) = 10 :=
    ha.imp (eq_cr_iff _).mpr (eq_lf_iff _).mpr
  rw [stdReadPass, if_neg (by omega), if_neg (by rcases hc with hc | hc <;> simp [hc]),
    if_neg (by rcases hc with hc | hc <;> rw [hc] <;> decide)]
  refine ⟨_, by simp only [if_pos hc]; rfl, ?_⟩
  cases hline : s.line with
  | nil =>
    rw [hline] at htime
    refine ⟨[], .inl ⟨?_, ?_⟩, trivial, List.Subset.refl _, ?_⟩
    · simp only [getCharInTime, Console.send, hline]
      split <;> rfl
    · simp only [getCharInTime, Console.send, hline]
    · simp [cooked, hsingle]
  | cons b rest =>
    rw [hline] at htime
    by_cases hpair : IsPair a.byte b.byte
    · -- the second byte is in time, and the sum is that of the two
      obtain ⟨hin, htail⟩ := pairsInTime_pair htime hpair
      refine ⟨rest, .inl ⟨?_, ?_⟩, htail, List.subset_cons_self b rest, ?_⟩
      · simp only [getCharInTime, Console.send, hline, hin, if_true]
        exact if_pos ((isPair_iff ha).mpr hpair)
      · simp only [getCharInTime, Console.send, hline, hin, if_true]
      · exact cooked_pair _ hpair
    · have htail := pairsInTime_tail htime (by rintro c hc; cases hc; exact hpair)
      refine ⟨b :: rest, ?_, htail, List.Subset.refl _, ?_⟩
      · by_cases hin : b.inTime = true
        · -- it is kept for the next pass
          refine .inr ⟨b, ?_, ?_⟩
          · simp only [getCharInTime, Console.send, hline, hin, if_true]
            exact if_neg (mt (isPair_iff ha).mp hpair)
          · simp only [getCharInTime, Console.send, hline, hin, if_true]
        · refine .inl ⟨?_, ?_⟩
          · simp only [getCharInTime, Console.send, hline, if_neg hin]
            split <;> rfl
          · simp only [getCharInTime, Console.send, hline, if_neg hin]
      · rw [List.map_cons, cooked_cons _ _ (by rintro c hc; cases hc; exact hpair), hsingle]
        rfl

/-- Any other byte goes to the buffer if it is printed, and nowhere if not. -/
theorem stdReadPass_other (ha : ¬ (a.byte = 13 ∨ a.byte = 10))
    (htyped : a.byte ≠ 8 ∧ a.byte ≠ 0x7F ∧ a.byte ≠ STD_CTRLZ_CODE) :
    ∃ s', stdReadPass got s a.byte.toNat = (.inr (got ++ single a.byte), s') ∧
      s'.stdPrevChar = s.stdPrevChar ∧ s'.line = s.line := by
  -- none of the tests on the character succeeds but the one for printing
  have hne : ∀ n < 256, a.byte ≠ UInt8.ofNat n → (a.byte.toNat : Int) ≠ n :=
    fun n _ hn h => hn (eq_of_toNat_eq h)
  have h8 := hne 8 (by omega) htyped.1
  have h7f := hne 0x7F (by omega) htyped.2.1
  have hz := hne 26 (by omega) htyped.2.2
  have hcr := mt (eq_cr_iff _).mp (not_or.mp ha).1
  have hlf := mt (eq_lf_iff _).mp (not_or.mp ha).2
  have hctrlz : (STD_CTRLZ_CODE.toNat : Int) = 26 := rfl
  rw [stdReadPass, if_neg (by omega), single, if_neg ha, hctrlz]
  by_cases hprint : isprint a.byte.toNat = true
  · rw [if_neg (by simp [hprint]), if_neg (by omega), if_pos hprint]
    exact ⟨_, if_neg (by omega), rfl, rfl⟩
  · rw [if_pos ⟨hprint, by omega, by omega, by omega⟩, if_neg hprint, List.append_nil]
    exact ⟨s, rfl, rfl, rfl⟩

/-! ### A call -/

/-- The characters of a stream that starts with this byte. -/
theorem cooked_cons_other (ha : ¬ (a.byte = 13 ∨ a.byte = 10)) (bs : List UInt8) :
    cooked (a.byte :: bs) = single a.byte ++ cooked bs :=
  cooked_cons _ _ fun _ _ hpair => ha (isPair_left hpair)

theorem single_other (ha : ¬ (a.byte = 13 ∨ a.byte = 10)) :
    single a.byte = [] ∨ ∃ c : Int, c ≠ 10 ∧ single a.byte = [c] := by
  rw [single, if_neg ha]
  split
  · refine .inr ⟨_, ?_, rfl⟩
    exact mt (eq_lf_iff _).mp (not_or.mp ha).2
  · exact .inl rfl

/-- A call behind some passes, from the bytes that come. -/
theorem stdReadLoop_spec (passes : Nat) : ∀ (got : List Int) (s : Console) (as : List Arrival),
    Holds s as → Typed as → PairsInTime as → as.length < passes → got.length ≤ len →
    (lineOf (len - got.length) (cooked (as.map (·.byte))) = none ∧
        stdReadLoop len passes got s = none) ∨
      ∃ data s' rest, lineOf (len - got.length) (cooked (as.map (·.byte))) = some data ∧
        stdReadLoop len passes got s = some (got ++ data, s') ∧ Holds s' rest ∧
        PairsInTime rest ∧ rest ⊆ as ∧
        cooked (as.map (·.byte)) = data ++ cooked (rest.map (·.byte)) := by
  induction passes with
  | zero =>
    intro got s as _ _ _ hpasses _
    omega
  | succ passes ih =>
    intro got s as hs htyped htime hpasses hgot
    by_cases hfull : got.length < len
    case neg =>
      -- the buffer is full
      rw [stdReadLoop, if_neg hfull, show len - got.length = 0 by omega]
      exact .inr ⟨[], s, as, rfl, by rw [List.append_nil], hs, htime, List.Subset.refl _, rfl⟩
    obtain ⟨n, hn⟩ : ∃ n, len - got.length = n + 1 := ⟨len - got.length - 1, by omega⟩
    rw [stdReadLoop, if_pos hfull, hn]
    cases as with
    | nil =>
      rw [nextChar_of_holds_nil hs]
      exact .inl ⟨rfl, rfl⟩
    | cons a rest =>
      rw [nextChar_of_holds hs]
      rw [List.length_cons] at hpasses
      have hatyped := htyped a (List.mem_cons_self)
      by_cases ha : a.byte = 13 ∨ a.byte = 10
      · -- the call returns, and what is left has no part of the line ending
        obtain ⟨s', hpass, rest', hs', htime', hsub, hcooked⟩ :=
          @stdReadPass_ending a { s with stdPrevChar := -1, line := rest } got ha htime
        refine .inr ⟨[10], s', rest', ?_, ?_, hs', htime', ?_, hcooked⟩
        · have hfirst : cooked (a.byte :: rest.map (·.byte)) =
              10 :: cooked (rest'.map (·.byte)) := hcooked
          rw [List.map_cons, hfirst, lineOf, if_pos rfl]
        · simp only [Option.bind_eq_bind, Option.bind_some, hpass]
          rfl
        · exact List.subset_cons_of_subset a hsub
      · obtain ⟨s', hpass, hprev', hline'⟩ :=
          @stdReadPass_other a { s with stdPrevChar := -1, line := rest } got ha hatyped
        have hs' : Holds s' rest := .inl ⟨hprev', hline'⟩
        have hcooked := cooked_cons_other ha (rest.map (·.byte))
        have htail : PairsInTime rest :=
          pairsInTime_tail htime fun _ _ hpair => ha (isPair_left hpair)
        have htyped' : Typed rest := fun b hb => htyped b (List.mem_cons_of_mem a hb)
        simp only [Option.bind_eq_bind, Option.bind_some, hpass, List.map_cons, hcooked]
        rcases single_other ha with hnone | ⟨c, hc, hone⟩
        · -- a control byte
          rw [hnone, List.append_nil, List.nil_append, ← hn]
          rcases ih got s' rest hs' htyped' htail (by omega) hgot with
            hwait | ⟨data, s₂, rest₂, hline, hloop, hs₂, htime₂, hsub, hrest⟩
          · exact .inl hwait
          · exact .inr ⟨data, s₂, rest₂, hline, hloop, hs₂, htime₂,
              List.subset_cons_of_subset a hsub, hrest⟩
        · -- a character that is printed takes one place of the buffer
          rw [hone, List.singleton_append, lineOf, if_neg hc]
          have hlength : (got ++ [c]).length = got.length + 1 := List.length_append
          rcases ih (got ++ [c]) s' rest hs' htyped' htail (by omega) (by omega) with
            ⟨hwait, hloop⟩ | ⟨data, s₂, rest₂, hline, hloop, hs₂, htime₂, hsub, hrest⟩
          · rw [hlength, show len - (got.length + 1) = n by omega] at hwait
            rw [hwait]
            exact .inl ⟨rfl, hloop⟩
          · rw [hlength, show len - (got.length + 1) = n by omega] at hline
            refine .inr ⟨c :: data, s₂, rest₂, ?_, ?_, hs₂, htime₂,
              List.subset_cons_of_subset a hsub, ?_⟩
            · rw [hline]
              rfl
            · rw [hloop, List.append_assoc, List.singleton_append]
            · rw [hrest]
              rfl

/-- A call takes a prefix of the characters that come. -/
theorem lineOf_append {cs data : List Int} (h : lineOf n cs = some data) :
    data ++ cs.drop data.length = cs := by
  induction n generalizing cs data with
  | zero =>
    cases h
    rfl
  | succ n ih =>
    cases cs with
    | nil => cases h
    | cons c cs =>
      rw [lineOf] at h
      split at h
      · next hc =>
          cases h
          rw [hc]
          rfl
      · obtain ⟨data, hdata, rfl⟩ := Option.map_eq_some_iff.mp h
        exact congrArg (c :: ·) (ih hdata)

/-- An LF ends what a call takes. -/
theorem lineOf_dropLast : ∀ {cs data : List Int}, lineOf n cs = some data →
    10 ∉ data.dropLast := by
  induction n with
  | zero =>
    intro cs data h
    cases h
    exact List.not_mem_nil
  | succ n ih =>
    intro cs data h
    cases cs with
    | nil => cases h
    | cons c cs =>
      rw [lineOf] at h
      split at h
      · cases h
        exact List.not_mem_nil
      · next hc =>
          obtain ⟨data, hdata, rfl⟩ := Option.map_eq_some_iff.mp h
          cases data with
          | nil => exact List.not_mem_nil
          | cons d data =>
            rw [List.dropLast_cons_cons, List.mem_cons, not_or]
            exact ⟨Ne.symm hc, ih hdata⟩

/-- There is a line, or the buffer can be filled. -/
theorem lineOf_isSome (n : Nat) : ∀ cs : List Int,
    (lineOf n cs).isSome ↔ 10 ∈ cs ∨ n ≤ cs.length := by
  induction n with
  | zero => exact fun cs => iff_of_true rfl (.inr (Nat.zero_le _))
  | succ n ih =>
    intro cs
    cases cs with
    | nil => simp [lineOf]
    | cons c cs =>
      rw [lineOf]
      by_cases hc : c = 10
      · simp [hc]
      · rw [if_neg hc, Option.isSome_map, ih]
        simp [Ne.symm hc]

/-- What is right about the console between two calls. -/
structure Ready (s : Console) : Prop where
  holds : ∃ as, Holds s as ∧ Typed as ∧ PairsInTime as

/-- A call, in terms of the bytes that no call has returned. -/
theorem stdRead_spec (len : Nat) (hs : Ready s) :
    (lineOf len (cooked s.pending) = none ∧ stdRead len s = none) ∨
      ∃ data s', lineOf len (cooked s.pending) = some data ∧ stdRead len s = some (data, s') ∧
        Ready s' ∧ cooked s.pending = data ++ cooked s'.pending := by
  obtain ⟨as, has, htyped, htime⟩ := hs.holds
  have hlength : as.length < s.line.length + 2 := by
    rcases has with ⟨-, hline⟩ | ⟨a, -, has⟩
    · rw [hline]
      omega
    · rw [has, List.length_cons]
      omega
  rw [pending_of_holds has]
  rcases @stdReadLoop_spec len (s.line.length + 2) [] s as has htyped htime hlength
    (Nat.zero_le len) with hwait | ⟨data, s', rest, hline, hloop, hs', htime', hsub, hrest⟩
  · exact .inl hwait
  · have htyped' : Typed rest := fun b hb => htyped b (hsub hb)
    refine .inr ⟨data, s', hline, hloop, ⟨rest, hs', htyped', htime'⟩, ?_⟩
    rw [pending_of_holds hs', hrest]

theorem stdRead_isSome (len : Nat) (hs : Ready s) :
    (stdRead len s).isSome ↔ 10 ∈ cooked s.pending ∨ len ≤ (cooked s.pending).length := by
  rw [← lineOf_isSome]
  rcases stdRead_spec len hs with ⟨hwait, hcall⟩ | ⟨data, s', hline, hcall, -, -⟩
  · rw [hwait, hcall]
    rfl
  · rw [hline, hcall]
    rfl

/-- A sequence of calls takes lines from the characters that are pending, one call after the
other: each call has the data that `lineOf` takes for its length, and the next one goes on behind
that. The look-ahead character is part of what is pending, so it is neither lost nor read twice. -/
theorem stdReads_lines (lens : List Nat) : ∀ s : Console, Ready s →
    (stdReads lens s).map (fun r => (r.1, cooked r.2.pending)) = linesOf lens (cooked s.pending) ∧
      ∀ datas s', stdReads lens s = some (datas, s') → Ready s' := by
  induction lens with
  | nil =>
    intro s hs
    refine ⟨rfl, fun datas s' h => ?_⟩
    cases h
    exact hs
  | cons len lens ih =>
    intro s hs
    rw [stdReads, linesOf]
    rcases stdRead_spec len hs with ⟨hline, hcall⟩ | ⟨data, s₁, hline, hcall, hs₁, hdata⟩
    · rw [hline, hcall]
      exact ⟨rfl, fun _ _ h => by cases h⟩
    · obtain ⟨hrun, hready⟩ := ih s₁ hs₁
      -- what the call leaves is what is behind its data
      have hrest : (cooked s.pending).drop data.length = cooked s₁.pending := by
        rw [hdata, List.drop_left]
      rw [hline, hcall]
      simp only [Option.bind_eq_bind, Option.bind_some, hrest, ← hrun]
      cases hcalls : stdReads lens s₁ with
      | none => exact ⟨rfl, fun _ _ h => by cases h⟩
      | some r =>
        refine ⟨rfl, fun datas s' h => ?_⟩
        cases h
        exact hready _ _ hcalls

/-- Lines that were taken, with what is left, are the characters they were taken from, and an LF is
only the last character of one. By induction on the calls, as each of them takes a prefix. -/
theorem linesOf_spec {lens : List Nat} {cs rest : List Int} {datas : List (List Int)}
    (h : linesOf lens cs = some (datas, rest)) :
    datas.flatten ++ rest = cs ∧ ∀ data ∈ datas, 10 ∉ data.dropLast := by
  induction lens generalizing cs datas with
  | nil =>
    cases h
    exact ⟨rfl, fun _ hdata => absurd hdata List.not_mem_nil⟩
  | cons len lens ih =>
    rw [linesOf] at h
    obtain ⟨data, hline, h⟩ := Option.bind_eq_some_iff.mp h
    obtain ⟨⟨datas', rest'⟩, hlines, h⟩ := Option.bind_eq_some_iff.mp h
    cases h
    obtain ⟨hflatten, hlast⟩ := ih hlines
    constructor
    · rw [List.flatten_cons, List.append_assoc, hflatten]
      exact lineOf_append hline
    · intro data' hdata'
      rcases List.mem_cons.mp hdata' with rfl | hdata'
      · exact lineOf_dropLast hline
      · exact hlast data' hdata'

/-- Every sequence of calls on a stream of typed bytes has the data of `linesOf` on the cooked
stream, or waits where that has too few characters. So the data is the beginning of the cooked
stream, what is left of it is what is still pending (the look-ahead character included), and an LF
ends the call that returns it. The next call, of any length, returns the next line of the rest. -/
theorem delivers_lines (as : List Arrival) (htyped : Typed as) (htime : PairsInTime as)
    (lens : List Nat) :
    (stdReads lens { line := as }).map (fun r => (r.1, cooked r.2.pending)) =
        linesOf lens (cooked (as.map (·.byte))) ∧
      ∀ datas s, stdReads lens { line := as } = some (datas, s) →
        datas.flatten ++ cooked s.pending = cooked (as.map (·.byte)) ∧
          (∀ data ∈ datas, 10 ∉ data.dropLast) ∧
          ∀ len, (stdRead len s).map Prod.fst = lineOf len (cooked s.pending) ∧
            ((stdRead len s).isSome ↔
              10 ∈ cooked s.pending ∨ len ≤ (cooked s.pending).length) := by
  have hholds : Holds { line := as } as := .inl ⟨rfl, rfl⟩
  obtain ⟨hrun, hready⟩ := stdReads_lines lens _ ⟨as, hholds, htyped, htime⟩
  rw [pending_of_holds hholds] at hrun
  refine ⟨hrun, fun datas s h => ?_⟩
  rw [h] at hrun
  obtain ⟨hflatten, hlast⟩ := linesOf_spec hrun.symm
  have hs := hready datas s h
  refine ⟨hflatten, hlast, fun len => ⟨?_, stdRead_isSome len hs⟩⟩
  rcases stdRead_spec len hs with ⟨hline, hcall⟩ | ⟨data, s', hline, hcall, -, -⟩
  · rw [hline, hcall]
    rfl
  · rw [hline, hcall]
    rfl

/-- The bytes `a CR CR LF b`, read with a buffer of four bytes and one of one byte: the first CR is
a line, and the second one is the look-ahead character. The `b` is left for the next call. -/
theorem delivers_lines_twice :
    let as : List Arrival := [⟨97, true⟩, ⟨13, true⟩, ⟨13, true⟩, ⟨10, true⟩, ⟨98, false⟩]
    (stdReads [4, 1] { line := as }).map (fun r => (r.1, cooked r.2.pending)) =
        some ([[97, 10], [10]], [98]) ∧
      ∀ datas s, stdReads [4, 1] { line := as } = some (datas, s) →
        datas.flatten ++ cooked s.pending = [97, 10, 10, 98] ∧
          (∀ data ∈ datas, 10 ∉ data.dropLast) ∧
          ∀ len, (stdRead len s).map Prod.fst = lineOf len (cooked s.pending) ∧
            ((stdRead len s).isSome ↔
              10 ∈ cooked s.pending ∨ len ≤ (cooked s.pending).length) :=
  delivers_lines _ (by decide) (by decide) [4, 1]

end Alcor.Proofs.Newlib.Genstd
