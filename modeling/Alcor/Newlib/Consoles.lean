import Alcor.Lib.Memory

/-!
# `Alcor.Newlib.Consoles`: the consoles

The standard input over a socket and over a serial line, from
`src/newlib/stdtcp.c` and `src/newlib/genstd.c`.

* `stdRead`: a call over a socket reads packets until there are enough
  bytes, or a line ends; `Delivers` is what is to hold of it.
* `Genstd.stdRead`: a call over a serial line reads characters, with the
  one before them in `std_prev_char`.
* `Genstd.lineOf`, `Genstd.linesOf`: the lines that the characters are
  to be read as.
-/

set_option autoImplicit false

/-!
## The console over TCP

`std_read` of `src/newlib/stdtcp.c` on the socket of the console.
`elua_net_recv` stores a packet at `lptr`, and what it is asked for is
an `elua_net_size`, a signed 16-bit number. A store behind the end of the
caller's buffer makes the call wild.
-/

namespace Alcor.Newlib

open Lib (Mem Buf)

/-- `STD_CTRLZ_CODE`. -/
def STD_CTRLZ_CODE : UInt8 := 26

/-- `DM_STDIN_NUM`. -/
def DM_STDIN_NUM : Int := 0

/-- What a call of `std_read` comes to. -/
inductive StdRead where
  /-- The result and the buffer; these packets were not received. -/
  | returned (result : Int) (buf : Buf) (rest : List (List UInt8))
  /-- It waits for one more packet. -/
  | waits
  /-- `elua_net_recv` is asked for nothing, and returns at once, forever. -/
  | spins
  /-- It has written outside of the buffer. -/
  | wild

/-- The length `len`, as `elua_net_recv` gets it. -/
def askedFor (len : Nat) : Int := (len : Int).bmod (2 ^ 16)

/-- The packet ends in CR and LF. -/
def endsLine (packet : List UInt8) : Bool :=
  decide (packet.length ≥ 2) && packet[packet.length - 2]? == some 13 &&
    packet[packet.length - 1]? == some 10

/-- The loop of `std_read`, from the packets that come next. -/
def stdReadLoop (buf : Buf) (lptr len actsize : Nat) : List (List UInt8) → StdRead
  | [] =>
    if askedFor len = 0 then
      if actsize ≥ len then .returned len buf [] else .spins
    else .waits
  | packet :: packets =>
    if askedFor len = 0 then
      -- the packet is left, and so is everything else
      if actsize ≥ len then .returned len buf (packet :: packets) else .spins
    else
      match buf.put? lptr packet with
      | none     => .wild
      | some buf =>
        if packet.any (· = STD_CTRLZ_CODE) then .returned 0 buf packets
        else if actsize + packet.length ≥ len then .returned len buf packets
        else if endsLine packet then .returned (actsize + packet.length) buf packets
        else stdReadLoop buf (lptr + packet.length) (len - packet.length)
          (actsize + packet.length) packets

/-- `std_read`, for a buffer of `len` bytes. -/
def stdRead (fd : Int) (vptr : Mem) (len : Nat) (packets : List (List UInt8)) : StdRead :=
  if fd ≠ DM_STDIN_NUM then .returned (-1) ⟨vptr, len⟩ packets
  else stdReadLoop ⟨vptr, len⟩ 0 len 0 packets

/-- The packets are results of `elua_net_recv` when `len` bytes are left: each has at least one
byte, at most as many as were asked for, and no end-of-file code. -/
def Results : Nat → List (List UInt8) → Prop
  | _,   []                => True
  | len, packet :: packets =>
    (1 ≤ packet.length ∧ (packet.length : Int) ≤ askedFor len ∧
      STD_CTRLZ_CODE ∉ packet) ∧ Results (len - packet.length) packets

instance decidableResults : ∀ len packets, Decidable (Results len packets)
  | _,   []                => .isTrue trivial
  | len, packet :: packets =>
    have := decidableResults (len - packet.length) packets
    inferInstanceAs (Decidable ((1 ≤ packet.length ∧ (packet.length : Int) ≤ askedFor len ∧
      STD_CTRLZ_CODE ∉ packet) ∧ Results (len - packet.length) packets))

/-- The call comes back when there are enough packets, with what it has received at the start of the
buffer, and with the number of these bytes. -/
structure Delivers (vptr : Mem) (len : Nat) (packets : List (List UInt8)) (call : StdRead) :
    Prop where
  safe : call ≠ .wild
  returns : len ≤ packets.length → ∃ result buf rest, call = .returned result buf rest
  right : ∀ result buf rest, call = .returned result buf rest →
    ∃ received, packets = received ++ rest ∧ result = received.flatten.length ∧
      received.flatten.length ≤ len ∧ buf = ⟨vptr.store 0 received.flatten, len⟩

/-- As long as no line has ended, twice the bytes before a packet and those of the packet are at
most `len`, and the call ends when they are `len`. A request for nothing is a packet of no bytes. -/
def CountsRight (len before : Nat) : List (List UInt8) → Prop
  | []                => askedFor (len - before) = 0 → 2 * before ≤ len
  | packet :: packets =>
    2 * before + packet.length ≤ len ∧
      (endsLine packet = false → 2 * before + packet.length < len →
        CountsRight len (before + packet.length) packets)

end Alcor.Newlib

/-!
## The console over a UART

`std_read` of `src/newlib/genstd.c`. After a CR or LF it looks at the
next character, which is `std_prev_char` in between the calls, and drops
it when the two are CR and LF in any order. A character is an `int`, and
`-1` is none.
-/

namespace Alcor.Newlib.Genstd

/-- A byte that arrives on the line. -/
structure Arrival where
  byte : UInt8
  /-- It is there within `STD_INTER_CHAR_TIMEOUT` when somebody waits for it that long. -/
  inTime : Bool
  deriving DecidableEq, Repr

/-- `isprint` of the C locale, of a character. -/
def isprint (c : Int) : Bool := decide (32 ≤ c) && decide (c ≤ 126)

structure Console where
  /-- `std_prev_char`. -/
  stdPrevChar : Int := -1
  /-- What is still to arrive. -/
  line : List Arrival
  /-- What was sent to `DM_STDOUT_NUM`. -/
  sent : List Int := []
  deriving DecidableEq, Repr

/-- `std_get_char_func( STD_INFINITE_TIMEOUT )`. Without a byte it does not return. -/
def getChar (s : Console) : Option (Int × Console) :=
  match s.line with
  | []           => none
  | a :: arrivals => some (a.byte.toNat, { s with line := arrivals })

/-- `std_get_char_func( STD_INTER_CHAR_TIMEOUT )`. -/
def getCharInTime (s : Console) : Int × Console :=
  match s.line with
  | []           => (-1, s)
  | a :: arrivals => if a.inTime then (a.byte.toNat, { s with line := arrivals }) else (-1, s)

/-- `std_send_char_func`, of these characters. -/
def Console.send (s : Console) (cs : List Int) : Console := { s with sent := s.sent ++ cs }

/-- The look-ahead character of the previous call, or the next one. -/
def nextChar (s : Console) : Option (Int × Console) :=
  if s.stdPrevChar ≠ -1 then some (s.stdPrevChar, { s with stdPrevChar := -1 }) else getChar s

/-- One pass of the loop: what is in the buffer, or what the call returns. -/
def stdReadPass (got : List Int) (s : Console) (c : Int) : (List Int ⊕ List Int) × Console :=
  if c = 8 ∨ c = 0x7F then
    if got ≠ [] then (.inr got.dropLast, s.send [8, 32, 8]) else (.inr got, s)
  else if ¬ isprint c ∧ c ≠ 10 ∧ c ≠ 13 ∧ c ≠ STD_CTRLZ_CODE.toNat then (.inr got, s)
  else if c = STD_CTRLZ_CODE.toNat then (.inl [], s)
  else
    let s := s.send [c]
    if c = 13 ∨ c = 10 then
      -- CR LF and LF CR have the same sum
      let (prev, s) := getCharInTime s
      let prev := if prev + c = 13 + 10 then -1 else prev
      (.inl (got ++ [10]), { s with stdPrevChar := prev }.send [13 + 10 - c])
    else (.inr (got ++ [c]), s)

/-- The loop, for a number of passes. `none` is a call that still waits. -/
def stdReadLoop (len : Nat) : Nat → List Int → Console → Option (List Int × Console)
  | 0,          _,   _ => none
  | passes + 1, got, s =>
    if got.length < len then do
      let (c, s) ← nextChar s
      match stdReadPass got s c with
      | (.inl data, s) => return (data, s)
      | (.inr got, s)  => stdReadLoop len passes got s
    else some (got, s)

/-- `std_read` on `DM_STDIN_NUM`, for a buffer of `len` bytes. Each pass takes a character, so this
number of passes is enough. -/
def stdRead (len : Nat) (s : Console) : Option (List Int × Console) :=
  stdReadLoop len (s.line.length + 2) [] s

/-- A sequence of calls, and the data of each. -/
def stdReads : List Nat → Console → Option (List (List Int) × Console)
  | [],          s => some ([], s)
  | len :: lens, s => do
      let (data, s) ← stdRead len s
      let (datas, s) ← stdReads lens s
      return (data :: datas, s)

/-! ### What is read -/

/-- CR LF or LF CR. -/
def IsPair (a b : UInt8) : Prop := (a = 13 ∧ b = 10) ∨ (a = 10 ∧ b = 13)

instance (a b : UInt8) : Decidable (IsPair a b) := inferInstanceAs (Decidable (_ ∨ _))

/-- A byte by itself: a line ending is LF, and other control bytes are nothing. -/
def single (b : UInt8) : List Int :=
  if b = 13 ∨ b = 10 then [10] else if isprint b.toNat then [(b.toNat : Int)] else []

/-- The stream, from left to right: a pair is one line ending. -/
def cooked : List UInt8 → List Int
  | []           => []
  | [a]          => single a
  | a :: b :: bs => if IsPair a b then 10 :: cooked bs else single a ++ cooked (b :: bs)

/-- What a call for `n` characters takes from characters that come: those up to the first LF, but no
more than `n`. With less than that it waits. -/
def lineOf : Nat → List Int → Option (List Int)
  | 0,     _       => some []
  | _ + 1, []      => none
  | n + 1, c :: cs => if c = 10 then some [10] else (lineOf n cs).map (c :: ·)

/-- What calls for these numbers of characters take one after the other, and what is left. -/
def linesOf : List Nat → List Int → Option (List (List Int) × List Int)
  | [],          cs => some ([], cs)
  | len :: lens, cs => do
      let data ← lineOf len cs
      let (datas, cs) ← linesOf lens (cs.drop data.length)
      return (data :: datas, cs)

/-- The second byte of each pair arrives within the inter-character timeout. -/
def PairsInTime : List Arrival → Prop
  | []           => True
  | [_]          => True
  | a :: b :: as =>
    if IsPair a.byte b.byte then b.inTime ∧ PairsInTime as else PairsInTime (b :: as)

instance decidablePairsInTime : ∀ as, Decidable (PairsInTime as)
  | []           => .isTrue trivial
  | [_]          => .isTrue trivial
  | a :: b :: as =>
    have := decidablePairsInTime as
    have := decidablePairsInTime (b :: as)
    inferInstanceAs (Decidable (if IsPair a.byte b.byte then _ else _))

/-- No backspace, delete or end-of-file code. -/
def Typed (as : List Arrival) : Prop :=
  ∀ a ∈ as, a.byte ≠ 8 ∧ a.byte ≠ 0x7F ∧ a.byte ≠ STD_CTRLZ_CODE

instance (as : List Arrival) : Decidable (Typed as) :=
  inferInstanceAs (Decidable (∀ a ∈ as, _))

/-- The bytes that no call has returned: the look-ahead character and what is still to arrive. -/
def Console.pending (s : Console) : List UInt8 :=
  (if s.stdPrevChar = -1 then [] else [UInt8.ofNat s.stdPrevChar.toNat]) ++ s.line.map (·.byte)

end Alcor.Newlib.Genstd
