import Mathlib.Data.List.TakeWhile
import Alcor.Uip.Events
import Alcor.Proofs.Uip.Sending

/-!
# `Alcor.Proofs.Uip.Receiving`: what a socket receives

Reads from a socket, and the telnet console over one. Segments come one
after the other, of any lengths. `Assembling` is the invariant of a call
of `elua_net_recv`: what was wanted of the segments so far is stored.
`Reading` is that of a telnet session, whose segments are filtered one
by one.

* `Assembling.step`: a segment that fits keeps the invariant.
* `recv_delivers`: the call delivers what was asked for.
* `overflow_lost`: a segment that does not fit.
* `Reading.step`: a segment of whole items keeps the invariant.
* `telnet_filtered`: the reads return the text of the stream.
* `segmentation_matters`: a command that is cut by a segment.
-/

set_option autoImplicit false

/-!
## What is stored

`Assembling` is the invariant of a call that receives: the destination
holds what was asked for of the stream so far, the length that is left
is the rest of the maximum size, and the terminator has not come.
`Assembling.segment` is the step lemma for a segment that fits.
-/

namespace Alcor.Proofs.Uip

open Lib (Mem)
open Lib.Run (run AllSteps invariant_run)
open Alcor.Uip

variable {s : Receiving}
variable {char : UInt8 → Int} {window : Nat}

/-! ### The stream -/

/-- The loop over the characters keeps those before the terminator that are not returns. -/
theorem recvLoop_eq (readto : Int) (bs : List UInt8) :
    recvLoop char readto bs =
      ((bs.takeWhile fun b => char b ≠ readto).filter (· ≠ 13),
        bs.any fun b => char b = readto) := by
  induction bs with
  | nil => rfl
  | cons b bs ih =>
    by_cases hend : char b = readto
    · simp [recvLoop, hend]
    · by_cases hreturn : b = 13
      · subst hreturn
        simp [recvLoop, hend, ih]
      · simp [recvLoop, hend, hreturn, ih]

/-- The characters of a segment that the application takes. -/
theorem taken_eq (readto : Int) (bs : List UInt8) :
    (if readto ≠ ELUA_NET_NO_LASTCHAR then recvLoop char readto bs else (bs, false)) =
      (wanted char readto bs, terminated char readto bs) := by
  by_cases hnone : readto = ELUA_NET_NO_LASTCHAR
  · simp [hnone, wanted, terminated]
  · simp [hnone, wanted, terminated, recvLoop_eq]

/-- Without a terminator in the first part, both parts contribute. -/
theorem wanted_append {readto : Int} {bs : List UInt8}
    (h : terminated char readto bs = false) (cs : List UInt8) :
    wanted char readto (bs ++ cs) = wanted char readto bs ++ wanted char readto cs := by
  by_cases hnone : readto = ELUA_NET_NO_LASTCHAR
  · simp [wanted, hnone]
  · have hbs : ∀ b ∈ bs, char b ≠ readto := by
      simpa [terminated, hnone] using h
    have htake : (bs ++ cs).takeWhile (fun b => char b ≠ readto) =
        bs ++ cs.takeWhile fun b => char b ≠ readto :=
      List.takeWhile_append_of_pos fun b hb => by simpa using hbs b hb
    have hself : bs.takeWhile (fun b => char b ≠ readto) = bs :=
      List.takeWhile_eq_self_iff.mpr fun b hb => by simpa using hbs b hb
    rw [wanted, if_neg hnone, htake, List.filter_append, wanted, if_neg hnone, hself, wanted,
      if_neg hnone]

theorem terminated_append (readto : Int) (bs cs : List UInt8) :
    terminated char readto (bs ++ cs) =
      (terminated char readto bs || terminated char readto cs) := by
  by_cases hnone : readto = ELUA_NET_NO_LASTCHAR <;> simp [terminated, hnone]

theorem length_wanted_le (readto : Int) (bs : List UInt8) :
    (wanted char readto bs).length ≤ bs.length := by
  unfold wanted
  split
  · exact Nat.le_refl _
  · exact Nat.le_trans (List.length_filter_le _ _) (List.takeWhile_sublist _).length_le

/-! ### The invariant -/

/-- The kind of destination, as `res` has it while the call waits. -/
def kind : Ptr → Nat
  | .mem _     => 0
  | .luaBuffer => 1

/-- What holds in every state of a call: what was asked for is stored. -/
structure Assembled (char : UInt8 → Int) (s : Receiving) : Prop where
  maxsize_lt : s.maxsize < 2 ^ 15
  sound : s.wild = false
  len : s.sock.len = s.maxsize - (s.wanted char).length
  le : (s.wanted char).length ≤ s.maxsize
  stored : s.Stored (s.wanted char)

/-- What else holds while the call waits. -/
structure Waiting (char : UInt8 → Int) (s : Receiving) : Prop where
  state : s.sock.state = .RECV ∨ s.sock.state = .RECV_2
  ptr : s.sock.ptr = s.buf
  readto : s.sock.readto = s.readto
  res : s.sock.res = kind s.buf
  open_ : terminated char s.readto s.segments.flatten = false

/-- What is known of a call that has come back on an open connection. -/
def Complete (char : UInt8 → Int) (window : Nat) (s : Receiving) : Prop :=
  terminated char s.readto s.segments.flatten = true ∨ s.maxsize ≤ (s.wanted char).length ∨
    ∃ data, s.segments.getLast? = some data ∧ data.length < window

/-- The invariant of a call that receives. -/
structure Assembling (char : UInt8 → Int) (window : Nat) (s : Receiving) : Prop where
  assembled : Assembled char s
  phase : Waiting char s ∨
    (s.sock.state = .IDLE ∧ (s.lost = false → Complete char window s))

/-- A socket that is idle stays as it is. -/
theorem recv_call_idle (h : s.sock.state = .IDLE) (u : UipCall) : s.call char window u = s := by
  simp only [Receiving.call, appcall, if_pos h]

/-- What a segment adds to the destination. -/
theorem deliver_eq (h : Assembled char s) (hw : Waiting char s) {bs : List UInt8}
    (hplace : s.buf = .luaBuffer ∨ s.wanted char = [] ∨ bs = []) :
    ∃ w, deliver s.sock bs s.world = some w ∧
      ({ s with world := w } : Receiving).Stored (s.wanted char ++ bs) := by
  by_cases hnil : bs = []
  · refine ⟨s.world, if_pos hnil, ?_⟩
    rw [hnil, List.append_nil]
    exact h.stored
  · have hstored := h.stored
    cases hbuf : s.buf with
    | luaBuffer =>
      simp only [Receiving.Stored, hbuf] at hstored ⊢
      refine ⟨{ s.world with luaBuffer := s.world.luaBuffer ++ bs }, ?_, ?_, hstored.2⟩
      · simp [deliver, hnil, hw.ptr, hbuf, hw.res, kind]
      · rw [hstored.1, List.append_assoc]
    | mem a =>
      -- these are the first bytes, so they go to the start
      have hfirst : s.wanted char = [] := by
        rcases hplace with hlua | hfirst | hbs
        · rw [hbuf] at hlua
          cases hlua
        · exact hfirst
        · exact absurd hbs hnil
      simp only [Receiving.Stored, hbuf, hfirst, Mem.store_nil, List.nil_append] at hstored ⊢
      refine ⟨{ s.world with mem := s.world.mem.store a bs }, ?_, hstored.1, ?_⟩
      · simp [deliver, hnil, hw.ptr, hbuf, hw.res, kind]
      · rw [hstored.2]

/-- A segment that fits keeps the invariant. -/
theorem Assembling.segment (h : Assembled char s) (hw : Waiting char s)
    (hstate : s.sock.state = .RECV_2) {data : List UInt8} (hfits : s.Fits char (.segment data)) :
    Assembling char window (({ s with segments := s.segments ++ [data] } : Receiving).call char
      window { newdata := true, appdata := data }) := by
  obtain ⟨hlen, hplace⟩ := hfits
  have hsize := h.maxsize_lt
  have hsock := h.len
  have hwle : (wanted char s.readto data).length ≤ data.length := length_wanted_le _ _
  have hflat : (s.segments ++ [data]).flatten = s.segments.flatten ++ data := by simp
  have hmore : ({ s with segments := s.segments ++ [data] } : Receiving).wanted char =
      s.wanted char ++ wanted char s.readto data := by
    rw [Receiving.wanted, hflat, wanted_append hw.open_]
    rfl
  -- into memory only the first bytes go to the right place: the pointer does not move
  have hwhere : s.buf = .luaBuffer ∨ s.wanted char = [] ∨ wanted char s.readto data = [] := by
    refine hplace.imp_right (Or.imp_left fun hall => ?_)
    rw [hsock] at hall
    exact List.length_eq_zero_iff.mp (by omega)
  obtain ⟨w, hdeliver, hstored⟩ := deliver_eq h hw hwhere
  have hnolarge : ¬ s.sock.len < (data.length : Int) := Int.not_lt.mpr hlen
  have hnonneg : ¬ (s.readto = ELUA_NET_NO_LASTCHAR ∧ (data.length : Int) < 0) := by omega
  have hleft : netSize (s.sock.len - (wanted char s.readto data).length) =
      s.maxsize - ↑(s.wanted char ++ wanted char s.readto data).length := by
    rw [List.length_append, hsock, netSize_of_lt (by omega) (by omega)]
    omega
  -- what `elua_uip_appcall` does with the segment
  have happ : ({ s with segments := s.segments ++ [data] } : Receiving).call char window
      { newdata := true, appdata := data } =
      { s with
        segments := s.segments ++ [data]
        world := w
        sock :=
          if (s.maxsize : Int) - ↑(s.wanted char ++ wanted char s.readto data).length = 0 ∨
              (decide (data.length < window) || terminated char s.readto data) = true then
            { s.sock with
              len := s.maxsize - ↑(s.wanted char ++ wanted char s.readto data).length
              res := ELUA_NET_ERR_OK
              state := .IDLE }
          else { s.sock with
              len := s.maxsize - ↑(s.wanted char ++ wanted char s.readto data).length } } := by
    simp only [Receiving.call, appcall, hstate, reduceCtorEq, if_false, Bool.or_false,
      Bool.false_eq_true, false_and, if_true, appcallRecv, if_neg hnolarge,
      Int.toNat_natCast, List.take_length, hw.readto, taken_eq, if_neg hnonneg, hdeliver,
      Option.map_some, hleft]
    split <;> rfl
  rw [happ]
  have hassembled : ∀ sock : SockState,
      sock.len = s.maxsize - ↑(s.wanted char ++ wanted char s.readto data).length →
      Assembled char { s with segments := s.segments ++ [data], world := w, sock } := by
    intro sock hsocklen
    have hwanted : ({ s with segments := s.segments ++ [data], world := w, sock } :
        Receiving).wanted char = s.wanted char ++ wanted char s.readto data := hmore
    refine ⟨hsize, h.sound, ?_, ?_, ?_⟩
    · rw [hwanted]
      exact hsocklen
    · rw [hwanted, List.length_append]
      show _ ≤ s.maxsize
      omega
    · rw [hwanted]
      exact hstored
  split
  · -- full, at the end of the data or at the terminator: the call comes back
    next hend =>
    refine ⟨hassembled _ rfl, .inr ⟨rfl, fun _ => ?_⟩⟩
    obtain hfull | hlast := hend
    · refine .inr (.inl ?_)
      show s.maxsize ≤ (({ s with segments := s.segments ++ [data] } : Receiving).wanted
        char).length
      rw [hmore]
      omega
    · obtain hshort | hterm := Bool.or_eq_true_iff.mp hlast
      · exact .inr (.inr ⟨data, by simp, of_decide_eq_true hshort⟩)
      · refine .inl ?_
        show terminated char s.readto (s.segments ++ [data]).flatten = true
        rw [hflat, terminated_append, hterm, Bool.or_true]
  · next hgo =>
    refine ⟨hassembled _ rfl, .inl ⟨.inr hstate, hw.ptr, hw.readto, hw.res, ?_⟩⟩
    show terminated char s.readto (s.segments ++ [data]).flatten = false
    rw [hflat, terminated_append, hw.open_, Bool.false_or]
    exact Bool.eq_false_iff.mpr fun hterm => hgo (.inr (by rw [hterm, Bool.or_true]))

/-- A call that closes the connection keeps what is stored. -/
theorem Assembling.lose (h : Assembling char window s) {u : UipCall}
    (hflags : (u.aborted || u.timedout || u.closed) = true) :
    Assembling char window (({ s with lost := true } : Receiving).call char window u) := by
  have hassembled : Assembled char { s with lost := true } :=
    ⟨h.assembled.maxsize_lt, h.assembled.sound, h.assembled.len, h.assembled.le,
      h.assembled.stored⟩
  obtain hw | ⟨hidle, -⟩ := h.phase
  · obtain hstate | hstate := hw.state
    · -- the first call only starts the flow of data
      have happ : ({ s with lost := true } : Receiving).call char window u =
          { s with lost := true, sock := { s.sock with state := .RECV_2 } } := by
        simp [Receiving.call, appcall, hstate]
      rw [happ]
      exact ⟨⟨hassembled.maxsize_lt, hassembled.sound, hassembled.len, hassembled.le,
        hassembled.stored⟩, .inl ⟨.inr rfl, hw.ptr, hw.readto, hw.res, hw.open_⟩⟩
    · have happ : ({ s with lost := true } : Receiving).call char window u =
          { s with
            lost := true
            sock := { s.sock with
              res := if u.aborted then ELUA_NET_ERR_ABORTED
                else if u.timedout then ELUA_NET_ERR_TIMEDOUT else ELUA_NET_ERR_CLOSED
              state := .IDLE } } := by
        simp only [Receiving.call, appcall, hstate, reduceCtorEq, if_false, hflags, if_true]
      rw [happ]
      exact ⟨⟨hassembled.maxsize_lt, hassembled.sound, hassembled.len, hassembled.le,
        hassembled.stored⟩, .inr ⟨rfl, fun hopen => by cases hopen⟩⟩
  · rw [recv_call_idle (s := { s with lost := true }) hidle]
    exact ⟨hassembled, .inr ⟨hidle, fun hopen => by cases hopen⟩⟩

/-- A poll starts the flow of data, or does nothing. -/
theorem Assembling.poll (h : Assembling char window s) :
    Assembling char window (s.call char window { poll := true }) := by
  obtain hw | ⟨hidle, -⟩ := h.phase
  · obtain hstate | hstate := hw.state
    · have happ : s.call char window { poll := true } =
          { s with sock := { s.sock with state := .RECV_2 } } := by
        simp [Receiving.call, appcall, hstate]
      rw [happ]
      exact ⟨⟨h.assembled.maxsize_lt, h.assembled.sound, h.assembled.len, h.assembled.le,
        h.assembled.stored⟩, .inl ⟨.inr rfl, hw.ptr, hw.readto, hw.res, hw.open_⟩⟩
    · have happ : s.call char window { poll := true } = s := by
        simp [Receiving.call, appcall, hstate]
      rw [happ]
      exact h
  · rw [recv_call_idle hidle]
    exact h

/-- Every event keeps the invariant, as long as the segments fit. -/
theorem Assembling.step {s' : Receiving} (h : Assembling char window s) {e : RecvEvent}
    (hok : s.Fits char e) (hstep : s.step char window e = some s') : Assembling char window s' := by
  simp only [Receiving.step] at hstep
  split at hstep
  · cases hstep
  · cases e with
    | poll => exact Option.some.inj hstep ▸ h.poll
    | aborted => exact Option.some.inj hstep ▸ h.lose rfl
    | timedout => exact Option.some.inj hstep ▸ h.lose rfl
    | closed => exact Option.some.inj hstep ▸ h.lose rfl
    | segment data =>
      dsimp only at hstep
      split at hstep
      · cases hstep
      · next hcomes =>
        have hstate : s.sock.state = .RECV_2 := not_not.mp (not_or.mp hcomes).2
        obtain hw | ⟨hidle, -⟩ := h.phase
        · exact Option.some.inj hstep ▸ Assembling.segment h.assembled hw hstate hok
        · rw [hidle] at hstate
          cases hstate

/-- The invariant says that the call delivers. -/
theorem Assembling.delivers (h : Assembling char window s) : s.Delivers char window := by
  have hle := h.assembled.le
  have hsize := h.assembled.maxsize_lt
  have htake : (s.wanted char).take s.maxsize = s.wanted char := List.take_of_length_le hle
  refine ⟨h.assembled.sound, ?_, ?_, ?_, ?_⟩
  · rw [htake]
    exact h.assembled.stored
  · intro _
    rw [htake, netRecvResult, h.assembled.len, netSize_of_lt (by omega) (by omega)]
    omega
  · intro hret hopen
    obtain hw | ⟨-, hcomplete⟩ := h.phase
    · rw [Receiving.Returned] at hret
      obtain hstate | hstate := hw.state <;> rw [hstate] at hret <;> cases hret
    · exact hcomplete hopen
  · intro _ _ hover
    exact absurd hover (Nat.not_lt.mpr hle)

/-- The invariant holds when the call begins. -/
theorem assembling_start (buf : Ptr) {maxsize : Nat} (hsize : maxsize < 2 ^ 15) (readto : Int)
    (world : World) : Assembling char window (Receiving.start buf maxsize readto world) := by
  have hnil : (Receiving.start buf maxsize readto world).wanted char = [] := by
    show wanted char readto [] = []
    simp [wanted]
  refine ⟨⟨hsize, rfl, ?_, ?_, ?_⟩, .inl ⟨.inl rfl, rfl, rfl, ?_, ?_⟩⟩
  · rw [hnil]
    simp [Receiving.start, netRecvStart, prepSocketState]
  · rw [hnil]
    exact Nat.zero_le _
  · rw [hnil]
    cases buf with
    | mem a => exact ⟨rfl, (Mem.store_nil _ _).symm⟩
    | luaBuffer => exact ⟨(List.append_nil _).symm, rfl⟩
  · cases buf <;> rfl
  · show terminated char readto [] = false
    simp [terminated]

/-! ### Whole calls -/

/-- An unsigned `char`. -/
def uchar (b : UInt8) : Int := b.toNat

/-- Memory full of zeros. -/
def blank : World := { mem := fun _ => 0 }

/-- A line that is read up to the line feed: `7`, a carriage return and a line feed. -/
def lineEvents : List RecvEvent := [.poll, .segment [7, 13, 10]]

/-- The state after it. -/
def lineRead : Receiving :=
  { buf := .luaBuffer, maxsize := 5, readto := 10, before := blank
    world := { mem := blank.mem, luaBuffer := [7] }
    segments := [[7, 13, 10]]
    sock := { state := .IDLE, res := 0, ptr := .luaBuffer, len := 4, readto := 10 } }

theorem lineEvents_run : run (Receiving.step uchar 970)
    (Receiving.start .luaBuffer 5 10 blank) lineEvents = some lineRead := rfl

theorem lineEvents_ok : AllSteps (Receiving.step uchar 970) (Receiving.Fits uchar)
    (Receiving.start .luaBuffer 5 10 blank) lineEvents := by
  refine ⟨trivial, fun s hs => ?_⟩
  obtain rfl := Option.some.inj hs
  exact ⟨⟨by decide, .inl rfl⟩, fun _ _ => trivial⟩

end Alcor.Proofs.Uip

/-!
## Commands and segments

`telnetLoop_encode` says what the filter does with whole items: it gives
their text, as far as there is room. So the text is a function of the
bytes (`text_unique`), and a session whose segments consist of whole
items, with text that fits, delivers the text of the stream.
-/

namespace Alcor.Proofs.Uip

open Lib (Mem)
open Lib.Run (run AllSteps invariant_run)
open Alcor.Uip

variable {s : Session}

/-! ### The filter -/

theorem encode_cons (i : Item) (items : List Item) :
    encode (i :: items) = i.encode ++ encode items := rfl

theorem text_cons (i : Item) (items : List Item) : text (i :: items) = i.text ++ text items := rfl

theorem encode_append (is js : List Item) : encode (is ++ js) = encode is ++ encode js :=
  List.flatMap_append

theorem text_append (is js : List Item) : text (is ++ js) = text is ++ text js :=
  List.flatMap_append

/-- One pass over an item that has room. -/
theorem telnetLoop_item (beyond : UInt8) {i : Item} (hvalid : i.Valid) (rest : List UInt8)
    (n room : Nat) (hroom : i.text.length ≤ room) (hpos : 0 < room) :
    telnetLoop beyond (n + 1) (i.encode ++ rest) room =
      (i.text ++ (telnetLoop beyond n rest (room - i.text.length)).1,
        (telnetLoop beyond n rest (room - i.text.length)).2) := by
  obtain ⟨room, rfl⟩ := Nat.exists_eq_succ_of_ne_zero (Nat.pos_iff_ne_zero.mp hpos)
  cases i with
  | char b =>
    have hb : b ≠ TELNET_IAC_CHAR := hvalid
    simp [Item.encode, Item.text, telnetLoop, hb]
  | two c =>
    have hc : ¬ (TELNET_IAC_3B_FIRST ≤ c ∧ c ≤ TELNET_IAC_3B_LAST) := hvalid
    by_cases heof : c = TELNET_EOF
    · subst heof
      simp [Item.encode, Item.text, telnetLoop, hc]
    · simp [Item.encode, Item.text, telnetLoop, hc, heof]
  | three c d =>
    have hc : TELNET_IAC_3B_FIRST ≤ c ∧ c ≤ TELNET_IAC_3B_LAST := hvalid
    simp [Item.encode, Item.text, telnetLoop, hc]

/-- The filter gives the text of whole items, as long as it fits. -/
theorem telnetLoop_encode (beyond : UInt8) (items : List Item) (hvalid : Valid items) :
    ∀ n room, (encode items).length ≤ n → (text items).length ≤ room →
      telnetLoop beyond n (encode items) room = (text items, false) := by
  induction items with
  | nil =>
    intro n room _ _
    cases n <;> rfl
  | cons i items ih =>
    intro n room hn hroom
    have hi : i.Valid := hvalid i List.mem_cons_self
    have hlen : 1 ≤ i.encode.length := by cases i <;> simp [Item.encode]
    rw [encode_cons, List.length_append] at hn
    rw [text_cons, List.length_append] at hroom
    obtain ⟨n, rfl⟩ := Nat.exists_eq_succ_of_ne_zero (n := n) (by omega)
    by_cases hpos : 0 < room
    · rw [encode_cons, text_cons, telnetLoop_item beyond hi _ n room (by omega) hpos,
        ih (fun j hj => hvalid j (List.mem_cons_of_mem i hj)) n _ (by omega) (by omega)]
    · -- there is no room left, and there is no text left
      have hnil : text (i :: items) = [] := by
        rw [← List.length_eq_zero_iff, text_cons, List.length_append]
        omega
      rw [hnil, encode_cons]
      obtain ⟨b, bs, hb⟩ : ∃ b bs, i.encode ++ encode items = b :: bs := by
        cases i <;> exact ⟨_, _, rfl⟩
      rw [hb, Nat.eq_zero_of_not_pos hpos, telnetLoop]

/-- The text depends on the bytes only. -/
theorem text_unique {is js : List Item} (hi : Valid is) (hj : Valid js)
    (h : encode is = encode js) : text is = text js := by
  have hroom := telnetLoop_encode 0 is hi (encode is).length
    ((text is).length + (text js).length) (Nat.le_refl _) (Nat.le_add_right _ _)
  have hroom' := telnetLoop_encode 0 js hj (encode is).length
    ((text is).length + (text js).length) (h ▸ Nat.le_refl _) (Nat.le_add_left _ _)
  rw [h] at hroom hroom'
  exact congrArg Prod.fst (hroom.symm.trans hroom')

/-! ### Sessions -/

/-- The invariant of a session: it has delivered the text of the items so far. -/
structure Reading (s : Session) : Prop where
  outside : s.world.outside = false
  items : ∃ items, Valid items ∧ encode items = s.stream ∧ s.delivered = text items
  state : s.sock.state = .IDLE ∨
    ((s.sock.state = .RECV ∨ s.sock.state = .RECV_2) ∧ s.sock.ptr = .mem 0 ∧
      s.sock.len = s.maxsize ∧ s.maxsize < 2 ^ 15)

/-- A segment of whole items delivers their text. -/
theorem Reading.segment {s' : Session} (h : Reading s) {data : List UInt8} {beyond : UInt8}
    (hwhole : s.Whole (.segment data beyond)) (hstep : s.step (.segment data beyond) = some s') :
    Reading s' := by
  obtain ⟨is, hvalid, rfl, hfits⟩ := hwhole
  obtain ⟨js, hjs, hstream, hdelivered⟩ := h.items
  simp only [Session.step] at hstep
  split at hstep
  · cases hstep
  · next hcomes =>
    have hrecv : s.sock.state = .RECV_2 := not_not.mp (not_or.mp hcomes).2
    obtain hidle | ⟨-, hptr, hlen, hsize⟩ := h.state
    · rw [hidle] at hrecv
      cases hrecv
    · -- the text fits, so the filter gives all of it
      have hloop : telnetLoop beyond (encode is).length (encode is) s.sock.len.toNat =
          (text is, false) :=
        telnetLoop_encode beyond is hvalid _ _ (Nat.le_refl _) (by omega)
      have hvalid' : Valid (js ++ is) := fun i hi =>
        (List.mem_append.mp hi).elim (hjs i) (hvalid i)
      by_cases hnone : 0 < (text is).length
      · -- the read comes back with the text
        have hcall : ({ s with stream := s.stream ++ encode is } : Session).call
            { newdata := true, appdata := encode is, beyond } = some
              { s with
                stream := s.stream ++ encode is
                world := { s.world with mem := s.world.mem.store 0 (text is) }
                sock := { s.sock with
                  ptr := .mem (0 + (text is).length)
                  res := ELUA_NET_ERR_OK
                  len := netSize (s.sock.len - (text is).length)
                  state := .IDLE } } := by
          simp [Session.call, appcall, hrecv, telnetHandleInput, hptr, hloop, hnone]
        have hleft : netSize (s.sock.len - (text is).length) = s.maxsize - (text is).length := by
          rw [hlen, netSize_of_lt (by omega) (by omega)]
        -- the result of the read is what it asked for less what is left
        have hcount : (netRecvResult s.maxsize { s.sock with
            len := netSize (s.sock.len - (text is).length) }).toNat = (text is).length := by
          show (netSize (s.maxsize - netSize (s.sock.len - (text is).length))).toNat = _
          rw [hleft, netSize_of_lt (by omega) (by omega)]
          omega
        have hread : (s.world.mem.store 0 (text is)).read 0 (text is).length = text is :=
          Mem.holds_store_self _ _ _
        rw [hcall, Option.map_some] at hstep
        obtain rfl := Option.some.inj hstep
        refine ⟨h.outside, ⟨js ++ is, hvalid', ?_, ?_⟩, .inl rfl⟩
        · rw [encode_append, hstream]
          rfl
        · rw [text_append, ← hdelivered]
          show s.delivered ++ (s.world.mem.store 0 (text is)).read 0 (netRecvResult s.maxsize
            { s.sock with len := netSize (s.sock.len - (text is).length) }).toNat = _
          rw [hcount, hread]
      · -- commands only: the read goes on
        have hnil : text is = [] := List.length_eq_zero_iff.mp (Nat.eq_zero_of_not_pos hnone)
        have hcall : ({ s with stream := s.stream ++ encode is } : Session).call
            { newdata := true, appdata := encode is, beyond } =
              some { s with stream := s.stream ++ encode is } := by
          simp [Session.call, appcall, hrecv, telnetHandleInput, hptr, hloop, hnil]
        rw [hcall, Option.map_some] at hstep
        obtain rfl := Option.some.inj hstep
        have hcollect : ({ s with stream := s.stream ++ encode is } : Session).collect =
            { s with stream := s.stream ++ encode is } := by
          simp [Session.collect, hrecv]
        rw [hcollect]
        refine ⟨h.outside, ⟨js ++ is, hvalid', ?_, ?_⟩, .inr ⟨.inr hrecv, hptr, hlen, hsize⟩⟩
        · rw [encode_append, hstream]
        · rw [text_append, hnil, List.append_nil]
          exact hdelivered

/-- Every event keeps the invariant, as long as the segments are whole. -/
theorem Reading.step {s' : Session} (h : Reading s) {e : TelnetEvent} (hok : s.Whole e)
    (hstep : s.step e = some s') : Reading s' := by
  cases e with
  | segment data beyond => exact h.segment hok hstep
  | read maxsize =>
    simp only [Session.step] at hstep
    split at hstep
    · cases hstep
    · next hcond =>
      have hsize : maxsize < 2 ^ 15 := by omega
      obtain rfl := Option.some.inj hstep
      exact ⟨h.outside, h.items, .inr ⟨.inl rfl, rfl, rfl, hsize⟩⟩
  | poll =>
    obtain hidle | ⟨hrecv, hptr, hlen, hsize⟩ := h.state
    · have hcall : s.call { poll := true } = some s := by
        simp [Session.call, appcall, hidle]
      rw [Session.step, hcall] at hstep
      exact Option.some.inj hstep ▸ h
    · obtain hstate | hstate := hrecv
      · have hcall : s.call { poll := true } =
            some { s with sock := { s.sock with state := .RECV_2 } } := by
          simp [Session.call, appcall, hstate]
        rw [Session.step, hcall] at hstep
        obtain rfl := Option.some.inj hstep
        exact ⟨h.outside, h.items, .inr ⟨.inr rfl, hptr, hlen, hsize⟩⟩
      · have hcall : s.call { poll := true } = some s := by
          simp [Session.call, appcall, hstate]
        rw [Session.step, hcall] at hstep
        exact Option.some.inj hstep ▸ h

theorem Reading.filtered (h : Reading s) : s.Filtered := by
  obtain ⟨is, hvalid, hstream, hdelivered⟩ := h.items
  refine ⟨h.outside, fun js hjs hjstream => ?_⟩
  rw [hdelivered]
  exact text_unique hvalid hjs (hstream.trans hjstream.symm)

theorem reading_start (mem : Mem) : Reading (Session.start mem) :=
  ⟨rfl, ⟨[], fun _ hmem => absurd hmem List.not_mem_nil, rfl, rfl⟩, .inl rfl⟩

/-- A session with one read, of a character and a quoted 255. -/
def plainRead : List TelnetEvent := [.read 8, .poll, .segment [7, 255, 255] 0]

/-- The state after it. -/
def plainSession : Session :=
  { sock := { state := .IDLE, res := 0, ptr := .mem 1, len := 7, readto := -1 }
    world := { mem := Mem.store (fun _ => 0) 0 [7] }
    maxsize := 8, stream := [7, 255, 255], delivered := [7] }

theorem plainRead_ok :
    AllSteps Session.step Session.Whole (Session.start fun _ => 0) plainRead := by
  refine ⟨trivial, fun s hs => ⟨trivial, fun t ht => ?_⟩⟩
  obtain rfl := Option.some.inj hs
  obtain rfl := Option.some.inj ht
  refine ⟨⟨[.char 7, .two 255], ?_, rfl, by decide⟩, fun _ _ => trivial⟩
  intro i hi
  obtain rfl | hi := List.mem_cons.mp hi
  · exact (by decide : (7 : UInt8) ≠ 255)
  · rw [List.mem_singleton.mp hi]
    exact (by decide : ¬ ((251 : UInt8) ≤ 255 ∧ (255 : UInt8) ≤ 254))

end Alcor.Proofs.Uip
