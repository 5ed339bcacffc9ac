import Mathlib.Data.List.Nodup
import Alcor.Sermux.Ends
import Alcor.Proofs.Sermux.Transparent

/-!
# `Alcor.Proofs.Sermux.Resync`: requests for retransmission

What the board will deliver of the bytes on the line does not depend
on what it sends itself, as long as no request is taken for payload.
`lineStep` is this part of the handler, as a decoder of its own that
refuses what no host sends; `handler_lineStep` says that the handler
does the same.

The invariant `Sound` reads the line with it: all that will be
delivered is genuine, the line ends outside an escape, and with the
service the host last selected or with none. A host frame keeps this
(`line_frame`), and so does a reset of the board, for which reading
the line from a later byte, or without a service, gives fewer
deliveries and nothing else (`feed_weaken`). What is delivered and
what is awaited are different sends. Only the answer to a request can
break that, and the condition on it says that it does not.

* `sound_step`: the step lemma, for every harmless step.
* `delivered_once`: in every run of harmless steps each delivered byte
  was sent to that service, and no send is delivered twice.
* `not_delivered_once`: two runs with a request that does harm.
-/

set_option autoImplicit false

namespace Alcor.Proofs.Sermux

open Lib.Stream
open Alcor.Sermux

variable {cfg : Config} {s s' : Link} {i : Item} {ds : List Delivery} {sid : Option UInt8}
  {esc : Bool}

/-! ### Reading the line -/

/-- A payload byte, once the service is known. -/
def taken (sid : Option UInt8) (c : UInt8) (origin : Option Nat) : List Delivery :=
  sid.toList.map fun s => ⟨s, c, origin⟩

/-- The service and the open escape after a byte on the line, and what is delivered. -/
def lineStep (n : Nat) : Option UInt8 × Bool → Item →
    Option ((Option UInt8 × Bool) × List Delivery)
  | (sid, true), i =>
    if needsEscape i.byte then none
    else some ((sid, false), taken sid (i.byte ^^^ SERMUX_ESCAPE_XOR_MASK) i.origin)
  | (sid, false), i =>
    if i.byte = SERMUX_ESCAPE_CHAR then some ((sid, true), [])
    else if isVuart n i.byte then some ((some i.byte, false), [])
    else if i.byte = SERMUX_FORCE_SID_CHAR then some ((sid, false), [])
    else if needsEscape i.byte then none
    else some ((sid, false), taken sid i.byte i.origin)

/-- What a byte on the line can be: a payload byte, or, where no escape is open, an escape
byte, a service id or a request. -/
theorem lineStep_cases {n : Nat} {sid' : Option UInt8} {esc' : Bool}
    (h : lineStep n (sid, esc) i = some ((sid', esc'), ds)) :
    (needsEscape i.byte = false ∧ sid' = sid ∧ esc' = false ∧
      ds = taken sid (if esc then i.byte ^^^ SERMUX_ESCAPE_XOR_MASK else i.byte) i.origin) ∨
    esc = false ∧ ds = [] ∧
      (i.byte = SERMUX_ESCAPE_CHAR ∧ sid' = sid ∧ esc' = true ∨
        isVuart n i.byte = true ∧ sid' = some i.byte ∧ esc' = false ∨
        i.byte = SERMUX_FORCE_SID_CHAR ∧ sid' = sid ∧ esc' = false) := by
  cases esc with
  | true =>
    cases hplain : needsEscape i.byte with
    | true => simp [lineStep, hplain] at h
    | false =>
      simp only [lineStep, hplain, Bool.false_eq_true, if_false, Option.some.injEq,
        Prod.mk.injEq] at h
      exact .inl ⟨rfl, h.1.1.symm, h.1.2.symm, h.2.symm⟩
  | false =>
    simp only [lineStep] at h
    split at h
    · next hc =>
        simp only [Option.some.injEq, Prod.mk.injEq] at h
        exact .inr ⟨rfl, h.2.symm, .inl ⟨hc, h.1.1.symm, h.1.2.symm⟩⟩
    · split at h
      · next hv =>
          simp only [Option.some.injEq, Prod.mk.injEq] at h
          exact .inr ⟨rfl, h.2.symm, .inr (.inl ⟨hv, h.1.1.symm, h.1.2.symm⟩)⟩
      · split at h
        · next hf =>
            simp only [Option.some.injEq, Prod.mk.injEq] at h
            exact .inr ⟨rfl, h.2.symm, .inr (.inr ⟨hf, h.1.1.symm, h.1.2.symm⟩)⟩
        · cases hplain : needsEscape i.byte with
          | true => simp [hplain] at h
          | false =>
            simp only [hplain, Bool.false_eq_true, if_false, Option.some.injEq,
              Prod.mk.injEq] at h
            exact .inl ⟨rfl, h.1.1.symm, h.1.2.symm, h.2.symm⟩

@[simp] theorem sends_map_send {δ : Type} (bs : List UInt8) :
    sends (bs.map (.send : UInt8 → Output δ)) = bs := by
  simp [sends, List.filterMap_map]

@[simp] theorem deliveries_map_send (o : Option Nat) (bs : List UInt8) :
    deliveries o (bs.map .send) = [] := by
  simp [deliveries, List.filterMap_map]

section Board
variable {n : Nat} (hn : n ≤ SERMUX_SERVICE_MAX)
include hn

/-- What the handler does about a request. -/
theorem cmnRxHandler_force (b : Board) (hesc : b.gotEsc = false)
    (h : b.lastSent ≠ none ∨ b.serviceIdIn = none) :
    (cmnRxHandler n b SERMUX_FORCE_SID_CHAR).1.serviceIdIn = b.serviceIdIn ∧
      (cmnRxHandler n b SERMUX_FORCE_SID_CHAR).1.gotEsc = false ∧
      ∀ o, deliveries o (cmnRxHandler n b SERMUX_FORCE_SID_CHAR).2 = [] := by
  have hne : SERMUX_FORCE_SID_CHAR ≠ SERMUX_ESCAPE_CHAR := by decide
  have hvuart := isVuart_force hn
  obtain ⟨sidIn, sidOut, esc, last⟩ := b
  obtain rfl : esc = false := hesc
  cases last with
  | some last => simp [cmnRxHandler, hne, hvuart]
  | none =>
    -- nothing to repeat: the board asks back, as it knows no service
    obtain rfl : sidIn = none := h.resolve_left (fun hlast => hlast rfl)
    simp [cmnRxHandler, hne, hvuart, deliveries]

/-- The handler reads the line as `lineStep` does, unless a request is taken for payload. -/
theorem handler_lineStep {b : Board}
    (h : lineStep n (b.serviceIdIn, b.gotEsc) i = some ((sid, esc), ds))
    (hforce : i.byte = SERMUX_FORCE_SID_CHAR → b.lastSent ≠ none ∨ b.serviceIdIn = none) :
    (cmnRxHandler n b i.byte).1.serviceIdIn = sid ∧
      (cmnRxHandler n b i.byte).1.gotEsc = esc ∧
      deliveries i.origin (cmnRxHandler n b i.byte).2 = ds := by
  obtain ⟨hplain, rfl, rfl, rfl⟩ |
    ⟨hgot, rfl, ⟨hc, rfl, rfl⟩ | ⟨hv, rfl, rfl⟩ | ⟨hf, rfl, rfl⟩⟩ := lineStep_cases h
  · rw [cmnRxHandler_payload hn b hplain]
    cases b.serviceIdIn <;> simp [deliveries, taken]
  · rw [hc, cmnRxHandler_escape]
    exact ⟨rfl, rfl, rfl⟩
  · rw [cmnRxHandler_sid hn b hv]
    exact ⟨rfl, hgot, rfl⟩
  · obtain ⟨hsid, hesc, hout⟩ := cmnRxHandler_force hn b hgot (hforce hf)
    rw [hf]
    exact ⟨hsid, hesc, hout _⟩

end Board

/-! ### Reading less of the line -/

/-- A reader that knows at most what another one knows. -/
def Less (w s : Option UInt8 × Bool) : Prop :=
  w = s ∨ w.1 = none ∧ (w.2 = true → s.2 = true)

/-- The one that knows less delivers nothing or the same. -/
theorem lineStep_less {n : Nat} (hn : n ≤ SERMUX_SERVICE_MAX) {w s t : Option UInt8 × Bool}
    (hless : Less w s) (h : lineStep n s i = some (t, ds)) :
    ∃ v ds', lineStep n w i = some (v, ds') ∧ Less v t ∧ (ds' = [] ∨ ds' = ds) := by
  obtain rfl | ⟨hsid, hesc⟩ := hless
  · exact ⟨t, ds, h, .inl rfl, .inr rfl⟩
  obtain ⟨sidw, escw⟩ := w
  obtain ⟨sid, esc⟩ := s
  obtain ⟨sid', esc'⟩ := t
  obtain rfl : sidw = none := hsid
  obtain ⟨hplain, rfl, rfl, rfl⟩ |
    ⟨rfl, rfl, ⟨hc, rfl, rfl⟩ | ⟨hv, rfl, rfl⟩ | ⟨hf, rfl, rfl⟩⟩ := lineStep_cases h
  · -- both readers take a plain byte for payload, even if only one has seen the escape byte
    obtain ⟨hne, hforce, -⟩ := (needsEscape_eq_false_iff _).mp hplain
    refine ⟨(none, false), [], ?_, .inr ⟨rfl, fun h => h⟩, .inl rfl⟩
    cases escw <;> simp [lineStep, hplain, hne, hforce, not_isVuart hn hplain, taken]
  all_goals
    obtain rfl : escw = false := by
      cases escw with
      | false => rfl
      | true => exact absurd (hesc rfl) (by simp)
  · exact ⟨(none, true), [], by simp [lineStep, hc], .inr ⟨rfl, fun h => h⟩, .inl rfl⟩
  · refine ⟨(some i.byte, false), [], ?_, .inl rfl, .inl rfl⟩
    simp [lineStep, ne_escape_of_isVuart hn hv, hv]
  · refine ⟨(none, false), [], ?_, .inr ⟨rfl, fun h => h⟩, .inl rfl⟩
    have hne : SERMUX_FORCE_SID_CHAR ≠ SERMUX_ESCAPE_CHAR := by decide
    simp [lineStep, hne, isVuart_force hn, hf]

/-- Over a whole line, the one that knows less delivers a part of what the other does. -/
theorem feed_weaken {n : Nat} (hn : n ≤ SERMUX_SERVICE_MAX) :
    ∀ (line : List Item) (w s e : Option UInt8 × Bool) (ds : List Delivery), Less w s →
      feed (lineStep n) s line = some (e, ds) →
      ∃ v ds', feed (lineStep n) w line = some (v, ds') ∧ Less v e ∧ ds' ⊆ ds := by
  intro line
  induction line with
  | nil =>
    intro w s e ds hless h
    simp only [feed_nil, Option.some.injEq, Prod.mk.injEq] at h
    obtain ⟨rfl, rfl⟩ := h
    exact ⟨w, [], rfl, hless, List.Subset.refl _⟩
  | cons i line ih =>
    intro w s e ds hless h
    cases hi : lineStep n s i with
    | none => simp [feed, hi] at h
    | some r =>
      obtain ⟨t, out⟩ := r
      rw [feed_cons hi] at h
      obtain ⟨⟨e', ds'⟩, hrest, heq⟩ := Option.map_eq_some_iff.mp h
      simp only [Prod.mk.injEq] at heq
      obtain ⟨rfl, rfl⟩ := heq
      obtain ⟨v, out', hv, hless', hout⟩ := lineStep_less hn hless hi
      obtain ⟨x, ds'', hx, hless'', hsub⟩ := ih v t e' ds' hless' hrest
      refine ⟨x, out' ++ ds'', by rw [feed_cons hv, hx]; rfl, hless'', ?_⟩
      have hout' : out' ⊆ out := by
        obtain rfl | rfl := hout
        · exact List.nil_subset _
        · exact List.Subset.refl _
      exact List.append_subset.mpr
        ⟨List.subset_append_of_subset_left _ hout', List.subset_append_of_subset_right _ hsub⟩

/-- A later part of the line is read from some state on, with the deliveries that are left. -/
theorem feed_drop {n : Nat} (lost : Nat) :
    ∀ (line : List Item) (s e : Option UInt8 × Bool) (ds : List Delivery),
      feed (lineStep n) s line = some (e, ds) →
      ∃ t ds', feed (lineStep n) t (line.drop lost) = some (e, ds') ∧ ds' ⊆ ds := by
  induction lost with
  | zero => exact fun line s e ds h => ⟨s, ds, h, List.Subset.refl _⟩
  | succ lost ih =>
    intro line s e ds h
    cases line with
    | nil => exact ⟨s, ds, h, List.Subset.refl _⟩
    | cons i line =>
      cases hi : lineStep n s i with
      | none => simp [feed, hi] at h
      | some r =>
        obtain ⟨t, out⟩ := r
        rw [feed_cons hi] at h
        obtain ⟨⟨e', ds'⟩, hrest, heq⟩ := Option.map_eq_some_iff.mp h
        simp only [Prod.mk.injEq] at heq
        obtain ⟨rfl, rfl⟩ := heq
        obtain ⟨t', ds'', hdrop, hsub⟩ := ih line t e' ds' hrest
        exact ⟨t', ds'', hdrop, List.subset_append_of_subset_right _ hsub⟩

/-! ### What the host puts on the line -/

theorem payload_ne_nil (c : UInt8) : payload c ≠ [] := by
  rw [payload]
  split <;> simp

theorem itemsOf_cons (o : Option Nat) (c : UInt8) {cs : List UInt8} (h : cs ≠ []) :
    itemsOf o (c :: cs) = ⟨c, none⟩ :: itemsOf o cs := by
  cases cs with
  | nil => exact absurd rfl h
  | cons _ _ => rfl

/-- Only the last byte has an origin. -/
theorem origins_itemsOf (o : Option Nat) {cs : List UInt8} (h : cs ≠ []) :
    (itemsOf o cs).filterMap (·.origin) = o.toList := by
  induction cs with
  | nil => exact absurd rfl h
  | cons c cs ih =>
    by_cases hcs : cs = []
    · subst hcs
      cases o <;> rfl
    · rw [itemsOf_cons o c hcs, List.filterMap_cons_none rfl, ih hcs]

section Frames
variable {n : Nat} (hn : n ≤ SERMUX_SERVICE_MAX)
include hn

/-- A payload byte on the line. -/
theorem line_payload (sid : Option UInt8) (o : Option Nat) (c : UInt8) :
    feed (lineStep n) (sid, false) (itemsOf o (payload c)) =
      some ((sid, false), taken sid c o) := by
  cases hc : needsEscape c with
  | false =>
    obtain ⟨hne, hforce, -⟩ := (needsEscape_eq_false_iff c).mp hc
    simp [payload, hc, itemsOf, feed, lineStep, hne, hforce, not_isVuart hn hc]
  | true => simp [payload, hc, itemsOf, feed, lineStep, needsEscape_xor hc]

/-- A payload byte behind its service id. -/
theorem line_frame {id : UInt8} (hid : isVuart n id = true) (sid : Option UInt8)
    (o : Option Nat) (c : UInt8) :
    feed (lineStep n) (sid, false) (itemsOf o (id :: payload c)) =
      some ((some id, false), [⟨id, c, o⟩]) := by
  have hne := ne_escape_of_isVuart hn hid
  have hfirst : lineStep n (sid, false) ⟨id, none⟩ = some ((some id, false), []) := by
    simp [lineStep, hne, hid]
  rw [itemsOf_cons o id (payload_ne_nil c), feed_cons hfirst, line_payload hn]
  simp [taken]

/-- A request on the line. -/
theorem line_request (sid : Option UInt8) :
    feed (lineStep n) (sid, false) (itemsOf none [SERMUX_FORCE_SID_CHAR]) =
      some ((sid, false), []) := by
  have hvuart := isVuart_force hn
  have hne : SERMUX_FORCE_SID_CHAR ≠ SERMUX_ESCAPE_CHAR := by decide
  simp [itemsOf, feed, lineStep, hne, hvuart]

end Frames

/-- What is repeated is the service id and the payload byte. -/
theorem retransmit_lastSentOf (sid c : UInt8) :
    retransmit sid (lastSentOf c) = sid :: payload c := by
  cases hc : needsEscape c <;> simp [retransmit, lastSentOf, payload, hc]

/-! ### What the board still waits for -/

theorem awaited_some (n : Nat) (sid : UInt8) (line : List Item) :
    awaited n (some sid) line = line.filterMap (·.origin) := rfl

/-- Whatever the board knows, it waits for no more than what is on the line. -/
theorem awaited_sublist (n : Nat) (sid : Option UInt8) (line : List Item) :
    (awaited n sid line).Sublist (line.filterMap (·.origin)) := by
  cases sid with
  | some _ => exact List.Sublist.refl _
  | none => exact (List.dropWhile_sublist _).filterMap _

/-- New bytes at the end of the line add at most their own origins. -/
theorem awaited_append (n : Nat) (sid : Option UInt8) (line more : List Item) :
    (awaited n sid (line ++ more)).Sublist
      (awaited n sid line ++ more.filterMap (·.origin)) := by
  cases sid with
  | some _ => simp [awaited_some]
  | none =>
    simp only [awaited, List.dropWhile_append]
    split
    · next hnil =>
        rw [List.isEmpty_iff.mp hnil]
        exact (List.dropWhile_sublist _).filterMap _
    · simp

/-- A board that loses bytes and its service waits for less. -/
theorem awaited_drop (n lost : Nat) (sid : Option UInt8) (line : List Item) :
    (awaited n none (line.drop lost)).Sublist (awaited n sid line) := by
  cases sid with
  | some _ =>
    exact (awaited_sublist n none _).trans ((List.drop_sublist _ _).filterMap _)
  | none =>
    refine List.Sublist.filterMap _ ?_
    induction line generalizing lost with
    | nil => simp
    | cons i line ih =>
      cases lost with
      | zero => exact List.Sublist.refl _
      | succ lost =>
        refine (ih lost).trans ?_
        rw [List.dropWhile_cons]
        split
        · exact List.Sublist.refl _
        · exact (List.dropWhile_sublist _).trans (List.sublist_cons_self _ _)

/-- A byte read moves its send from the awaited ones to the delivered ones, or drops it. -/
theorem awaited_step {n : Nat} (hn : n ≤ SERMUX_SERVICE_MAX) {sid' : Option UInt8} {esc' : Bool}
    (h : lineStep n (sid, esc) i = some ((sid', esc'), ds)) (line : List Item) :
    ((ds.filterMap (·.origin)) ++ awaited n sid' line).Sublist (awaited n sid (i :: line)) := by
  have hcons : (line.filterMap (·.origin)).Sublist ((i :: line).filterMap (·.origin)) :=
    (List.sublist_cons_self i line).filterMap _
  -- a byte that is no service id leaves what the board waits for behind it
  have hrest : isVuart n i.byte = false →
      (awaited n sid line).Sublist (awaited n sid (i :: line)) := by
    intro hv
    cases sid with
    | some sid => exact hcons
    | none => simp [awaited, hv]
  obtain ⟨hplain, rfl, rfl, rfl⟩ |
    ⟨rfl, rfl, ⟨hc, rfl, rfl⟩ | ⟨hv, rfl, rfl⟩ | ⟨hf, rfl, rfl⟩⟩ := lineStep_cases h
  · cases sid' with
    | none => simpa [taken] using hrest (not_isVuart hn hplain)
    | some sid => cases ho : i.origin <;> simp [taken, awaited_some, ho]
  · exact hrest (by rw [hc, isVuart_escape hn])
  · rw [List.filterMap_nil, List.nil_append]
    refine (awaited_sublist n _ line).trans ?_
    cases sid with
    | some sid => exact hcons
    | none => simpa [awaited, hv] using hcons
  · exact hrest (by rw [hf, isVuart_force hn])

/-! ### The invariant -/

/-- At the end of the line the board knows the service the host last selected, or none. -/
def Expects (host : Option Host) (sid : Option UInt8) : Prop :=
  ∀ h, host = some h → ∀ sidOut, h.serviceIdOut = some sidOut → sid = none ∨ sid = some sidOut

/-- The invariant of the link. -/
structure Sound (cfg : Config) (s : Link) : Prop where
  /-- What the board will deliver of the line. -/
  line : ∃ sid ds, feed (lineStep cfg.numVuart) (s.board.serviceIdIn, s.board.gotEsc) s.toBoard =
      some ((sid, false), ds) ∧ (∀ d ∈ ds, d.Genuine s.sent) ∧ Expects s.host sid
  /-- What it has delivered. -/
  genuine : ∀ d ∈ s.delivered, d.Genuine s.sent
  /-- No send is delivered or awaited twice. -/
  apart : (s.delivered.filterMap (·.origin) ++
    awaited cfg.numVuart s.board.serviceIdIn s.toBoard).Nodup
  /-- The origins on the line are numbers of sends. -/
  origins : ∀ m ∈ s.toBoard.filterMap (·.origin), m < s.sent.length
  /-- What the host remembers is a send under the service it last selected. -/
  prev : ∀ h, s.host = some h → ∀ last, h.prevSent = some last →
    ∃ (k : Service cfg) (c : UInt8) (m : Nat), h.serviceIdOut = some k.id ∧
      last = lastSentOf c ∧ s.prevOrigin = some m ∧ s.sent[m]? = some (k.id, c)

theorem sound_init (cfg : Config) : Sound cfg {} where
  line := ⟨none, [], rfl, by simp, fun h hh sid hsid => by
    obtain rfl := Option.some.inj hh
    exact nomatch hsid⟩
  genuine := by simp
  apart := by simp [awaited]
  origins := by simp
  prev := fun h hh last hlast => by
    obtain rfl := Option.some.inj hh
    exact nomatch hlast

/-- A delivery stays genuine while the host sends on. -/
theorem genuine_append {sent : List (UInt8 × UInt8)} {d : Delivery}
    (h : d.Genuine sent) (more : List (UInt8 × UInt8)) : d.Genuine (sent ++ more) := by
  obtain ⟨n, hn, hget⟩ := h
  exact ⟨n, hn, by rw [List.getElem?_append_left (List.getElem?_eq_some_iff.mp hget).1, hget]⟩

/-- A delivery has the number of a send. -/
theorem origin_lt {sent : List (UInt8 × UInt8)} (h : ∀ d ∈ ds, d.Genuine sent) :
    ∀ m ∈ ds.filterMap (·.origin), m < sent.length := by
  intro m hm
  obtain ⟨d, hd, hor⟩ := List.mem_filterMap.mp hm
  obtain ⟨n, hn, hget⟩ := h d hd
  obtain rfl : n = m := Option.some.inj (hn.symm.trans hor)
  exact (List.getElem?_eq_some_iff.mp hget).1

/-- The invariant gives what the link is for. -/
theorem Sound.faithful (h : Sound cfg s) : s.Faithful := by
  refine ⟨h.genuine, ?_⟩
  have hmap : ∀ ds : List Delivery, (∀ d ∈ ds, d.Genuine s.sent) →
      ds.map (·.origin) = (ds.filterMap (·.origin)).map some := by
    intro ds hds
    induction ds with
    | nil => rfl
    | cons d ds ih =>
      obtain ⟨n, hn, -⟩ := hds d List.mem_cons_self
      rw [List.filterMap_cons_some hn, List.map_cons, List.map_cons, hn,
        ih fun d hd => hds d (List.mem_cons_of_mem _ hd)]
  rw [hmap s.delivered h.genuine]
  exact (List.Nodup.of_append_left h.apart).map (Option.some_injective _)

/-- A step of the host: it puts items on the line, and may have sent more. -/
theorem Sound.extend (h : Sound cfg s) (items : List Item) (more : List (UInt8 × UInt8))
    (hboard : s'.board = s.board) (hdel : s'.delivered = s.delivered)
    (hline : s'.toBoard = s.toBoard ++ items) (hsent : s'.sent = s.sent ++ more)
    (hfeed : ∀ sid, Expects s.host sid → ∃ sid' ds',
      feed (lineStep cfg.numVuart) (sid, false) items = some ((sid', false), ds') ∧
        (∀ d ∈ ds', d.Genuine s'.sent) ∧ Expects s'.host sid')
    (hnew : ∀ m ∈ items.filterMap (·.origin), m < s'.sent.length ∧
      m ∉ s.delivered.filterMap (·.origin) ∧
      m ∉ awaited cfg.numVuart s.board.serviceIdIn s.toBoard)
    (hnodup : (items.filterMap (·.origin)).Nodup)
    (hprev : ∀ h, s'.host = some h → ∀ last, h.prevSent = some last →
      ∃ (k : Service cfg) (c : UInt8) (m : Nat), h.serviceIdOut = some k.id ∧
        last = lastSentOf c ∧ s'.prevOrigin = some m ∧ s'.sent[m]? = some (k.id, c)) :
    Sound cfg s' where
  line := by
    obtain ⟨sid, ds, hds, hgen, hexp⟩ := h.line
    obtain ⟨sid', ds', hds', hgen', hexp'⟩ := hfeed sid hexp
    refine ⟨sid', ds ++ ds', ?_, ?_, hexp'⟩
    · rw [hboard, hline, feed_append hds, hds']
      rfl
    · intro d hd
      obtain hd | hd := List.mem_append.mp hd
      · rw [hsent]
        exact genuine_append (hgen d hd) more
      · exact hgen' d hd
  genuine := by
    intro d hd
    rw [hsent]
    exact genuine_append (h.genuine d (hdel ▸ hd)) more
  apart := by
    rw [hdel, hboard, hline]
    refine List.Nodup.sublist ((List.Sublist.refl _).append (awaited_append _ _ _ items)) ?_
    rw [← List.append_assoc]
    refine List.Nodup.append h.apart hnodup fun m hm hm' => ?_
    obtain ⟨-, hdelivered, hawaited⟩ := hnew m hm'
    exact (List.mem_append.mp hm).elim hdelivered hawaited
  origins := by
    intro m hm
    rw [hline, List.filterMap_append] at hm
    obtain hm | hm := List.mem_append.mp hm
    · rw [hsent, List.length_append]
      exact Nat.lt_of_lt_of_le (h.origins m hm) (Nat.le_add_right _ _)
    · exact (hnew m hm).1
  prev := hprev

/-- What the invariant does not speak of may change. -/
theorem Sound.congr (h : Sound cfg s) (hhost : s'.host = s.host)
    (hsid : s'.board.serviceIdIn = s.board.serviceIdIn) (hesc : s'.board.gotEsc = s.board.gotEsc)
    (hline : s'.toBoard = s.toBoard) (hsent : s'.sent = s.sent)
    (horigin : s'.prevOrigin = s.prevOrigin) (hdel : s'.delivered = s.delivered) :
    Sound cfg s' where
  line := by rw [hhost, hsid, hesc, hline, hsent]; exact h.line
  genuine := by rw [hsent, hdel]; exact h.genuine
  apart := by rw [hsid, hline, hdel]; exact h.apart
  origins := by rw [hline, hsent]; exact h.origins
  prev := by rw [hhost, hsent, horigin]; exact h.prev

/-! ### The steps -/

/-- What the main loop does with a byte from the line. -/
theorem hostTransport_cases {h h' : Host} {c : UInt8} {outs : List (Output Endpoint)}
    (hstep : hostTransport cfg h c = some (h', outs)) :
    (c = SERMUX_FORCE_SID_CHAR ∧ ∃ last, h.prevSent = some last ∧
      h' = { h with prevSent := none } ∧
      sends outs = retransmit (h.serviceIdOut.getD 0xFF) last) ∨
    (c ≠ SERMUX_FORCE_SID_CHAR ∧ h'.serviceIdOut = h.serviceIdOut ∧ h'.prevSent = h.prevSent ∧
      (sends outs = [] ∨ sends outs = [SERMUX_FORCE_SID_CHAR])) := by
  by_cases hreq : c = SERMUX_FORCE_SID_CHAR
  · subst hreq
    have hne : SERMUX_FORCE_SID_CHAR ≠ SERMUX_ESCAPE_CHAR := by decide
    have hrange : ¬ (SERMUX_SERVICE_ID_FIRST ≤ SERMUX_FORCE_SID_CHAR ∧
        SERMUX_FORCE_SID_CHAR ≤ SERMUX_SERVICE_ID_LAST) := by decide
    rw [hostTransport, if_pos hne, if_neg hrange, if_pos rfl] at hstep
    cases hprev : h.prevSent with
    | none => simp [hprev] at hstep
    | some last =>
      simp only [hprev, Option.some.injEq, Prod.mk.injEq] at hstep
      obtain ⟨rfl, rfl⟩ := hstep
      exact .inl ⟨rfl, last, rfl, rfl, sends_map_send _⟩
  · refine .inr ⟨hreq, ?_⟩
    rw [hostTransport] at hstep
    split at hstep
    · split at hstep
      · simp only [Option.some.injEq, Prod.mk.injEq] at hstep
        obtain ⟨rfl, rfl⟩ := hstep
        exact ⟨rfl, rfl, .inl rfl⟩
      · -- payload: an error, or a delivery, or a request when no service is known
        by_cases herr : h.gotEsc = true ∧ ¬ needsEscape
            (if h.gotEsc then c ^^^ SERMUX_ESCAPE_XOR_MASK else c) = true
        · exact absurd ((if_pos herr).symm.trans hstep) (by simp)
        · replace hstep := (if_neg herr).symm.trans hstep
          cases hin : h.serviceIdIn with
          | none =>
            simp only [hin, Option.some.injEq, Prod.mk.injEq] at hstep
            obtain ⟨rfl, rfl⟩ := hstep
            exact ⟨rfl, rfl, .inr rfl⟩
          | some sid =>
            simp only [hin, Option.some.injEq, Prod.mk.injEq] at hstep
            obtain ⟨rfl, rfl⟩ := hstep
            exact ⟨rfl, rfl, .inl rfl⟩
    · simp only [Option.some.injEq, Prod.mk.injEq] at hstep
      obtain ⟨rfl, rfl⟩ := hstep
      exact ⟨rfl, rfl, .inl rfl⟩

/-- The host sends a payload byte under the next number. -/
theorem sound_hostSend (hs : Sound cfg s) {k : Service cfg} {c : UInt8}
    (hstep : s.step cfg (.hostSend k c) = some s') : Sound cfg s' := by
  obtain ⟨h, hhost, rfl⟩ := Option.map_eq_some_iff.mp hstep
  -- the bytes of the frame, and the one origin on them
  have hne : (hostService cfg h k.endpoint c).2 ≠ [] := by
    simp [hostService, payload_ne_nil]
  have horigins := origins_itemsOf (some s.sent.length) hne
  have hlen : s.sent.length < (s.sent ++ [(k.id, c)]).length := by simp
  have hself : (s.sent ++ [(k.id, c)])[s.sent.length]? = some (k.id, c) := by simp
  refine hs.extend _ _ rfl rfl rfl rfl ?_ ?_ ?_ ?_
  · intro sid hexp
    have hexp' := hexp h hhost
    have hgen : Delivery.Genuine (s.sent ++ [(k.id, c)]) ⟨k.id, c, some s.sent.length⟩ :=
      ⟨_, rfl, hself⟩
    simp only [hostService, Service.serviceId_endpoint]
    by_cases hout : h.serviceIdOut = some k.id
    · -- without a service id the byte goes to the service at the end of the line
      refine ⟨sid, _, by rw [if_neg (not_not_intro hout)]; exact line_payload cfg.numVuart_le ..,
        ?_, ?_⟩
      · obtain rfl | rfl := hexp' _ hout
        · simp [taken]
        · simpa [taken] using hgen
      · intro h' hh' sidOut hsidOut
        obtain rfl := Option.some.inj hh'
        obtain rfl := Option.some.inj hsidOut
        exact hexp' _ hout
    · refine ⟨some k.id, _,
        by rw [if_pos hout]; exact line_frame cfg.numVuart_le (Service.isVuart_id k) .., ?_, ?_⟩
      · simpa using hgen
      · intro h' hh' sidOut hsidOut
        obtain rfl := Option.some.inj hh'
        exact .inr hsidOut
  · intro m hm
    rw [horigins] at hm
    obtain rfl : m = s.sent.length := by simpa using hm
    refine ⟨hlen, fun hmem => ?_, fun hmem => ?_⟩
    · exact absurd (origin_lt hs.genuine _ hmem) (Nat.lt_irrefl _)
    · exact absurd (hs.origins _ ((awaited_sublist _ _ _).subset hmem)) (Nat.lt_irrefl _)
  · rw [horigins]
    simp
  · intro h' hh' last hlast
    obtain rfl := Option.some.inj hh'
    obtain rfl := Option.some.inj hlast
    exact ⟨k, c, _, by simp [hostService, Service.serviceId_endpoint], rfl, rfl, hself⟩

/-- A request of the host on the line, with the host's own variables as they are or at most
with its memory of the last byte cleared. -/
theorem sound_request (hs : Sound cfg s) (hboard : s'.board = s.board)
    (hdel : s'.delivered = s.delivered) (hsent : s'.sent = s.sent)
    (hline : s'.toBoard = s.toBoard ∨
      s'.toBoard = s.toBoard ++ itemsOf none [SERMUX_FORCE_SID_CHAR])
    (hexp : ∀ sid, Expects s.host sid → Expects s'.host sid)
    (hprev : ∀ h, s'.host = some h → ∀ last, h.prevSent = some last →
      ∃ (k : Service cfg) (c : UInt8) (m : Nat), h.serviceIdOut = some k.id ∧
        last = lastSentOf c ∧ s'.prevOrigin = some m ∧ s'.sent[m]? = some (k.id, c)) :
    Sound cfg s' := by
  obtain hline | hline := hline
  · refine hs.extend [] [] hboard hdel (by simpa using hline)
      (by simpa using hsent) (fun sid h => ⟨sid, [], rfl, by simp, hexp sid h⟩) (by simp)
      (by simp) hprev
  · refine hs.extend _ [] hboard hdel hline (by simpa using hsent)
      (fun sid h => ⟨sid, [], line_request cfg.numVuart_le sid, by simp, hexp sid h⟩)
      ?_ ?_ hprev
    · simp [itemsOf]
    · simp [itemsOf]

/-- The host takes a byte; a request must be harmless. -/
theorem sound_toHost (hs : Sound cfg s) (hok : s.Harmless (.toHost : Event cfg))
    (hstep : s.step cfg .toHost = some s') : Sound cfg s' := by
  rw [Link.step] at hstep
  split at hstep
  · next h c rest hhost hrest =>
      split at hstep
      · -- a protocol error ends the program
        obtain rfl := Option.some.inj hstep
        exact sound_request hs rfl rfl rfl (.inl rfl) (fun _ _ h hh => nomatch hh)
          (fun h hh => nomatch hh)
      · next h' outs hres =>
          obtain rfl := Option.some.inj hstep
          obtain ⟨rfl, last, hlast, rfl, hsends⟩ | ⟨hreq, hout, hprev, hsends⟩ :=
            hostTransport_cases hres
          · -- the answer to a request: the last byte sent, behind its service id
            obtain ⟨k, c, m, hk, rfl, hm, hget⟩ := hs.prev h hhost last hlast
            obtain ⟨hdelivered, hawaited⟩ := hok (by rw [hrest]; rfl) h hhost
              (by rw [hlast]; simp) m hm
            rw [hk, Option.getD_some, retransmit_lastSentOf] at hsends
            have horigins : (itemsOf (some m) (k.id :: payload c)).filterMap (·.origin) = [m] :=
              origins_itemsOf _ (List.cons_ne_nil _ _)
            refine hs.extend (itemsOf (some m) (k.id :: payload c)) [] rfl rfl
              (by simp [hsends, hm]) (List.append_nil _).symm ?_ ?_ ?_ ?_
            · intro sid hexp
              refine ⟨some k.id, _, line_frame cfg.numVuart_le (Service.isVuart_id k) .., ?_, ?_⟩
              · simpa using ⟨m, rfl, hget⟩
              · intro h' hh' sidOut hsidOut
                obtain rfl := Option.some.inj hh'
                exact .inr (hk.symm.trans hsidOut)
            · intro m' hm'
              rw [horigins] at hm'
              obtain rfl : m' = m := by simpa using hm'
              refine ⟨(List.getElem?_eq_some_iff.mp hget).1, fun hmem => hdelivered ?_, hawaited⟩
              obtain ⟨d, hd, hor⟩ := List.mem_filterMap.mp hmem
              exact List.mem_map.mpr ⟨d, hd, hor⟩
            · rw [horigins]
              simp
            · intro h' hh' last hlast
              obtain rfl := Option.some.inj hh'
              exact nomatch hlast
          · refine sound_request hs rfl rfl rfl ?_ ?_ ?_
            · simp only [if_neg hreq]
              obtain hsends | hsends := hsends
              · exact .inl (by rw [hsends]; simp [itemsOf])
              · exact .inr (by rw [hsends])
            · intro sid hexp h₁ hh₁ sidOut hsidOut
              obtain rfl := Option.some.inj hh₁
              exact hexp h hhost sidOut (hout ▸ hsidOut)
            · intro h₁ hh₁ last hlast
              obtain rfl := Option.some.inj hh₁
              obtain ⟨k, c, m, hk, hrest⟩ := hs.prev h hhost last (hprev ▸ hlast)
              exact ⟨k, c, m, by rw [hout]; exact hk, hrest⟩
  · exact nomatch hstep

/-- The board takes the first byte on the line. -/
theorem step_toBoard {rest : List Item} (h : s.toBoard = i :: rest) :
    s.step cfg .toBoard = some { s with
      board := (cmnRxHandler cfg.numVuart s.board i.byte).1
      toBoard := rest
      toHost := s.toHost ++ sends (cmnRxHandler cfg.numVuart s.board i.byte).2
      delivered := s.delivered ++
        deliveries i.origin (cmnRxHandler cfg.numVuart s.board i.byte).2 } := by
  simp only [Link.step, h]

/-- The board takes a byte; a request must be harmless. -/
theorem sound_toBoard (hs : Sound cfg s) (hok : s.Harmless (.toBoard : Event cfg))
    (hstep : s.step cfg .toBoard = some s') : Sound cfg s' := by
  cases hline : s.toBoard with
  | nil => simp [Link.step, hline] at hstep
  | cons i rest =>
    rw [step_toBoard hline, Option.some.injEq] at hstep
    subst hstep
    obtain ⟨sid, ds, hfeed, hgen, hexp⟩ := hs.line
    rw [hline] at hfeed
    cases hi : lineStep cfg.numVuart (s.board.serviceIdIn, s.board.gotEsc) i with
    | none => simp [feed, hi] at hfeed
    | some r =>
      obtain ⟨⟨sidIn, esc⟩, out⟩ := r
      rw [feed_cons hi] at hfeed
      obtain ⟨⟨e, ds'⟩, hrest, heq⟩ := Option.map_eq_some_iff.mp hfeed
      simp only [Prod.mk.injEq] at heq
      obtain ⟨rfl, rfl⟩ := heq
      -- the handler delivers what the line was read to deliver
      obtain ⟨hsid, hesc, hout⟩ := handler_lineStep cfg.numVuart_le hi
        fun hf => hok (by rw [hline]; simp [hf])
      have hmoved := awaited_step cfg.numVuart_le hi rest
      exact {
        line := ⟨sid, ds', by rw [hsid, hesc]; exact hrest,
          fun d hd => hgen d (List.mem_append_right _ hd), hexp⟩
        genuine := by
          intro d hd
          rw [hout] at hd
          obtain hd | hd := List.mem_append.mp hd
          · exact hs.genuine d hd
          · exact hgen d (List.mem_append_left _ hd)
        apart := by
          rw [hout, hsid, List.filterMap_append, List.append_assoc]
          have hapart := hs.apart
          rw [hline] at hapart
          exact hapart.sublist ((List.Sublist.refl _).append hmoved)
        origins := by
          intro m hm
          refine hs.origins m ?_
          rw [hline]
          exact ((List.sublist_cons_self i rest).filterMap _).subset hm
        prev := hs.prev }

/-- A reset of the board. -/
theorem sound_boardReset (hs : Sound cfg s) {lost : Nat}
    (hstep : s.step cfg (.boardReset lost) = some s') : Sound cfg s' := by
  obtain rfl := Option.some.inj hstep
  exact {
    line := by
      obtain ⟨sid, ds, hfeed, hgen, hexp⟩ := hs.line
      obtain ⟨t, ds', hdrop, hsub⟩ := feed_drop lost _ _ _ _ hfeed
      obtain ⟨⟨sid', esc'⟩, ds'', hweak, hless, hsub'⟩ :=
        feed_weaken cfg.numVuart_le _ (none, false) t _ _ (.inr ⟨rfl, nofun⟩) hdrop
      -- the end of the line: the same service, or none
      obtain ⟨rfl, hsid'⟩ : esc' = false ∧ (sid' = none ∨ sid' = sid) := by
        obtain heq | ⟨hnone, hesc⟩ := hless
        · simp only [Prod.mk.injEq] at heq
          exact ⟨heq.2, .inr heq.1⟩
        · refine ⟨?_, .inl hnone⟩
          cases esc' with
          | false => rfl
          | true => exact absurd (hesc rfl) (by simp)
      refine ⟨sid', ds'', hweak, fun d hd => hgen d (hsub (hsub' hd)), ?_⟩
      intro h hhost sidOut hout
      obtain rfl | rfl := hsid'
      · exact .inl rfl
      · exact hexp h hhost sidOut hout
    genuine := hs.genuine
    apart := hs.apart.sublist ((List.Sublist.refl _).append (awaited_drop ..))
    origins := fun m hm => hs.origins m (((List.drop_sublist lost _).filterMap _).subset hm)
    prev := hs.prev }

/-- A step of `platform_uart_send` leaves what the board knows about its input. -/
theorem sendStep_in (b : Board) (op : SendStep) :
    (b.sendStep op).1.serviceIdIn = b.serviceIdIn ∧ (b.sendStep op).1.gotEsc = b.gotEsc := by
  cases op <;> exact ⟨rfl, rfl⟩

/-- Every harmless step keeps the invariant. -/
theorem sound_step (s : Link) (e : Event cfg) (s' : Link) (hs : Sound cfg s) (hok : s.Harmless e)
    (hstep : s.step cfg e = some s') : Sound cfg s' := by
  cases e with
  | hostSend k c => exact sound_hostSend hs hstep
  | hostRequest =>
    obtain ⟨h, hhost, rfl⟩ := Option.map_eq_some_iff.mp hstep
    exact sound_request hs rfl rfl rfl (.inr rfl) (fun _ h => h) hs.prev
  | toHost => exact sound_toHost hs hok hstep
  | hostRestart =>
    obtain rfl := Option.some.inj hstep
    refine sound_request hs rfl rfl rfl (.inl rfl) (fun sid _ h hh sidOut hout => ?_)
      (fun h hh last hlast => ?_)
    · obtain rfl := Option.some.inj hh
      exact nomatch hout
    · obtain rfl := Option.some.inj hh
      exact nomatch hlast
  | boardCall id data =>
    rw [Link.step] at hstep
    split at hstep
    · obtain rfl := Option.some.inj hstep
      exact hs.congr rfl rfl rfl rfl rfl rfl rfl
    · exact nomatch hstep
  | boardStep =>
    rw [Link.step] at hstep
    split at hstep
    · exact nomatch hstep
    · obtain rfl := Option.some.inj hstep
      exact hs.congr rfl (sendStep_in _ _).1 (sendStep_in _ _).2 rfl rfl rfl rfl
  | boardRequest =>
    obtain rfl := Option.some.inj hstep
    exact hs.congr rfl rfl rfl rfl rfl rfl rfl
  | toBoard => exact sound_toBoard hs hok hstep
  | boardReset lost => exact sound_boardReset hs hstep

/-! ### Runs -/

/-- From the start of both ends, whatever is sent, asked for, restarted and reset in whatever
order: as long as every request is harmless when it is taken, each byte the board has
delivered was sent by the host to that virtual UART, and no send was delivered twice. -/
theorem delivered_once (cfg : Config) {es : List (Event cfg)} {s : Link}
    (hok : Lib.Run.AllSteps (Link.step cfg) Link.Harmless {} es)
    (hrun : Lib.Run.run (Link.step cfg) {} es = some s) : s.Faithful :=
  (Lib.Run.invariant_run sound_step es {} s (sound_init cfg) hok hrun).faithful

/-- Two virtual UARTs, and a port for each. -/
def twoPorts : Config := ⟨2, 2, false, by decide, by decide⟩

/-- The first of them. -/
def console : Service twoPorts := ⟨0, by decide, by decide⟩

/-- The second. -/
def shell : Service twoPorts := ⟨1, by decide, by decide⟩

/-- What the requests are for: a board that was reset drops a byte, asks for it, and gets it. -/
def resetSession : List (Event twoPorts) :=
  [.hostSend console 0x61, .toBoard, .toBoard, .boardReset 0,
    .hostSend console 0xFF, .toBoard, .toBoard, .toHost, .toBoard, .toBoard, .toBoard]

/-- The condition of `delivered_once` holds of a run in which the
board is reset, drops a byte, asks for it and gets it. -/
theorem delivered_once_reset : ∃ s, Lib.Run.run (Link.step twoPorts) {} resetSession = some s ∧
    s.delivered.map (·.data) = [0x61, 0xFF] ∧ s.Faithful := by
  obtain ⟨s, hs, hdata⟩ := Option.map_eq_some_iff.mp
    (show (Lib.Run.run (Link.step twoPorts) {} resetSession).map
      (fun s => s.delivered.map (·.data)) = some [0x61, 0xFF] by decide)
  exact ⟨s, hs, hdata, delivered_once twoPorts (by decide) hs⟩

/-- The multiplexer is started again while the board talks to it: it asks for the two bytes it
cannot place, and the board, which remembers one, takes the second request for payload. -/
def inventingSession : List (Event twoPorts) :=
  [.hostSend console 0x61, .toBoard, .toBoard,
    .boardCall 0xD0 0x78, .boardStep, .boardStep, .boardStep, .boardStep, .toHost, .toHost,
    .hostRestart,
    .boardCall 0xD0 0x79, .boardStep, .boardStep, .boardStep,
    .boardCall 0xD0 0x7A, .boardStep, .boardStep, .boardStep,
    .toHost, .toHost, .toBoard, .toBoard]

/-- The board is reset and asks for a byte it drops, but the host has meanwhile sent a byte to
another service, which the board has got: this is the byte the host repeats. -/
def repeatingSession : List (Event twoPorts) :=
  [.hostSend console 0x61, .toBoard, .toBoard, .boardReset 0,
    .hostSend console 0x62, .toBoard, .hostSend shell 0x63, .toBoard, .toBoard,
    .toHost, .toBoard, .toBoard]

/-- Without the condition two things can go wrong: in one run a
request is taken for a payload byte that nobody has sent, and in the
other one a byte that the board has already is sent again. -/
theorem not_delivered_once :
    (∃ s, Lib.Run.run (Link.step twoPorts) {} inventingSession = some s ∧
      s.delivered = [⟨0xD0, 0x61, some 0⟩, ⟨0xD0, 0xFF, none⟩] ∧ ¬ s.Faithful) ∧
    (∃ s, Lib.Run.run (Link.step twoPorts) {} repeatingSession = some s ∧
      s.delivered = [⟨0xD0, 0x61, some 0⟩, ⟨0xD1, 0x63, some 2⟩, ⟨0xD1, 0x63, some 2⟩] ∧
      ¬ s.Faithful) := by
  constructor
  · obtain ⟨s, hs, hdel⟩ := Option.map_eq_some_iff.mp
      (show (Lib.Run.run (Link.step twoPorts) {} inventingSession).map (·.delivered) =
        some [⟨0xD0, 0x61, some 0⟩, ⟨0xD0, 0xFF, none⟩] by decide)
    refine ⟨s, hs, hdel, fun hfaithful => ?_⟩
    have hgen := hfaithful.1 ⟨0xD0, 0xFF, none⟩ (by rw [hdel]; decide)
    obtain ⟨n, hn, -⟩ := hgen
    exact nomatch hn
  · obtain ⟨s, hs, hdel⟩ := Option.map_eq_some_iff.mp
      (show (Lib.Run.run (Link.step twoPorts) {} repeatingSession).map (·.delivered) =
        some [⟨0xD0, 0x61, some 0⟩, ⟨0xD1, 0x63, some 2⟩, ⟨0xD1, 0x63, some 2⟩] by decide)
    refine ⟨s, hs, hdel, fun hfaithful => ?_⟩
    have hnodup := hfaithful.2
    rw [hdel] at hnodup
    exact absurd hnodup (by decide)

end Alcor.Proofs.Sermux
