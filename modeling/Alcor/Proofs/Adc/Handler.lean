import Alcor.Proofs.Adc.Processing
import Alcor.Proofs.Adc.Sequence

/-!
# `Alcor.Proofs.Adc.Handler`: what the device does to a channel

The loop of `ADCIntHandler` does the same to the device as that of
`Alcor.Adc.Device` (`Device.sampleEntries`), if this is told what the
handler finds of the channel.

* `Synced` says that a channel and the device agree about its value, and
  `Synced.sampleEntry`, `Synced.update` keep that.
* `handleEntries_foreign`: an entry of another channel stores into one
  cell of `sample_buf` and does nothing else to the channel.
* `handleEntry_own` is the entry of the channel itself, where
  `smoothOrWrite_keeps` says what becomes of the sample.
* `adcUpdateDevSequence_keeps`: what the update at the end of the handler
  can do to a channel is in `Follows`. The value may be lost or move,
  but only if the sequence is rebuilt with the channel in it.
* `handler_outside` and `handler_inside` are about the whole handler, for
  a channel that is not in the sequence and for one that is.
-/

set_option autoImplicit false

namespace Alcor.Proofs.Adc

open Alcor.Adc
open Alcor.Adc.Device (Dev Sampled sampleEntry sampleEntries sampleSequence isActive)

variable {n : Nat} {id : Fin n} {c c' : Channel} {d d' : Dev n}
variable {i : Interrupt n} {s : Sampled n}

/-! ### The channel in the device -/

/-- The device has the state of the channel. -/
structure Synced (c : Channel) (id : Fin n) (d : Dev n) : Prop where
  valuePtr : d.valuePtr id = c.valuePtr
  valueFresh : d.valueFresh id = c.valueFresh
  opPending : d.opPending id = c.opPending

theorem synced_toDev (c : Channel) (id : Fin n) (d : Dev n) : Synced c id (c.toDev id d) :=
  ⟨Function.update_self .., Function.update_self .., Function.update_self ..⟩

theorem synced_ofDev (c : Channel) (id : Fin n) (d : Dev n) : Synced (c.ofDev id d) id d :=
  ⟨rfl, rfl, rfl⟩

theorem Synced.toDev (h : Synced c id d) : c.toDev id d = d := by
  rw [Channel.toDev, ← h.valuePtr, ← h.valueFresh, ← h.opPending, Function.update_eq_self,
    Function.update_eq_self, Function.update_eq_self]

theorem Synced.ofDev (h : Synced c id d) : c.ofDev id d = c := by
  rw [Channel.ofDev, h.valuePtr, h.valueFresh, h.opPending]

/-- The cells of `sample_buf` are not part of the device's state of the channel. -/
theorem Synced.sampleBuf (h : Synced c id d) (b : Nat → UInt16) :
    Synced { c with sampleBuf := b } id d :=
  ⟨h.valuePtr, h.valueFresh, h.opPending⟩

/-! ### The entries of other channels -/

/-- What is found of the other channels is what the interrupt says. -/
def Agrees (i : Interrupt n) (id : Fin n) (s : Sampled n) : Prop :=
  ∀ j, j ≠ id → s.taken j = i.others.taken j ∧ s.enough j = i.others.enough j

theorem agrees_sampled (i : Interrupt n) (id : Fin n) (taken enough : Bool) :
    Agrees i id (i.sampled id taken enough) :=
  fun _ hj => ⟨Function.update_of_ne hj .., Function.update_of_ne hj ..⟩

theorem agrees_others (i : Interrupt n) (id : Fin n) : Agrees i id i.others :=
  fun _ _ => ⟨rfl, rfl⟩

/-- An entry depends on what is found of its channel alone. -/
theorem sampleEntry_congr {s' : Sampled n} (hs : Agrees i id s) (hs' : Agrees i id s')
    (hother : d.chState d.seqCtr ≠ some id) : sampleEntry s d = sampleEntry s' d := by
  rw [sampleEntry, sampleEntry]
  cases hj : d.chState d.seqCtr with
  | none => rfl
  | some j =>
    have hne : j ≠ id := fun heq => hother (by rw [hj, heq])
    obtain ⟨htaken, henough⟩ := hs j hne
    obtain ⟨htaken', henough'⟩ := hs' j hne
    dsimp only
    rw [htaken, htaken', henough, henough']

theorem platformAdcStop_opPending (j : Fin n) (d : Dev n) :
    (Device.platformAdcStop j d).opPending = Function.update d.opPending j false := by
  rw [Device.platformAdcStop]
  split <;> rfl

theorem platformAdcStop_valueFresh (j : Fin n) (d : Dev n) :
    (Device.platformAdcStop j d).valueFresh = d.valueFresh := by
  rw [Device.platformAdcStop]
  split <;> rfl

/-- An entry of another channel leaves the state of this one. -/
theorem Synced.sampleEntry (h : Synced c id d) (s : Sampled n)
    (hother : d.chState d.seqCtr ≠ some id) : Synced c id (Device.sampleEntry s d) := by
  have hptr := (sameSequence_sampleEntry s d).valuePtr
  refine ⟨(congrFun hptr id).trans h.valuePtr, ?_, ?_⟩
  · rw [← h.valueFresh, Device.sampleEntry]
    cases hj : d.chState d.seqCtr with
    | none => rfl
    | some j =>
      have hne : id ≠ j := fun heq => hother (by rw [hj, heq])
      dsimp only
      split
      · rw [platformAdcStop_valueFresh]
        exact Function.update_of_ne hne ..
      · exact Function.update_of_ne hne ..
  · rw [← h.opPending, Device.sampleEntry]
    cases hj : d.chState d.seqCtr with
    | none => rfl
    | some j =>
      have hne : id ≠ j := fun heq => hother (by rw [hj, heq])
      dsimp only
      split
      · rw [platformAdcStop_opPending]
        exact Function.update_of_ne hne ..
      · rfl

/-- An entry of another channel: a sample is stored. -/
theorem handleEntry_foreign (hsync : Synced c id d) (hother : d.chState d.seqCtr ≠ some id) :
    ∃ b : Nat → UInt16,
      handleEntry id i c d = some ({ c with sampleBuf := b }, sampleEntry i.others d) ∧
      ∀ m, m ≠ d.seqCtr → b m = c.sampleBuf m := by
  rw [handleEntry]
  cases hj : d.chState d.seqCtr with
  | none =>
    refine ⟨c.sampleBuf, ?_, fun _ _ => rfl⟩
    rw [sampleEntry, hj]
  | some j =>
    have hne : j ≠ id := fun heq => hother (by rw [hj, heq])
    refine ⟨Function.update c.sampleBuf d.seqCtr (i.tmpbuff d.seqCtr), ?_,
      fun m hm => Function.update_of_ne hm ..⟩
    have hstored : Synced (c.store d.seqCtr (i.tmpbuff d.seqCtr)) id d := hsync.sampleBuf _
    simp only [if_neg hne, Option.bind_eq_bind, Option.bind_some, Option.pure_def,
      hstored.toDev, sampleEntry_congr (agrees_sampled i id _ _) (agrees_others i id) hother,
      (hstored.sampleEntry i.others hother).ofDev]
    rfl

theorem sampleEntries_seqCtr (s : Sampled n) (k : Nat) :
    ∀ d : Dev n, (sampleEntries s k d).seqCtr = d.seqCtr + k := by
  induction k with
  | zero => exact fun d => rfl
  | succ k ih =>
    intro d
    rw [sampleEntries, ih]
    show d.seqCtr + 1 + k = d.seqCtr + (k + 1)
    omega

theorem sampleEntries_add (s : Sampled n) (k m : Nat) :
    ∀ d : Dev n, sampleEntries s (k + m) d = sampleEntries s m (sampleEntries s k d) := by
  induction k with
  | zero =>
    intro d
    rw [Nat.zero_add]
    rfl
  | succ k ih =>
    intro d
    rw [Nat.succ_add, sampleEntries, ih]
    rfl

theorem handleEntries_add (i : Interrupt n) (k m : Nat) :
    ∀ (c : Channel) (d : Dev n), handleEntries id i (k + m) c d =
      (handleEntries id i k c d).bind fun q => handleEntries id i m q.1 q.2 := by
  induction k with
  | zero =>
    intro c d
    rw [Nat.zero_add]
    rfl
  | succ k ih =>
    intro c d
    rw [Nat.succ_add, handleEntries, handleEntries]
    cases handleEntry id i c d with
    | none => rfl
    | some q => exact ih q.1 _

/-- The entries in front of `seqCtr + k`, if these are of other channels. -/
def Foreign (id : Fin n) (k : Nat) (d : Dev n) : Prop :=
  ∀ m, d.seqCtr ≤ m → m < d.seqCtr + k → d.chState m ≠ some id

theorem Foreign.head {k : Nat} (h : Foreign id (k + 1) d) : d.chState d.seqCtr ≠ some id :=
  h d.seqCtr (Nat.le_refl _) (by omega)

theorem Foreign.tail {k : Nat} (h : Foreign id (k + 1) d) (s : Sampled n) :
    Foreign id k { sampleEntry s d with seqCtr := d.seqCtr + 1 } := by
  intro m hm hlt
  have hm : d.seqCtr + 1 ≤ m := hm
  have hlt : m < d.seqCtr + 1 + k := hlt
  show (sampleEntry s d).chState m ≠ some id
  rw [(sameSequence_sampleEntry s d).chState]
  exact h m (by omega) (by omega)

theorem sampleEntries_congr {s' : Sampled n} (hs : Agrees i id s) (hs' : Agrees i id s')
    (k : Nat) : ∀ d : Dev n, Foreign id k d → sampleEntries s k d = sampleEntries s' k d := by
  induction k with
  | zero => exact fun _ _ => rfl
  | succ k ih =>
    intro d hforeign
    have hrest := ih _ (hforeign.tail s)
    rw [sampleEntries, sampleEntries, hrest, sampleEntry_congr hs hs' hforeign.head]

/-- Entries of other channels: samples are stored in their cells, and the device is that of
`sampleEntries`. -/
theorem handleEntries_foreign (k : Nat) :
    ∀ (c : Channel) (d : Dev n), Synced c id d → Foreign id k d →
      ∃ b : Nat → UInt16,
        handleEntries id i k c d = some ({ c with sampleBuf := b }, sampleEntries i.others k d) ∧
        Synced { c with sampleBuf := b } id (sampleEntries i.others k d) ∧
        ∀ m, m < d.seqCtr ∨ d.seqCtr + k ≤ m → b m = c.sampleBuf m := by
  induction k with
  | zero => exact fun c d hsync _ => ⟨c.sampleBuf, rfl, hsync, fun _ _ => rfl⟩
  | succ k ih =>
    intro c d hsync hforeign
    obtain ⟨b, hentry, hb⟩ := handleEntry_foreign (i := i) hsync hforeign.head
    have hsync' := hsync.sampleEntry i.others hforeign.head
    obtain ⟨b', hrest, hsync'', hb'⟩ := ih { c with sampleBuf := b }
      { sampleEntry i.others d with seqCtr := d.seqCtr + 1 }
      ⟨hsync'.valuePtr, hsync'.valueFresh, hsync'.opPending⟩ (hforeign.tail i.others)
    refine ⟨b', ?_, hsync'', fun m hm => ?_⟩
    · rw [handleEntries, hentry]
      exact hrest
    · have hold : b' m = b m := hb' m (by
        show m < d.seqCtr + 1 ∨ d.seqCtr + 1 + k ≤ m
        omega)
      rw [hold]
      exact hb m (by omega)

/-! ### The entry of the channel -/

/-- What the device knows of a channel and where its value is, but not if it is fresh. -/
structure SameCell (c c' : Channel) : Prop where
  valuePtr : c'.valuePtr = c.valuePtr
  sampleBuf : c'.sampleBuf = c.sampleBuf
  opPending : c'.opPending = c.opPending

theorem smoothOut_keeps (h : smoothOut c = some c') :
    SameCell c c' ∧ c'.valueFresh = c.valueFresh := by
  rw [smoothOut] at h
  obtain ⟨oldest, -, hout⟩ := Option.bind_eq_some_iff.mp h
  obtain rfl := Option.some.inj hout
  dsimp only
  split <;> exact ⟨⟨rfl, rfl, rfl⟩, rfl⟩

theorem smoothIn_keeps {v : UInt16} (h : smoothIn c v = some c') :
    SameCell c c' ∧ c'.valueFresh = c.valueFresh := by
  rw [smoothIn] at h
  split at h
  · obtain rfl := Option.some.inj h
    exact ⟨⟨rfl, rfl, rfl⟩, rfl⟩
  · cases h

/-- The handler smooths or writes a sample, and leaves it in its cell. -/
theorem smoothOrWrite_keeps (h : smoothOrWrite c = some c') : SameCell c c' := by
  rw [smoothOrWrite] at h
  split at h
  · obtain ⟨c₁, hout, hin⟩ := Option.bind_eq_some_iff.mp h
    obtain ⟨hptr, hbuf, hop⟩ := (smoothOut_keeps hout).1
    obtain ⟨hptr', hbuf', hop'⟩ := (smoothIn_keeps hin).1
    exact ⟨hptr'.trans hptr, hbuf'.trans hbuf, hop'.trans hop⟩
  · split at h
    · obtain ⟨⟨res, buf⟩, -, hbuf⟩ := Option.bind_eq_some_iff.mp h
      obtain rfl := Option.some.inj hbuf
      exact ⟨rfl, rfl, rfl⟩
    · obtain rfl := Option.some.inj h
      exact ⟨rfl, rfl, rfl⟩

/-- The entry of the channel itself. What the device is told of the sample is what the handler
finds. -/
theorem handleEntry_own (hsync : Synced c id d) (hown : d.chState d.seqCtr = some id)
    (hstore : smoothOrWrite (brought c (c.store d.seqCtr (i.tmpbuff d.seqCtr)).sampleBuf)
      = some c') :
    ∃ op, handleEntry id i c d = some ({ c' with opPending := op },
        sampleEntry (i.sampled id (!c'.valueFresh) c'.enough) d) ∧
      Synced { c' with opPending := op } id
        (sampleEntry (i.sampled id (!c'.valueFresh) c'.enough) d) := by
  obtain ⟨hptr, -, hop⟩ := smoothOrWrite_keeps hstore
  generalize hs : i.sampled id (!c'.valueFresh) c'.enough = s
  have htaken : s.taken id = !c'.valueFresh := by
    rw [← hs]
    exact Function.update_self ..
  -- only `value_fresh` of the device is behind, and the entry sets it
  have hdev : sampleEntry s (c'.toDev id d) = sampleEntry s d := by
    have hptr' : Function.update d.valuePtr id c'.valuePtr = d.valuePtr := by
      rw [hptr, show (brought c _).valuePtr = d.valuePtr id from hsync.valuePtr.symm,
        Function.update_eq_self]
    have hop' : Function.update d.opPending id c'.opPending = d.opPending := by
      rw [hop, show (brought c _).opPending = d.opPending id from hsync.opPending.symm,
        Function.update_eq_self]
    rw [Channel.toDev, hptr', hop', sampleEntry, sampleEntry]
    dsimp only
    rw [hown]
    dsimp only
    rw [Function.update_idem]
  have hfresh : (sampleEntry s d).valueFresh id = c'.valueFresh := by
    have hset : Function.update d.valueFresh id (!s.taken id) id = c'.valueFresh := by
      rw [Function.update_self, htaken, Bool.not_not]
    rw [sampleEntry, hown]
    dsimp only
    split
    · rw [platformAdcStop_valueFresh]
      exact hset
    · exact hset
  have hvalue : (sampleEntry s d).valuePtr id = c'.valuePtr := by
    rw [(sameSequence_sampleEntry s d).valuePtr, hptr]
    exact hsync.valuePtr
  refine ⟨(sampleEntry s d).opPending id, ?_, hvalue, hfresh, rfl⟩
  rw [handleEntry, hown]
  have hstore' : smoothOrWrite { c.store d.seqCtr (i.tmpbuff d.seqCtr) with valueFresh := true }
      = some c' := hstore
  simp only [if_pos, hstore', hs, hdev, Option.bind_eq_bind, Option.bind_some, Option.pure_def]
  rw [Channel.ofDev, hvalue, hfresh]

/-! ### The update of the sequence -/

/-- What may have become of the channel: the smoothing and the buffer are as they were, a value is
not made fresh, and unless the channel was placed anew its value is the same. -/
structure Follows (c c' : Channel) (replaced : Bool) : Prop where
  ring : SameRing c c'
  fresh : c'.valueFresh = true → c.valueFresh = true
  value : replaced = false → c'.valueFresh = c.valueFresh ∧ c'.value = c.value

theorem placeChannel_other (previd : Nat) (p : Dev n × Nat) (j : Fin n)
    (h : j ≠ id ∨ isActive p.1.chActive id = false) :
    (Device.placeChannel previd p j).1.chActive = p.1.chActive ∧
      (Device.placeChannel previd p j).1.valuePtr id = p.1.valuePtr id ∧
      (Device.placeChannel previd p j).1.valueFresh id = p.1.valueFresh id := by
  rw [Device.placeChannel]
  split
  · next hact =>
      have hne : id ≠ j := by
        rintro rfl
        rcases h with hne | hoff
        · exact hne rfl
        · rw [hoff] at hact
          cases hact
      exact ⟨rfl, Function.update_of_ne hne .., Function.update_of_ne hne ..⟩
  · exact ⟨rfl, rfl, rfl⟩

/-- The channels that are placed keep their operations, and none gets a fresh value. -/
theorem placeChannel_keeps (id : Fin n) (previd : Nat) (p : Dev n × Nat) (j : Fin n) :
    (Device.placeChannel previd p j).1.opPending = p.1.opPending ∧
      ((Device.placeChannel previd p j).1.valueFresh id = true → p.1.valueFresh id = true) := by
  rw [Device.placeChannel]
  split
  · refine ⟨rfl, fun hf => ?_⟩
    have hf : Function.update p.1.valueFresh j false id = true := hf
    rw [Function.update_apply] at hf
    split at hf
    · cases hf
    · exact hf
  · exact ⟨rfl, fun h => h⟩

theorem foldl_placeChannel (id : Fin n) (previd : Nat) (l : List (Fin n)) :
    ∀ p : Dev n × Nat,
      (l.foldl (Device.placeChannel previd) p).1.opPending = p.1.opPending ∧
      ((l.foldl (Device.placeChannel previd) p).1.valueFresh id = true →
        p.1.valueFresh id = true) ∧
      (isActive p.1.chActive id = false →
        (l.foldl (Device.placeChannel previd) p).1.valuePtr id = p.1.valuePtr id ∧
        (l.foldl (Device.placeChannel previd) p).1.valueFresh id = p.1.valueFresh id) := by
  induction l with
  | nil => exact fun p => ⟨rfl, fun h => h, fun _ => ⟨rfl, rfl⟩⟩
  | cons j l ih =>
    intro p
    obtain ⟨hop, hfresh, hkeep⟩ := ih (Device.placeChannel previd p j)
    obtain ⟨hop₁, hfresh₁⟩ := placeChannel_keeps id previd p j
    refine ⟨hop.trans hop₁, fun h => hfresh₁ (hfresh h), fun hoff => ?_⟩
    obtain ⟨hact, hptr, hval⟩ := placeChannel_other previd p j (.inr hoff)
    obtain ⟨hptr', hval'⟩ := hkeep (hact ▸ hoff)
    exact ⟨hptr'.trans hptr, hval'.trans hval⟩

/-- What is rebuilt: the channels that are off keep what they have. -/
theorem rebuild_keeps (id : Fin n) (previd : Nat) (d : Dev n) :
    (Device.rebuild previd d).1.opPending = d.opPending ∧
      ((Device.rebuild previd d).1.valueFresh id = true → d.valueFresh id = true) ∧
      (isActive d.chActive id = false →
        (Device.rebuild previd d).1.valuePtr id = d.valuePtr id ∧
        (Device.rebuild previd d).1.valueFresh id = d.valueFresh id) := by
  simp only [Device.rebuild, nullRest_eq]
  exact foldl_placeChannel id previd (List.finRange n) ({ d with seqCtr := 0 }, 0)

/-- The update keeps the operations, makes no value fresh, and changes nothing of a channel that it
does not place. -/
theorem adcUpdateDevSequence_keeps (nullId : Nat) (d : Dev n) (id : Fin n) :
    (Device.adcUpdateDevSequence nullId d).1.opPending = d.opPending ∧
      ((Device.adcUpdateDevSequence nullId d).1.valueFresh id = true → d.valueFresh id = true) ∧
      ((d.stale && isActive d.chActive id) = false →
        (Device.adcUpdateDevSequence nullId d).1.valuePtr id = d.valuePtr id ∧
        (Device.adcUpdateDevSequence nullId d).1.valueFresh id = d.valueFresh id) := by
  rw [Device.adcUpdateDevSequence]
  split
  · next hstale =>
      obtain ⟨hop, hfresh, hkeep⟩ := rebuild_keeps id _ d
      refine ⟨hop, hfresh, fun hoff => hkeep ?_⟩
      rwa [hstale, Bool.true_and] at hoff
  · exact ⟨rfl, fun h => h, fun _ => ⟨rfl, rfl⟩⟩

/-- A channel whose state in the device changes by an update. -/
theorem Synced.update (h : Synced c id d) (nullId : Nat) :
    Follows c (c.ofDev id (Device.adcUpdateDevSequence nullId d).1)
      (d.stale && isActive d.chActive id) := by
  obtain ⟨-, hfresh, hkeep⟩ := adcUpdateDevSequence_keeps nullId d id
  refine ⟨⟨rfl, rfl, rfl, rfl, rfl, rfl⟩, fun hf => h.valueFresh ▸ hfresh hf, fun hoff => ?_⟩
  obtain ⟨hptr, hval⟩ := hkeep hoff
  refine ⟨hval.trans h.valueFresh, ?_⟩
  show ((Device.adcUpdateDevSequence nullId d).1.valuePtr id |>.map c.sampleBuf).getD 0 = _
  rw [hptr, h.valuePtr]
  rfl

theorem Follows.refl (c : Channel) : Follows c c false :=
  ⟨⟨rfl, rfl, rfl, rfl, rfl, rfl⟩, fun h => h, fun _ => ⟨rfl, rfl⟩⟩

/-! ### The whole handler -/

/-- Behind the loop: the sequence is updated if the device goes on, and what has become of the
device is what `Device.adcIntHandler` says. -/
theorem handler_of_entries {c₁ : Channel} (nullId : Nat)
    (hloop : handleEntries id i d.seqLen c { c.toDev id d with seqCtr := 0 } =
      some (c₁, sampleEntries s d.seqLen { c.toDev id d with seqCtr := 0 }))
    (hsync : Synced c₁ id (sampleEntries s d.seqLen { c.toDev id d with seqCtr := 0 })) :
    ∃ c', adcIntHandler nullId id i c d =
        some (c', Device.adcIntHandler nullId s (c.toDev id d)) ∧
      Synced c' id (Device.adcIntHandler nullId s (c.toDev id d)) ∧
      Follows c₁ c' ((Device.Event.interrupt s).replaces (c.toDev id d) id) := by
  have hseq : sampleSequence s (c.toDev id d) =
      { sampleEntries s d.seqLen { c.toDev id d with seqCtr := 0 } with seqCtr := 0 } := rfl
  have hsync' : Synced c₁ id (sampleSequence s (c.toDev id d)) :=
    ⟨hsync.valuePtr, hsync.valueFresh, hsync.opPending⟩
  have hhandler : adcIntHandler nullId id i c d =
      if (sampleSequence s (c.toDev id d)).running then
        some (c₁.ofDev id (Device.adcUpdateDevSequence nullId (sampleSequence s (c.toDev id d))).1,
          (Device.adcUpdateDevSequence nullId (sampleSequence s (c.toDev id d))).1)
      else some (c₁, sampleSequence s (c.toDev id d)) := by
    rw [adcIntHandler, hloop]
    rfl
  rw [hhandler, Device.adcIntHandler, Device.Event.replaces, Device.Event.entry]
  split
  · exact ⟨_, rfl, synced_ofDev .., hsync'.update nullId⟩
  · exact ⟨c₁, rfl, hsync', .refl c₁⟩

/-- The device at the start of the loop. -/
theorem synced_rewind (c : Channel) (id : Fin n) (d : Dev n) :
    Synced c id { c.toDev id d with seqCtr := 0 } := by
  obtain ⟨hptr, hfresh, hop⟩ := synced_toDev c id d
  exact ⟨hptr, hfresh, hop⟩

/-- The handler, for a channel that is not in the sequence: samples of other channels are stored in
the cells of the sequence. -/
theorem handler_outside (nullId : Nat) (i : Interrupt n)
    (hout : ∀ k < d.seqLen, d.chState k ≠ some id) :
    ∃ c' b, adcIntHandler nullId id i c d =
        some (c', Device.adcIntHandler nullId i.others (c.toDev id d)) ∧
      Synced c' id (Device.adcIntHandler nullId i.others (c.toDev id d)) ∧
      (∀ m, d.seqLen ≤ m → b m = c.sampleBuf m) ∧
      Follows { c with sampleBuf := b } c'
        ((Device.Event.interrupt i.others).replaces (c.toDev id d) id) := by
  obtain ⟨b, hloop, hsync, hb⟩ := handleEntries_foreign (i := i) d.seqLen c
    { c.toDev id d with seqCtr := 0 } (synced_rewind c id d)
    (fun m _ hlt => hout m (by simpa using hlt))
  obtain ⟨c', hhandler, hsync', hfollows⟩ := handler_of_entries nullId hloop hsync
  exact ⟨c', b, hhandler, hsync', fun m hm => hb m (.inr (by simpa using hm)), hfollows⟩

/-- The handler, for a channel in the sequence: samples are stored in the cells of the others, and
that of the channel in its own, where it is smoothed, written to the buffer or left. -/
theorem handler_inside (nullId : Nat) (i : Interrupt n) {p : Nat} (hp : p < d.seqLen)
    (hown : d.chState p = some id) (honly : ∀ m, d.chState m = some id → m = p) :
    ∃ b : Nat → UInt16, b p = i.tmpbuff p ∧
      ∀ c₂, smoothOrWrite (brought c b) = some c₂ →
      ∃ c' b' op, adcIntHandler nullId id i c d =
          some (c', Device.adcIntHandler nullId (i.sampled id (!c₂.valueFresh) c₂.enough)
            (c.toDev id d)) ∧
        Synced c' id (Device.adcIntHandler nullId (i.sampled id (!c₂.valueFresh) c₂.enough)
          (c.toDev id d)) ∧
        b' p = b p ∧
        Follows { c₂ with sampleBuf := b', opPending := op } c'
          ((Device.Event.interrupt (i.sampled id (!c₂.valueFresh) c₂.enough)).replaces
            (c.toDev id d) id) := by
  -- the entries in front of that of the channel
  obtain ⟨b₀, hbefore, hsync₀, -⟩ := handleEntries_foreign (i := i) p c
    { c.toDev id d with seqCtr := 0 } (synced_rewind c id d) (fun m _ hlt heq => by
      have hlt : m < 0 + p := hlt
      have hm := honly m heq
      omega)
  generalize hD : { c.toDev id d with seqCtr := 0 } = D at hbefore hsync₀
  have hstate : D.chState = d.chState := by rw [← hD]; rfl
  have hctr : D.seqCtr = 0 := by rw [← hD]
  have hat : (sampleEntries i.others p D).seqCtr = p := by
    rw [sampleEntries_seqCtr, hctr, Nat.zero_add]
  have hown₀ : (sampleEntries i.others p D).chState (sampleEntries i.others p D).seqCtr
      = some id := by
    rw [hat, (sameSequence_sampleEntries i.others p D).chState, hstate]
    exact hown
  refine ⟨Function.update b₀ p (i.tmpbuff p), Function.update_self .., fun c₂ hstore => ?_⟩
  generalize hs : i.sampled id (!c₂.valueFresh) c₂.enough = s
  have hagrees : Agrees i id s := hs ▸ agrees_sampled i id _ _
  have hfirst : sampleEntries s p D = sampleEntries i.others p D := by
    refine sampleEntries_congr hagrees (agrees_others i id) p D fun m _ hlt heq => ?_
    rw [hctr] at hlt
    rw [hstate] at heq
    have hm := honly m heq
    omega
  -- its own entry
  obtain ⟨op, hentry, hsync₁⟩ := handleEntry_own (i := i) hsync₀ hown₀
    (show smoothOrWrite _ = some c₂ by rw [hat]; exact hstore)
  rw [hs] at hentry hsync₁
  -- and those behind it
  have hforeign : Foreign id (d.seqLen - (p + 1)) { sampleEntry s (sampleEntries i.others p D) with
      seqCtr := (sampleEntries i.others p D).seqCtr + 1 } := by
    intro m hm _ heq
    have hm : (sampleEntries i.others p D).seqCtr + 1 ≤ m := hm
    have heq : (sampleEntry s (sampleEntries i.others p D)).chState m = some id := heq
    rw [hat] at hm
    rw [(sameSequence_sampleEntry s _).chState, (sameSequence_sampleEntries i.others p D).chState,
      hstate] at heq
    have hm' := honly m heq
    omega
  obtain ⟨b', hafter, hsync₂, hb'⟩ := handleEntries_foreign (i := i) (d.seqLen - (p + 1))
    { c₂ with opPending := op }
    { sampleEntry s (sampleEntries i.others p D) with
      seqCtr := (sampleEntries i.others p D).seqCtr + 1 }
    ⟨hsync₁.valuePtr, hsync₁.valueFresh, hsync₁.opPending⟩ hforeign
  rw [sampleEntries_congr (agrees_others i id) hagrees _ _ hforeign] at hafter hsync₂
  have hlen : d.seqLen = p + ((d.seqLen - (p + 1)) + 1) := by omega
  have hdev : sampleEntries s d.seqLen D = sampleEntries s (d.seqLen - (p + 1))
      { sampleEntry s (sampleEntries i.others p D) with
        seqCtr := (sampleEntries i.others p D).seqCtr + 1 } := by
    rw [hlen, sampleEntries_add, hfirst, ← hlen]
    rfl
  have hloop : handleEntries id i d.seqLen c D =
      some ({ c₂ with opPending := op, sampleBuf := b' }, sampleEntries s d.seqLen D) := by
    rw [hdev, hlen, handleEntries_add, hbefore, Option.bind_some, handleEntries, hentry, ← hlen]
    exact hafter
  rw [← hD] at hloop hdev
  obtain ⟨c', hhandler, hsync', hfollows⟩ := handler_of_entries nullId hloop (by
    rw [hdev, hD]
    exact hsync₂)
  refine ⟨c', b', op, hhandler, hsync', ?_, hfollows⟩
  have hcell : b' p = c₂.sampleBuf p := hb' p (.inl (by
    show p < (sampleEntries i.others p D).seqCtr + 1
    omega))
  rw [hcell, (smoothOrWrite_keeps hstore).sampleBuf]
  rfl

end Alcor.Proofs.Adc
