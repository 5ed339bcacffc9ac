import Alcor.Proofs.Lua.NewKey

/-!
# `Alcor.Proofs.Lua.Resize`: a resize loses nothing

The elements of a vanishing slice are inserted one by one, and the
whole of `resize` gives a sound table with the same entries.

* `Reinserting` is the invariant of the loop over the slice:
  `Reinserting.stepNil` and `Reinserting.stepAdded` are its two cases,
  and `Reinserting.exists_free` finds room for the element.
* `Sound.resize_grow` and `Sound.resize_shrink` are the two directions,
  `Sound.resize` puts them together.
* `resize_loses_nothing` says what this means to a caller: each key has
  the value it had, no key appears twice, each node is reachable, and
  the free nodes are found.
-/

set_option autoImplicit false

namespace Alcor.Proofs.Lua

open Alcor.Lua
open Lib (Chain)

variable {N V : Type} {num : Numbers N} {t : Table N V} {rest : Nat → List Nat}

theorem Linking.ends (h : Linking num t rest) (m : Nat) :
    ∃ l, Chain (nextOf t) (m :: l) ∧ ∀ x ∈ l, x < t.sizenode := by
  by_cases hc : Chained num t rest m
  · obtain ⟨o, ho, hmem⟩ := hc
    obtain ⟨a, l, hal⟩ := List.append_of_mem hmem
    refine ⟨l, ?_, fun x hx => ?_⟩
    · have hchain := h.chain o ho
      rw [hal] at hchain
      exact hchain.suffix
    · refine h.lt_of_chained ⟨o, ho, ?_⟩
      rw [hal]
      exact List.mem_append_right _ (List.mem_cons_of_mem _ hx)
  · exact ⟨[], ⟨h.loose m hc, trivial⟩, fun _ hx => absurd hx List.not_mem_nil⟩

/-- A table whose nodes are all in their chains is as a table should be. -/
theorem Rehashed.sound (h : Rehashed num t rest) (hsize : t.sizearray < 2 ^ 31)
    (harray : ∀ x k, (t.node x).key = some k → arraySlot num t.sizearray k = none) :
    Sound num t := by
  have hval : ∀ x k, (t.node x).key = some k → ∃ v, (t.node x).val = some v := by
    intro x k hk
    refine Option.ne_none_iff_exists'.mp fun hnone => ?_
    rw [(h.linking.both x).mpr hnone] at hk
    cases hk
  refine ⟨fun hd => ?_, hsize, fun x _ => (h.linking.both x).mp, fun x y hx hy hkey heq => ?_,
    fun m _ => h.linking.ends m, fun x k hx hk _ l hl => ?_, fun x k _ hk _ => harray x k hk,
    fun _ x hx => h.free x hx, fun x hx => ?_⟩
  · rw [h.linking.real] at hd
    cases hd
  · obtain ⟨k, hk⟩ := Option.ne_none_iff_exists'.mp hkey
    obtain ⟨v, hv⟩ := hval x k hk
    obtain ⟨w, hw⟩ := hval y k (heq.symm.trans hk)
    exact h.single.distinct x y k v w ⟨hx, hk, hv⟩ ⟨hy, heq.symm.trans hk, hw⟩
  · obtain ⟨m, hm, hmem⟩ := (h.settled x hx).resolve_left
      (by rw [hk]; exact Option.some_ne_none k)
    have hmain := h.linking.mainOf_of_mem hm hmem
    rw [Table.mainOf, hk, Option.map_some] at hmain
    obtain rfl := Option.some.inj hmain
    rw [Chain.unique hl (h.linking.chain _ hm) rfl]
    exact hmem
  · have hnot : ¬ Chained num t rest x := fun hc => h.linking.key_of_chained hc (h.beyond x hx)
    have hkey := h.beyond x hx
    have hv := (h.linking.both x).mp hkey
    have hnext : (t.node x).next = none := h.linking.loose x hnot
    cases hnode : t.node x with
    | mk key val next =>
      rw [hnode] at hkey hv hnext
      simp only at hkey hv hnext
      rw [hkey, hv, hnext]

/-! ### The vanishing slice -/

section Reinsert

variable {b s : Table N V} {n nasize oldasize k : Nat} {k₀ : Key N} {v₀ : V}

/-- The invariant of the loop, for the table before it. -/
structure Reinserting (num : Numbers N) (b : Table N V) (nasize oldasize k : Nat) (s : Table N V)
    (rest : Nat → List Nat) : Prop where
  rehashed : Rehashed num s rest
  sizenode : s.sizenode = b.sizenode
  sizearray : s.sizearray = nasize
  array : s.array = b.array
  slots : ∀ x key, (s.node x).key = some key →
    ∀ i, arraySlot num oldasize key = some i → nasize ≤ i ∧ i < nasize + k
  held : ∀ key v, (HasEntry num s key v ∨ ∃ i, nasize + k ≤ i ∧
    arraySlot num oldasize key = some i ∧ b.array i = some v) ↔ HasEntry num b key v

/-- The key of an element of the slice. -/
theorem arraySlot_reinserted {i : Nat} (hi : i < oldasize) (hold : oldasize < 2 ^ 31) :
    arraySlot num oldasize (.number (num.ofInt ((i + 1 : Nat) : Int))) = some i := by
  have hcast : ((i + 1 : Nat) : Int) = (i : Int) + 1 := by omega
  rw [hcast]
  exact arraySlot_ofInt hi hold

/-- A key of the slice does not belong to the array that is left. -/
theorem arraySlot_eq_none_of_le {i : Nat} {key : Key N} (h : arraySlot num oldasize key = some i)
    (hi : nasize ≤ i) : arraySlot num nasize key = none := by
  cases hc : arraySlot num nasize key with
  | none => rfl
  | some i' =>
    have hlt := arraySlot_lt hc
    have hlt' := arraySlot_lt h
    have heq := (arraySlot_of_lt hc (by omega)).symm.trans h
    have := Option.some.inj heq
    omega

/-- At the end of the loop no key belongs to the array that is left. -/
theorem Reinserting.arraySlot_eq_none (h : Reinserting num b nasize oldasize k s rest)
    (hlt : nasize < oldasize) (x : Nat) (key : Key N) (hkey : (s.node x).key = some key) :
    arraySlot num nasize key = none := by
  cases hc : arraySlot num nasize key with
  | none => rfl
  | some i =>
    have hi := arraySlot_lt hc
    have hrange := h.slots x key hkey i (arraySlot_of_lt hc (Nat.lt_trans hi hlt))
    omega

theorem Reinserting.slots_succ (h : Reinserting num b nasize oldasize k s rest) (x : Nat)
    (key : Key N) (hkey : (s.node x).key = some key) (i : Nat)
    (hi : arraySlot num oldasize key = some i) : nasize ≤ i ∧ i < nasize + (k + 1) := by
  have hrange := h.slots x key hkey i hi
  exact ⟨hrange.1, by omega⟩

/-- A nil element is left out. -/
theorem Reinserting.stepNil (h : Reinserting num b nasize oldasize k s rest)
    (hval : s.array (nasize + k) = none) : Reinserting num b nasize oldasize (k + 1) s rest := by
  refine ⟨h.rehashed, h.sizenode, h.sizearray, h.array, h.slots_succ, fun key v => ?_⟩
  rw [← h.held key v]
  refine or_congr Iff.rfl ⟨?_, ?_⟩
  · rintro ⟨i, hi, hslot, hv⟩
    exact ⟨i, by omega, hslot, hv⟩
  · rintro ⟨i, hi, hslot, hv⟩
    refine ⟨i, ?_, hslot, hv⟩
    have hne : i ≠ nasize + k := by
      rintro rfl
      rw [← h.array, hval] at hv
      cases hv
    omega

/-- There is a free node for the element: the keys in the nodes and the new one are not more than
there is room for. -/
theorem Reinserting.exists_free (h : Reinserting num b nasize oldasize k s rest)
    (hlt : nasize < oldasize) (hroom : Room num b (· < b.sizenode) nasize b.sizenode)
    (hnew : ∀ x, (s.node x).key ≠ some k₀) (hheld : HasEntry num b k₀ v₀)
    (hnone : arraySlot num nasize k₀ = none) :
    ∃ x, x < s.sizenode ∧ (s.node x).key = none := by
  by_contra hno
  have hfull : ∀ x ∈ List.range s.sizenode, ∃ key v, At s (· < s.sizenode) x key v := by
    intro x hx
    have hlt := List.mem_range.mp hx
    obtain ⟨key, hkey⟩ := Option.ne_none_iff_exists'.mp fun hnone => hno ⟨x, hlt, hnone⟩
    obtain ⟨v, hv⟩ := Option.ne_none_iff_exists'.mp fun hnone =>
      hno ⟨x, hlt, (h.rehashed.linking.both x).mpr hnone⟩
    exact ⟨key, v, hlt, hkey, hv⟩
  obtain ⟨l, hl, hlen, hmem⟩ := h.rehashed.single.exists_keys List.nodup_range hfull
  have hnotin : k₀ ∉ l := by
    intro hc
    obtain ⟨x, -, v, hat⟩ := hmem k₀ hc
    exact hnew x hat.2.1
  have hle := hroom (k₀ :: l) (List.nodup_cons.mpr ⟨hnotin, hl⟩) fun key hkey => by
    rcases List.mem_cons.mp hkey with rfl | hkey
    · exact ⟨⟨v₀, hheld⟩, hnone⟩
    · obtain ⟨x, -, v, hat⟩ := hmem key hkey
      exact ⟨⟨v, (h.held key v).mp (.inl (.inr ⟨x, hat⟩))⟩,
        h.arraySlot_eq_none hlt x key hat.2.1⟩
  rw [List.length_cons, hlen, List.length_range, h.sizenode] at hle
  omega

/-- The element is in the nodes now. -/
theorem Reinserting.stepAdded (h : Reinserting num b nasize oldasize k s rest) {s' : Table N V}
    {rest' : Nat → List Nat} (hs' : Rehashed num s' rest') (hadded : Added num s k₀ v₀ s')
    (hval : s.array (nasize + k) = some v₀) (hslot₀ : arraySlot num oldasize k₀ = some (nasize + k)) :
    Reinserting num b nasize oldasize (k + 1) s' rest' := by
  refine ⟨hs', hadded.sizenode.trans h.sizenode, hadded.sizearray.trans h.sizearray,
    hadded.array.trans h.array, fun x key hkey j hj => ?_, fun key v => ?_⟩
  · obtain ⟨y, hy⟩ | rfl := hadded.keys x key hkey
    · exact h.slots_succ y key hy j hj
    · rw [hslot₀] at hj
      have heq := Option.some.inj hj
      omega
  · rw [hadded.held, ← h.held key v]
    constructor
    · rintro ((hheld | ⟨rfl, rfl⟩) | ⟨j, hj, hslot, hv⟩)
      · exact .inl hheld
      · exact .inr ⟨_, Nat.le_refl _, hslot₀, h.array ▸ hval⟩
      · exact .inr ⟨j, by omega, hslot, hv⟩
    · rintro (hheld | ⟨j, hj, hslot, hv⟩)
      · exact .inl (.inl hheld)
      · by_cases hjk : j = nasize + k
        · subst hjk
          refine .inl (.inr ⟨arraySlot_inj hslot hslot₀, ?_⟩)
          rw [← h.array, hval] at hv
          exact (Option.some.inj hv).symm
        · exact .inr ⟨j, by omega, hslot, hv⟩

variable [DecidableEq N]

/-- One pass of the loop does not fail, and keeps the invariant. -/
theorem Reinserting.step (h : Reinserting num b nasize oldasize k s rest)
    (hk : nasize + k < oldasize) (hold : oldasize < 2 ^ 31) (hn : b.sizenode ≤ n)
    (hroom : Room num b (· < b.sizenode) nasize b.sizenode) :
    ∃ s' rest', s.reinsertAt num n (nasize + k) = some s' ∧
      Reinserting num b nasize oldasize (k + 1) s' rest' := by
  cases hval : s.array (nasize + k) with
  | none => exact ⟨s, rest, by rw [Table.reinsertAt, hval]; rfl, h.stepNil hval⟩
  | some v₀ =>
    obtain ⟨k₀, hk₀⟩ : ∃ k₀ : Key N, k₀ = .number (num.ofInt ((nasize + k + 1 : Nat) : Int)) :=
      ⟨_, rfl⟩
    have hslot₀ : arraySlot num oldasize k₀ = some (nasize + k) := by
      rw [hk₀]
      exact arraySlot_reinserted hk hold
    have hnone₀ : arraySlot num s.sizearray k₀ = none := by
      rw [h.sizearray]
      exact arraySlot_eq_none_of_le hslot₀ (Nat.le_add_right _ _)
    have hnew : ∀ x, (s.node x).key ≠ some k₀ := by
      intro x hx
      have hrange := h.slots x k₀ hx _ hslot₀
      omega
    have hheld : HasEntry num b k₀ v₀ :=
      (h.held k₀ v₀).mp (.inr ⟨_, Nat.le_refl _, hslot₀, h.array ▸ hval⟩)
    have hfree := h.exists_free (by omega) hroom hnew hheld (h.sizearray ▸ hnone₀)
    -- the search for the key fails, so that it gets a node
    have hn' : s.sizenode ≤ n := h.sizenode ▸ hn
    obtain ⟨l, hchain, hl⟩ := h.rehashed.linking.ends (mainposition num s.sizenode k₀)
    obtain ⟨r, hr, hsome, -⟩ := findNode_spec k₀ l _ n hchain
      (Nat.lt_of_lt_of_le (length_le_of_chain hchain (mainposition_lt s.lsizenode k₀) hl) hn')
    have hrnone : r = none := by
      cases r with
      | none => rfl
      | some x => exact absurd (hsome x rfl).2 (hnew x)
    subst hrnone
    obtain ⟨i, s₁, hnewkey, rest', hrehashed, hadded⟩ :=
      h.rehashed.newkey hn' hnew hnone₀ hfree v₀
    refine ⟨s₁.setNode i { s₁.node i with val := some v₀ }, rest', ?_,
      h.stepAdded hrehashed hadded hval hslot₀⟩
    have hr' : s.findNode k₀ n (mainposition num s.sizenode k₀) = some none := hr
    simp only [Table.reinsertAt, hval, Table.setnum]
    rw [← hk₀, hnone₀]
    simp [hr', hnewkey]

/-- The loop over the slice: by induction on the elements it has
passed. -/
theorem reinserting_run
    (hstart : Reinserting num b nasize oldasize 0 { b with sizearray := nasize } rest)
    (hold : oldasize < 2 ^ 31) (hn : b.sizenode ≤ n)
    (hroom : Room num b (· < b.sizenode) nasize b.sizenode) :
    ∀ k, nasize + k ≤ oldasize → ∃ s rest',
      reinsert num n nasize k { b with sizearray := nasize } = some s ∧
        Reinserting num b nasize oldasize k s rest' := by
  intro k
  induction k with
  | zero => exact fun _ => ⟨_, rest, rfl, hstart⟩
  | succ k ih =>
    intro hk
    obtain ⟨s, rest₁, hrun, hs⟩ := ih (Nat.le_of_succ_le hk)
    obtain ⟨s', rest₂, hstep, hs'⟩ := hs.step hk hold hn hroom
    refine ⟨s', rest₂, ?_, hs'⟩
    rw [← hstep]
    simp only [reinsert, hrun, Option.bind_eq_bind, Option.bind_some]

end Reinsert

/-! ### `resize` -/

/-- There is room for the keys that have a value: those that are not for the new array part are
not more than the new nodes. -/
def Fits (num : Numbers N) (t : Table N V) (nasize nhsize : Nat) : Prop :=
  Room num t (· < t.sizenode) nasize (roomOf nhsize)

theorem arraySlot_none_of_le {size size' : Nat} {k : Key N} (hle : size ≤ size')
    (h : arraySlot num size' k = none) : arraySlot num size k = none := by
  cases hc : arraySlot num size k with
  | none => rfl
  | some i =>
    have hlt := arraySlot_lt hc
    rw [arraySlot_of_lt hc (Nat.lt_of_lt_of_le hlt hle)] at h
    cases h

/-- What is known of the table after a resize. -/
structure Resized (num : Numbers N) (t : Table N V) (nasize nhsize : Nat) (u : Table N V) :
    Prop where
  sound : Sound num u
  rehashed : ∃ rest, Rehashed num u rest
  sizearray : u.sizearray = nasize
  sizenode : u.sizenode = roomOf nhsize
  held : ∀ k v, HasEntry num u k v ↔ HasEntry num t k v

section Resize

variable {u s : Table N V} {n nasize nhsize : Nat}

/-- When the array part does not shrink, only the hash part is resized. -/
theorem Sound.resize_grow (h : Sound num t) (hasize : nasize < 2 ^ 31) (hmax : nhsize ≤ 2 ^ MAXBITS)
    (hroom : Fits num t nasize nhsize) (hn : roomOf nhsize < n) (hle : t.sizearray ≤ nasize) :
    ∃ u, (if t.sizearray < nasize then t.setarrayvector nasize else t).resizeHashpart num n nhsize =
        some u ∧ Resized num t nasize nhsize u := by
  obtain ⟨t₀, ht₀, hnode, hlsize, hdummy, harray, hsize, hslots⟩ : ∃ t₀ : Table N V,
      (if t.sizearray < nasize then t.setarrayvector nasize else t) = t₀ ∧ t₀.node = t.node ∧
      t₀.lsizenode = t.lsizenode ∧ t₀.dummy = t.dummy ∧
      (∀ i, i < t.sizearray → t₀.array i = t.array i) ∧ t₀.sizearray = nasize ∧
      ∀ i, t.sizearray ≤ i → i < nasize → t₀.array i = none := by
    by_cases hlt : t.sizearray < nasize
    · exact ⟨t.setarrayvector nasize, if_pos hlt, rfl, rfl, rfl, fun i hi => if_pos hi, rfl,
        fun i hi _ => if_neg (Nat.not_lt.mpr hi)⟩
    · exact ⟨t, if_neg hlt, rfl, rfl, rfl, fun _ _ => rfl,
        Nat.le_antisymm hle (Nat.le_of_not_lt hlt), fun i hi hi' => by omega⟩
  have hsizenode : t₀.sizenode = t.sizenode := by rw [Table.sizenode, Table.sizenode, hlsize]
  have hat : ∀ x k v, At t₀ (· < t₀.sizenode) x k v ↔ At t (· < t.sizenode) x k v := by
    intro x k v
    rw [At, At, hnode, hsizenode]
  have hheld : ∀ k v, HasEntry num t₀ k v ↔ HasEntry num t k v := by
    intro k v
    refine or_congr ⟨?_, ?_⟩ (exists_congr fun x => hat x k v)
    · rintro ⟨i, hi, hv⟩
      rw [hsize] at hi
      rcases Nat.lt_or_ge i t.sizearray with hlt | hge
      · exact ⟨i, arraySlot_of_lt hi hlt, harray i hlt ▸ hv⟩
      · rw [hslots i hge (arraySlot_lt hi)] at hv
        cases hv
    · rintro ⟨i, hi, hv⟩
      have hlt := arraySlot_lt hi
      refine ⟨i, ?_, (harray i hlt).trans hv⟩
      rw [hsize]
      exact arraySlot_of_lt hi (Nat.lt_of_lt_of_le hlt hle)
  have hsingle : Single num t₀ (· < t₀.sizenode) := by
    refine ⟨fun x y k v w hx hy => ?_, fun x k v i hx hi => ?_⟩
    · exact h.single.distinct x y k v w ((hat x k v).mp hx) ((hat y k w).mp hy)
    · rw [hsize] at hi
      rcases Nat.lt_or_ge i t.sizearray with hlt | hge
      · rw [harray i hlt]
        exact h.single.apart x k v i ((hat x k v).mp hx) (arraySlot_of_lt hi hlt)
      · exact hslots i hge (arraySlot_lt hi)
  obtain ⟨u, rest, hrun, hu, husizenode, husize, huheld, huslots⟩ :=
    resizeHashpart_spec (t := t₀) hmax
    (fun hd => hlsize.trans (h.dummy (hdummy ▸ hd)).1)
    (fun hd => by rw [hnode]; exact (h.dummy (hdummy ▸ hd)).2)
    (fun x hx => by rw [hnode]; exact h.beyond x (hsizenode ▸ hx))
    (fun x hx => by rw [hnode]; exact h.keyed x (hsizenode ▸ hx)) hsingle
    (fun l hl hmem => hroom l hl fun k hk => by
      obtain ⟨⟨v, hv⟩, hslot⟩ := hmem k hk
      exact ⟨⟨v, (hheld k v).mp hv⟩, hsize ▸ hslot⟩) hn
  refine ⟨u, ht₀ ▸ hrun, hu.sound ?_ fun x k hk => ?_, ⟨rest, hu⟩, husize.trans hsize, husizenode,
    fun k v => (huheld k v).trans (hheld k v)⟩
  · rw [husize, hsize]
    exact hasize
  · rw [husize]
    exact huslots x k hk

/-- At the start of the loop the elements of the slice are in the array only. -/
theorem Rehashed.startReinserting (h : Rehashed num u rest) (hlt : nasize < u.sizearray)
    (hslots : ∀ x k, (u.node x).key = some k → arraySlot num u.sizearray k = none) :
    Reinserting num u nasize u.sizearray 0 { u with sizearray := nasize } rest := by
  have hnone : ∀ x k i, (u.node x).key = some k → arraySlot num u.sizearray k ≠ some i := by
    intro x k i hk hi
    rw [hslots x k hk] at hi
    cases hi
  have hsound : Rehashed num { u with sizearray := nasize } rest := by
    refine ⟨⟨h.linking.real, h.linking.both, h.linking.chain, h.linking.belongs,
      h.linking.other, h.linking.loose⟩, h.settled, h.beyond,
      ⟨h.single.distinct, fun x k v i hx hi => ?_⟩, h.free, h.lastfree_le⟩
    exact absurd (arraySlot_of_lt hi (Nat.lt_trans (arraySlot_lt hi) hlt)) (hnone x k i hx.2.1)
  refine ⟨hsound, rfl, rfl, rfl, fun x key hkey i hi => absurd hi (hnone x key i hkey),
    fun key v => ⟨?_, ?_⟩⟩
  · rintro ((⟨i, hi, hv⟩ | hat) | ⟨i, -, hi, hv⟩)
    · exact .inl ⟨i, arraySlot_of_lt hi (Nat.lt_trans (arraySlot_lt hi) hlt), hv⟩
    · exact .inr hat
    · exact .inl ⟨i, hi, hv⟩
  · rintro (⟨i, hi, hv⟩ | hat)
    · -- below the new size it stays, and from there on it is in the slice
      rcases Nat.lt_or_ge i nasize with hin | hge
      · exact .inl (.inl ⟨i, arraySlot_of_lt hi hin, hv⟩)
      · exact .inr ⟨i, hge, hi, hv⟩
    · exact .inl (.inr hat)

/-- The table when the array is cut. -/
def cutArray (s : Table N V) (nasize : Nat) : Table N V :=
  { s with array := fun i => if i < nasize then s.array i else none }

theorem Reinserting.rehashed_cutArray {b : Table N V} {oldasize k : Nat}
    (h : Reinserting num b nasize oldasize k s rest) (hlt : nasize < oldasize) :
    Rehashed num (cutArray s nasize) rest := by
  have hr := h.rehashed
  refine ⟨⟨hr.linking.real, hr.linking.both, hr.linking.chain, hr.linking.belongs,
    hr.linking.other, hr.linking.loose⟩, hr.settled, hr.beyond,
    ⟨hr.single.distinct, fun x k v i hx hi => ?_⟩, hr.free, hr.lastfree_le⟩
  rw [show (cutArray s nasize).sizearray = s.sizearray from rfl, h.sizearray,
    h.arraySlot_eq_none hlt x k hx.2.1] at hi
  cases hi

/-- The entries in front of the cut are all there are. -/
theorem hasEntry_cutArray (hsize : s.sizearray = nasize) (k : Key N) (v : V) :
    HasEntry num (cutArray s nasize) k v ↔ HasEntry num s k v := by
  refine or_congr ⟨?_, ?_⟩ Iff.rfl
  · rintro ⟨i, hi, hv⟩
    have hin : i < nasize := hsize ▸ arraySlot_lt hi
    exact ⟨i, hi, (if_pos hin).symm.trans hv⟩
  · rintro ⟨i, hi, hv⟩
    have hin : i < nasize := hsize ▸ arraySlot_lt hi
    exact ⟨i, hi, (if_pos hin).trans hv⟩

/-- When the array part shrinks, the elements of the vanishing slice go to the hash part. -/
theorem Sound.resize_shrink [DecidableEq N] (h : Sound num t) (hmax : nhsize ≤ 2 ^ MAXBITS)
    (hroom : Fits num t nasize nhsize) (hn : roomOf nhsize < n) (hlt : nasize < t.sizearray) :
    ∃ u s, t.resizeHashpart num n nhsize = some u ∧
      reinsert num n nasize (t.sizearray - nasize) { u with sizearray := nasize } = some s ∧
      Resized num t nasize nhsize
        { s with array := fun i => if i < nasize then s.array i else none } := by
  obtain ⟨u, rest, hrun, hu, husizenode, husize, huheld, huslots⟩ := resizeHashpart_spec hmax
    (fun hd => (h.dummy hd).1) (fun hd => (h.dummy hd).2) h.beyond h.keyed h.single
    (fun l hl hmem => hroom l hl fun k hk =>
      ⟨(hmem k hk).1, arraySlot_none_of_le (Nat.le_of_lt hlt) (hmem k hk).2⟩) hn
  rw [← husize] at hlt huslots
  have hstart := hu.startReinserting hlt huslots
  rw [husize] at hlt hstart
  have hroomu : Room num u (· < u.sizenode) nasize u.sizenode := by
    intro l hl hmem
    rw [husizenode]
    refine hroom l hl fun k hk => ?_
    obtain ⟨⟨v, hv⟩, hslot⟩ := hmem k hk
    exact ⟨⟨v, (huheld k v).mp hv⟩, hslot⟩
  obtain ⟨s, rest', hre, hs⟩ := reinserting_run (n := n) hstart h.sizearray_lt
    (husizenode ▸ Nat.le_of_lt hn) hroomu (t.sizearray - nasize) (by omega)
  have hfinal := hs.rehashed_cutArray hlt
  refine ⟨u, s, hrun, hre, hfinal.sound ?_ fun x k hk => ?_, ⟨rest', hfinal⟩, hs.sizearray,
    hs.sizenode.trans husizenode, fun k v => ?_⟩
  · show s.sizearray < 2 ^ 31
    rw [hs.sizearray]
    exact Nat.lt_trans hlt h.sizearray_lt
  · show arraySlot num s.sizearray k = none
    rw [hs.sizearray]
    exact hs.arraySlot_eq_none hlt x k hk
  · -- the whole slice has been reinserted
    have hend : ¬ ∃ i, nasize + (t.sizearray - nasize) ≤ i ∧
        arraySlot num t.sizearray k = some i ∧ u.array i = some v := by
      rintro ⟨i, hge, hi, -⟩
      have hlt := arraySlot_lt hi
      omega
    rw [← huheld k v, ← hs.held k v, or_iff_left hend]
    exact hasEntry_cutArray hs.sizearray k v

variable [DecidableEq N]

/-- The resize comes to an end, and the table is as it should be, with the same entries. -/
theorem Sound.resize (h : Sound num t) (hasize : nasize < 2 ^ 31) (hmax : nhsize ≤ 2 ^ MAXBITS)
    (hroom : Fits num t nasize nhsize) (hn : roomOf nhsize < n) :
    ∃ u, t.resize num n nasize nhsize = some u ∧ Resized num t nasize nhsize u := by
  rcases Nat.lt_or_ge nasize t.sizearray with hlt | hle
  · obtain ⟨u, s, hrun, hre, hresized⟩ := h.resize_shrink hmax hroom hn hlt
    refine ⟨_, ?_, hresized⟩
    simp [Table.resize, Nat.not_lt.mpr (Nat.le_of_lt hlt), hrun, hlt, hre]
  · obtain ⟨u, hrun, hresized⟩ := h.resize_grow hasize hmax hroom hn hle
    refine ⟨u, ?_, hresized⟩
    simp only [Table.resize, hrun, Option.bind_eq_bind, Option.bind_some,
      if_neg (Nat.not_lt.mpr hle)]
    rfl

omit [DecidableEq N] in
/-- A later insertion finds a free node if there is one. -/
theorem Sound.getfreepos (h : Sound num t) (hreal : t.dummy = false)
    (hfree : ∃ x, x < t.sizenode ∧ (t.node x).key = none) :
    ∃ i, t.getfreepos.1 = some i ∧ (t.node i).key = none := by
  obtain ⟨x, hx, hnone⟩ := hfree
  obtain ⟨i, hi, -, hkey, -⟩ | ⟨-, hall⟩ := freeBelow_spec t t.lastfree
  · exact ⟨i, by rw [Table.getfreepos, hi], hkey⟩
  · exact absurd hnone (hall x (h.free hreal x hx hnone))

/-- After a resize with room for the keys each key has the value it
had, no key appears twice, each node is reachable from the main
position of its key, and the free nodes are found. By induction on the
nodes of the old table, which are inserted one by one. -/
theorem resize_loses_nothing (num : Numbers N) (t : Table N V) (nasize nhsize : Nat)
    (h : Sound num t) (hasize : nasize < 2 ^ 31) (hmax : nhsize ≤ 2 ^ MAXBITS)
    (hroom : Fits num t nasize nhsize) :
    ∃ bound, ∀ n, bound ≤ n → ∃ u, t.resize num n nasize nhsize = some u ∧ Sound num u ∧
      u.sizearray = nasize ∧ u.sizenode = roomOf nhsize ∧
      (∀ k, ∃ r, t.get num n k = some r ∧ u.get num n k = some r) ∧
      ((∃ x, x < u.sizenode ∧ (u.node x).key = none) →
        (∃ i, u.getfreepos.1 = some i ∧ (u.node i).key = none) ∧
        ∀ (k : Key N) (_ : V), (∀ x, (u.node x).key ≠ some k) →
          arraySlot num u.sizearray k = none → ∃ i w, u.newkey num n k = some (i, w)) := by
  refine ⟨max (roomOf nhsize + 1) t.sizenode, fun n hn => ?_⟩
  have hnroom : roomOf nhsize < n := (Nat.max_le.mp hn).1
  obtain ⟨u, hrun, hu⟩ := h.resize hasize hmax hroom hnroom
  have hnu : u.sizenode ≤ n := hu.sizenode ▸ Nat.le_of_lt hnroom
  obtain ⟨rest, hrehashed⟩ := hu.rehashed
  refine ⟨u, hrun, hu.sound, hu.sizearray, hu.sizenode, fun k => ?_, fun hfree => ⟨?_, ?_⟩⟩
  · obtain ⟨r, hr, hiff⟩ := h.get (Nat.max_le.mp hn).2 k
    obtain ⟨r', hr', hiff'⟩ := hu.sound.get hnu k
    have heq : r' = r := Option.ext fun v => (hiff' v).trans ((hu.held k v).trans (hiff v).symm)
    exact ⟨r, hr, heq ▸ hr'⟩
  · exact hu.sound.getfreepos hrehashed.linking.real hfree
  · intro k v hnew hslot
    obtain ⟨i, w, hnewkey, -⟩ := hrehashed.newkey hnu hnew hslot hfree v
    exact ⟨i, w, hnewkey⟩

end Resize

/-! ### A table with both parts -/

/-- Numbers that are integers. -/
def integers : Numbers Int where
  isZero n := n == 0
  word n := n.toNat % 2 ^ 32
  toInt n := some n
  ofInt k := k
  toInt_ofInt _ _ _ := rfl
  ofInt_toInt _ _ h := (Option.some.inj h).symm

/-- `{ 5, [true] = 7 }`. -/
def mixed : Table Int Nat where
  node i := if i = 0 then { key := some (.boolean true), val := some 7 } else {}
  lsizenode := 0
  dummy := false
  lastfree := 0
  array i := if i = 0 then some 5 else none
  sizearray := 1

/-- The table is as it should be. -/
theorem mixed_sound : Sound integers mixed := by
  have hzero : ∀ x, x < mixed.sizenode → x = 0 := fun x hx => Nat.lt_one_iff.mp hx
  refine ⟨fun hd => absurd hd (by decide), by decide, fun x hx hkey => ?_, fun x y hx hy _ _ => ?_,
    fun m hm => ?_, fun x k hx _ _ l _ => ?_, fun x k hx hk _ => ?_, fun _ x hx hkey => ?_, fun x hx => ?_⟩
  · rw [hzero x hx] at hkey
    cases hkey
  · rw [hzero x hx, hzero y hy]
  · rw [hzero m hm]
    exact ⟨[], ⟨rfl, trivial⟩, fun _ hx => absurd hx List.not_mem_nil⟩
  · have hmain : mainposition integers mixed.sizenode k = 0 :=
      Nat.lt_one_iff.mp (mainposition_lt mixed.lsizenode k)
    rw [hzero x hx, hmain]
    exact List.mem_cons_self
  · rw [hzero x hx] at hk
    obtain rfl := Option.some.inj hk
    rfl
  · rw [hzero x hx] at hkey
    cases hkey
  · exact if_neg (Nat.ne_of_gt hx)

theorem mixed_fits : Fits integers mixed 0 2 := by
  intro l hl hmem
  have hsub : l ⊆ [.number 1, .boolean true] := by
    intro k hk
    obtain ⟨⟨v, ⟨i, hi, -⟩ | ⟨x, hx, hkey, -⟩⟩, -⟩ := hmem k hk
    · obtain rfl : i = 0 := Nat.lt_one_iff.mp (arraySlot_lt hi)
      have hone : arraySlot integers mixed.sizearray (.number 1) = some 0 := rfl
      rw [arraySlot_inj hi hone]
      exact List.mem_cons_self
    · obtain rfl : x = 0 := Nat.lt_one_iff.mp hx
      obtain rfl := Option.some.inj hkey
      exact List.mem_cons_of_mem _ List.mem_cons_self
  exact (List.subperm_of_subset hl hsub).length_le

/-- The array part goes to a hash part of two nodes. -/
theorem resize_loses_nothing_mixed :
    ∃ n u, mixed.resize integers n 0 2 = some u ∧ Sound integers u ∧ u.sizearray = 0 := by
  obtain ⟨bound, hbound⟩ := resize_loses_nothing integers mixed 0 2 mixed_sound (by decide)
    (by decide) mixed_fits
  obtain ⟨u, hu, hsound, hsize, -⟩ := hbound bound (Nat.le_refl bound)
  exact ⟨bound, u, hu, hsound, hsize⟩

end Alcor.Proofs.Lua
