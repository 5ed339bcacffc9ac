import Alcor.Proofs.Lua.Linking
import Mathlib.Logic.Equiv.Basic

/-!
# `Alcor.Proofs.Lua.Entries`: entries, and what a lookup finds

`Sound` is the invariant of a table between two operations.

* `Held.moved`: the entries stay when the nodes that have them are
  exchanged.
* `arraySlot_inj`, `arraySlot_lt` and `arraySlot_ofInt`: which keys belong
  to the array part.
* `findNode_spec` and `Sound.get`: a lookup finds the value of a key in
  the array part or in the chain of its main position.
-/

set_option autoImplicit false

namespace Alcor.Proofs.Lua

open Alcor.Lua
open Lib (Chain)

variable {size i : Nat}
variable {N V : Type} {num : Numbers N} {t u : Table N V} {live live' : Nat → Prop}
variable {k : Key N}

/-- One of the nodes has the entry. -/
def At (t : Table N V) (live : Nat → Prop) (x : Nat) (k : Key N) (v : V) : Prop :=
  live x ∧ (t.node x).key = some k ∧ (t.node x).val = some v

/-- The key has the value, in the array part or in one of the nodes. -/
def Held (num : Numbers N) (t : Table N V) (live : Nat → Prop) (k : Key N) (v : V) : Prop :=
  (∃ i, arraySlot num t.sizearray k = some i ∧ t.array i = some v) ∨ ∃ x, At t live x k v

/-- No key has two places. -/
structure Single (num : Numbers N) (t : Table N V) (live : Nat → Prop) : Prop where
  distinct : ∀ x y k v w, At t live x k v → At t live y k w → x = y
  apart : ∀ x k v i, At t live x k v → arraySlot num t.sizearray k = some i → t.array i = none

/-- The entries are in other nodes. -/
theorem Held.moved (σ : Equiv.Perm Nat)
    (hat : ∀ x k v, At u live' x k v ↔ At t live (σ x) k v) (harray : u.array = t.array)
    (hsize : u.sizearray = t.sizearray) (k : Key N) (v : V) :
    Held num u live' k v ↔ Held num t live k v := by
  unfold Held
  rw [harray, hsize]
  refine or_congr Iff.rfl ⟨?_, ?_⟩
  · rintro ⟨x, hx⟩
    exact ⟨σ x, (hat x k v).mp hx⟩
  · rintro ⟨x, hx⟩
    refine ⟨σ.symm x, (hat _ k v).mpr ?_⟩
    rw [Equiv.apply_symm_apply]
    exact hx

theorem Single.moved (h : Single num t live) (σ : Equiv.Perm Nat)
    (hat : ∀ x k v, At u live' x k v ↔ At t live (σ x) k v) (harray : u.array = t.array)
    (hsize : u.sizearray = t.sizearray) : Single num u live' := by
  refine ⟨fun x y k v w hx hy => ?_, fun x k v i hx hi => ?_⟩
  · exact σ.injective (h.distinct _ _ k v w ((hat x k v).mp hx) ((hat y k w).mp hy))
  · rw [harray]
    exact h.apart (σ x) k v i ((hat x k v).mp hx) (hsize ▸ hi)

/-- An index of the array part belongs to one key. -/
theorem arraySlot_inj {k' : Key N} (h : arraySlot num size k = some i)
    (h' : arraySlot num size k' = some i) : k = k' := by
  have hof : ∀ {k : Key N}, arraySlot num size k = some i →
      k = .number (num.ofInt ((i : Int) + 1)) := by
    intro k hk
    cases k with
    | number n =>
      simp only [arraySlot] at hk
      split at hk
      · next z hz =>
        split at hk
        · next hrange =>
          have hi := Option.some.inj hk
          have hzi : z = (i : Int) + 1 := by omega
          rw [← hzi, num.ofInt_toInt n z hz]
        · cases hk
      · cases hk
    | string address hash => cases hk
    | boolean b => cases hk
    | pointer type p => cases hk
    | object p => cases hk
  rw [hof h, hof h']

theorem arraySlot_lt (h : arraySlot num size k = some i) : i < size := by
  cases k with
  | number n =>
    simp only [arraySlot] at h
    split at h
    · split at h
      · have hi := Option.some.inj h
        omega
      · cases h
    · cases h
  | string address hash => cases h
  | boolean b => cases h
  | pointer type p => cases h
  | object p => cases h

/-- The index of a key does not depend on the size. -/
theorem arraySlot_of_lt {size' : Nat} (h : arraySlot num size k = some i) (hlt : i < size') :
    arraySlot num size' k = some i := by
  cases k with
  | number n =>
    simp only [arraySlot] at h ⊢
    split at h
    · next z hz =>
      split at h
      · next hrange =>
        have hi := Option.some.inj h
        rw [if_pos (by omega)]
        exact h
      · cases h
    · cases h
  | string address hash => cases h
  | boolean b => cases h
  | pointer type p => cases h
  | object p => cases h

theorem arraySlot_ofInt (hi : i < size) (hsize : size < 2 ^ 31) :
    arraySlot num size (.number (num.ofInt ((i : Int) + 1))) = some i := by
  simp only [arraySlot]
  rw [num.toInt_ofInt _ (by omega) (by omega)]
  simp only
  rw [if_pos (by omega)]
  congr 1
  omega

/-! ### The invariant of a table -/

/-- The invariant of the tables between two operations. -/
structure Sound (num : Numbers N) (t : Table N V) : Prop where
  /-- `dummynode` is one node, and it is empty. -/
  dummy : t.dummy = true → t.lsizenode = 0 ∧ t.node 0 = {}
  sizearray_lt : t.sizearray < 2 ^ 31
  keyed : ∀ x, x < t.sizenode → (t.node x).key = none → (t.node x).val = none
  /-- No key appears twice. -/
  distinct : ∀ x y, x < t.sizenode → y < t.sizenode → (t.node x).key ≠ none →
    (t.node x).key = (t.node y).key → x = y
  /-- Every chain comes to an end. -/
  ends : ∀ m, m < t.sizenode → ∃ l, Chain (nextOf t) (m :: l) ∧ ∀ x ∈ l, x < t.sizenode
  /-- A node with a value is reachable from the main position of its key. -/
  reach : ∀ x k, x < t.sizenode → (t.node x).key = some k → (t.node x).val ≠ none →
    ∀ l, Chain (nextOf t) (mainposition num t.sizenode k :: l) →
      x ∈ mainposition num t.sizenode k :: l
  /-- A key of the array part has no value in the hash part. -/
  array : ∀ x k, x < t.sizenode → (t.node x).key = some k → (t.node x).val ≠ none →
    arraySlot num t.sizearray k = none
  /-- Every free node is below `lastfree`. -/
  free : t.dummy = false → ∀ x, x < t.sizenode → (t.node x).key = none → x < t.lastfree
  /-- The vector has no other nodes. -/
  beyond : ∀ x, t.sizenode ≤ x → t.node x = {}

/-- The key has the value. -/
def HasEntry (num : Numbers N) (t : Table N V) : Key N → V → Prop :=
  Held num t (· < t.sizenode)

theorem Sound.single (h : Sound num t) : Single num t (· < t.sizenode) := by
  refine ⟨fun x y k v w hx hy => ?_, fun x k v i hx hi => ?_⟩
  · exact h.distinct x y hx.1 hy.1 (by rw [hx.2.1]; exact Option.some_ne_none k)
      (hx.2.1.trans hy.2.1.symm)
  · have hnone := h.array x k hx.1 hx.2.1 (by rw [hx.2.2]; exact Option.some_ne_none v)
    rw [hi] at hnone
    cases hnone

section Lookup

variable [DecidableEq N]

/-- The search along a chain. -/
theorem findNode_spec (k : Key N) :
    ∀ (l : List Nat) (s n : Nat), Chain (nextOf t) (s :: l) → l.length < n →
      ∃ r, t.findNode k n s = some r ∧
        (∀ x, r = some x → x ∈ s :: l ∧ (t.node x).key = some k) ∧
        (r = none → ∀ x ∈ s :: l, (t.node x).key ≠ some k) := by
  intro l
  induction l with
  | nil =>
    intro s n h hn
    cases n with
    | zero => cases hn
    | succ n =>
      have hnext : (t.node s).next = none := h.1
      by_cases hkey : (t.node s).key = some k
      · refine ⟨some s, by simp [Table.findNode, hkey], fun x hx => ?_, fun hr => (by cases hr)⟩
        cases hx
        exact ⟨List.mem_cons_self, hkey⟩
      · refine ⟨none, by simp [Table.findNode, hkey, hnext], fun x hx => (by cases hx),
          fun _ x hx => ?_⟩
        rw [List.mem_singleton.mp hx]
        exact hkey
  | cons y l ih =>
    intro s n h hn
    cases n with
    | zero => cases hn
    | succ n =>
      have hnext : (t.node s).next = some y := h.1
      by_cases hkey : (t.node s).key = some k
      · refine ⟨some s, by simp [Table.findNode, hkey], fun x hx => ?_, fun hr => (by cases hr)⟩
        cases hx
        exact ⟨List.mem_cons_self, hkey⟩
      · obtain ⟨r, hr, hsome, hnone⟩ := ih y n h.2 (Nat.lt_of_succ_lt_succ hn)
        refine ⟨r, by simp [Table.findNode, hkey, hnext, hr], fun x hx => ?_, fun hx x hmem => ?_⟩
        · exact ⟨List.mem_cons_of_mem _ (hsome x hx).1, (hsome x hx).2⟩
        · rcases List.mem_cons.mp hmem with rfl | hmem
          · exact hkey
          · exact hnone hx x hmem

omit [DecidableEq N] in
theorem length_le_of_chain {m : Nat} {l : List Nat} (h : Chain (nextOf t) (m :: l))
    (hm : m < size) (hl : ∀ x ∈ l, x < size) : l.length < size := by
  have hsub : m :: l ⊆ List.range size := by
    intro x hx
    rcases List.mem_cons.mp hx with rfl | hx
    · exact List.mem_range.mpr hm
    · exact List.mem_range.mpr (hl x hx)
  have hle := (List.subperm_of_subset h.nodup hsub).length_le
  rw [List.length_range] at hle
  exact hle

/-- A lookup finds the value of the key. -/
theorem Sound.get (h : Sound num t) {n : Nat} (hn : t.sizenode ≤ n) (k : Key N) :
    ∃ r, t.get num n k = some r ∧ ∀ v, r = some v ↔ HasEntry num t k v := by
  unfold Table.get
  cases hslot : arraySlot num t.sizearray k with
  | some i =>
    refine ⟨t.array i, rfl, fun v => ⟨fun hv => .inl ⟨i, hslot, hv⟩, ?_⟩⟩
    rintro (⟨j, hj, hv⟩ | ⟨x, hlt, hkey, hval⟩)
    · rw [hslot] at hj
      cases hj
      exact hv
    · have hnone := h.array x k hlt hkey (by rw [hval]; exact Option.some_ne_none v)
      rw [hslot] at hnone
      cases hnone
  | none =>
    have hmain : mainposition num t.sizenode k < t.sizenode := mainposition_lt _ k
    obtain ⟨l, hchain, hl⟩ := h.ends _ hmain
    obtain ⟨r, hr, hsome, hnone⟩ := findNode_spec k l _ n hchain
      (Nat.lt_of_lt_of_le (length_le_of_chain hchain hmain hl) hn)
    have hentry : ∀ v, HasEntry num t k v ↔ ∃ x, At t (· < t.sizenode) x k v := fun v => by
      refine or_iff_right ?_
      rintro ⟨i, hi, -⟩
      rw [hslot] at hi
      cases hi
    refine ⟨r.bind fun x => (t.node x).val, by simp [hr], fun v => ?_⟩
    rw [hentry]
    cases r with
    | none =>
      refine ⟨fun hv => (by cases hv), ?_⟩
      rintro ⟨x, hlt, hkey, hval⟩
      have hmem := h.reach x k hlt hkey (by rw [hval]; exact Option.some_ne_none v) l hchain
      exact absurd hkey (hnone rfl x hmem)
    | some y =>
      obtain ⟨hmem, hykey⟩ := hsome y rfl
      have hylt : y < t.sizenode := by
        rcases List.mem_cons.mp hmem with heq | hmem
        · rw [heq]
          exact hmain
        · exact hl y hmem
      constructor
      · exact fun hv => ⟨y, hylt, hykey, hv⟩
      · rintro ⟨x, hlt, hkey, hval⟩
        have hyx := h.distinct y x hylt hlt (by rw [hykey]; exact Option.some_ne_none k)
          (hykey.trans hkey.symm)
        show (t.node y).val = some v
        rw [hyx]
        exact hval

end Lookup

end Alcor.Proofs.Lua
