import Mathlib.Algebra.Group.Nat.Defs
import Mathlib.Data.List.Basic
import Mathlib.Algebra.Order.Group.Nat

/-!
# `Alcor.Lib.Memory`: memory objects, strings and fields

What a C program sees of its memory: numbers of 32 bits and C strings,
byte objects that are loaded from and stored to, and the fields of an
object.

* `Mem` is a byte for every address. `Mem.read` and `Mem.store` are runs
  of bytes, `Holds` says which bytes stand at an address, and `Agree` that
  two memories have the same bytes in a range. The frame lemmas
  (`agree_store_below`, `agree_store_above`) say what a store leaves.
* `leBytes` and `leVal` are words of any width, with the round trips
  `leVal_leBytes` and `leBytes_leVal`; `bytesIn` and `valIn` are the same
  in either byte order.
* `Buf` is an object of known size, whose accesses fail outside of it.
* `load_put` and `load_put_of_disjoint` are the rules of fields.
-/

set_option autoImplicit false

/-!
## C strings and 32-bit unsigned arithmetic

`CStr` is the text of a C string: its bytes without the terminator,
so none of them is zero. `strncasecmpEq` is the test
`strncasecmp( s1, s2, n ) == 0` in the C locale, and `lower` is the
case folding behind it.

Unsigned 32-bit values are natural numbers below `2 ^ 32`; `u32`
reduces a result and `sub32` is the subtraction.
-/

namespace Lib

/-! ### 32-bit arithmetic -/

/-- A result as an unsigned 32-bit value. -/
def u32 (n : Nat) : Nat := n % 2 ^ 32

/-- Unsigned 32-bit subtraction. -/
def sub32 (a b : Nat) : Nat := u32 (a + (2 ^ 32 - b))

@[simp] theorem u32_of_lt {n : Nat} (h : n < 2 ^ 32) : u32 n = n := Nat.mod_eq_of_lt h

theorem u32_lt (n : Nat) : u32 n < 2 ^ 32 := Nat.mod_lt _ (by decide)

theorem sub32_of_le {a b : Nat} (hb : b ≤ a) (ha : a < 2 ^ 32) : sub32 a b = a - b := by
  unfold sub32 u32
  omega

/-! ### C strings -/

/-- The text of a C string: its bytes up to the terminator, none of them zero. -/
structure CStr where
  /-- The bytes before the terminator. -/
  bytes : List UInt8
  /-- No byte before the terminator is zero. -/
  nulFree : 0 ∉ bytes
deriving DecidableEq

/-- The string of one byte, which is empty for a NUL. -/
def CStr.ofByte (b : UInt8) : CStr :=
  if h : b = 0 then ⟨[], List.not_mem_nil⟩
  else ⟨[b], fun hmem => h (List.mem_singleton.mp hmem).symm⟩

/-- `tolower` in the C locale. -/
def tolower (c : UInt8) : UInt8 := if 65 ≤ c ∧ c ≤ 90 then c + 32 else c

/-- A text with its letters in lower case. -/
def lower (s : List UInt8) : List UInt8 := s.map tolower

/-- `strncasecmp( s1, s2, n ) == 0`. -/
def strncasecmpEq (s1 s2 : List UInt8) (n : Nat) : Bool := lower (s1.take n) == lower (s2.take n)

@[simp] theorem length_lower (s : List UInt8) : (lower s).length = s.length := by
  simp [lower]

/-- Only a byte itself has a byte below the letters as its lower case. -/
theorem eq_of_tolower {c d : UInt8} (hd : d.toNat < 65) (h : tolower c = d) : c = d := by
  unfold tolower at h
  split at h
  · rename_i hc
    obtain ⟨hlo, hhi⟩ := hc
    rw [UInt8.le_iff_toNat_le] at hlo hhi
    rw [← UInt8.toNat_inj, UInt8.toNat_add] at h
    simp only [UInt8.reduceToNat] at hlo hhi h
    omega
  · exact h

end Lib

/-!
## Byte memories and little-endian words

A memory is a function from addresses to bytes. `store` overwrites a
run of addresses with a list of bytes, `read` reads a run back, and
`Holds m a bs` says that `bs` stands at address `a`. The lemmas say
when a store is seen by a later read (`holds_store_self`) and when it
is not (`read_store_of_disjoint`, `Agree.holds`), so that a proof
about a byte layout never looks inside `store`.

`leBytes w n` is the `w`-byte little-endian form of `n` and `leVal`
reads one back. `leVal_leBytes` and `leBytes_leVal` are the two round
trips.

`Buf` adds a size: the bytes of one object in memory. Its accesses
are partial, and `none` is an access outside the object.
-/

namespace Lib

variable {bs : List UInt8} {a n lo hi p : Nat}

/-! ### Memories -/

/-- A memory: one byte for every address. -/
abbrev Mem : Type := Nat → UInt8

variable {m m' : Mem}

namespace Mem

/-- The memory after the bytes `bs` are stored from address `a` on. -/
def store (m : Mem) (a : Nat) (bs : List UInt8) : Mem :=
  fun x => if a ≤ x then bs.getD (x - a) (m x) else m x

/-- The `n` bytes from address `a` on. -/
def read (m : Mem) (a : Nat) : Nat → List UInt8
  | 0     => []
  | n + 1 => m a :: read m (a + 1) n

/-- The bytes `bs` stand at address `a`. -/
def Holds (m : Mem) (a : Nat) (bs : List UInt8) : Prop :=
  m.read a bs.length = bs

/-- The two memories agree on the addresses from `lo` up to `hi`. -/
def Agree (m m' : Mem) (lo hi : Nat) : Prop :=
  ∀ x, lo ≤ x → x < hi → m x = m' x

@[simp] theorem read_zero (m : Mem) (a : Nat) : m.read a 0 = [] := rfl

theorem read_succ (m : Mem) (a n : Nat) : m.read a (n + 1) = m a :: m.read (a + 1) n := rfl

@[simp] theorem length_read (m : Mem) (a n : Nat) : (m.read a n).length = n := by
  induction n generalizing a with
  | zero => rfl
  | succ n ih => simp [read_succ, ih]

/-- A read of `k + n` bytes is the read of the first `k` and then of the next `n`. -/
theorem read_add (m : Mem) (a k n : Nat) :
    m.read a (k + n) = m.read a k ++ m.read (a + k) n := by
  induction k generalizing a with
  | zero => simp
  | succ k ih =>
    rw [Nat.succ_add, read_succ, read_succ, ih (a + 1), List.cons_append]
    congr 3
    omega

theorem getElem?_read (m : Mem) (a n k : Nat) :
    (m.read a n)[k]? = if k < n then some (m (a + k)) else none := by
  induction n generalizing a k with
  | zero => simp
  | succ n ih =>
    cases k with
    | zero => simp [read_succ]
    | succ k =>
      rw [read_succ, List.getElem?_cons_succ, ih]
      have h : a + 1 + k = a + (k + 1) := by omega
      simp [h]

/-- A read only looks at its own addresses. -/
theorem Agree.read_eq (h : Agree m m' lo hi) (a n : Nat) (hlo : lo ≤ a) (hhi : a + n ≤ hi) :
    m.read a n = m'.read a n := by
  induction n generalizing a with
  | zero => rfl
  | succ n ih =>
    rw [read_succ, read_succ, h a hlo (by omega), ih (a + 1) (by omega) (by omega)]

theorem Agree.holds (h : Agree m m' lo hi) (hlo : lo ≤ a) (hhi : a + bs.length ≤ hi)
    (hm : m.Holds a bs) : m'.Holds a bs := by
  unfold Holds at hm ⊢
  rw [← h.read_eq a bs.length hlo hhi, hm]

theorem Agree.mono {lo' hi' : Nat} (h : Agree m m' lo hi) (hlo : lo ≤ lo') (hhi : hi' ≤ hi) :
    Agree m m' lo' hi' :=
  fun x h1 h2 => h x (by omega) (by omega)

@[simp] theorem holds_nil (m : Mem) (a : Nat) : m.Holds a [] := rfl

@[simp] theorem holds_cons (m : Mem) (a : Nat) (b : UInt8) (bs : List UInt8) :
    m.Holds a (b :: bs) ↔ m a = b ∧ m.Holds (a + 1) bs := by
  unfold Holds
  rw [List.length_cons, read_succ, List.cons.injEq]

theorem holds_append (m : Mem) (a : Nat) (xs ys : List UInt8) :
    m.Holds a (xs ++ ys) ↔ m.Holds a xs ∧ m.Holds (a + xs.length) ys := by
  unfold Holds
  rw [List.length_append, read_add]
  constructor
  · intro h
    exact List.append_inj h (by simp)
  · rintro ⟨hx, hy⟩
    rw [hx, hy]

/-- What a memory holds, byte by byte. -/
theorem holds_iff_getElem (m : Mem) (a : Nat) (bs : List UInt8) :
    m.Holds a bs ↔ ∀ k (hk : k < bs.length), m (a + k) = bs.get ⟨k, hk⟩ := by
  induction bs generalizing a with
  | nil => simp
  | cons b bs ih =>
    rw [holds_cons, ih]
    constructor
    · rintro ⟨hb, hbs⟩ k hk
      cases k with
      | zero => exact hb
      | succ k =>
        have := hbs k (by simpa using hk)
        rw [show a + (k + 1) = a + 1 + k by omega]
        exact this
    · intro h
      refine ⟨h 0 (by simp), fun k hk => ?_⟩
      have := h (k + 1) (by simpa using hk)
      rw [show a + 1 + k = a + (k + 1) by omega]
      exact this

theorem Holds.read_take (h : m.Holds a bs) (hn : n ≤ bs.length) : m.read a n = bs.take n := by
  have hsplit := read_add m a n (bs.length - n)
  rw [show n + (bs.length - n) = bs.length by omega, show m.read a bs.length = bs from h] at hsplit
  rw [hsplit, List.take_left' (length_read m a n)]

/-- The first bytes of what is read are a shorter read. -/
theorem take_read (m : Mem) (a : Nat) {k : Nat} (h : k ≤ n) : (m.read a n).take k = m.read a k := by
  have hsplit := read_add m a k (n - k)
  rw [Nat.add_sub_cancel' h] at hsplit
  rw [hsplit, List.take_left' (length_read m a k)]

theorem Holds.take (h : m.Holds a bs) (n : Nat) : m.Holds a (bs.take n) :=
  ((holds_append m a (bs.take n) (bs.drop n)).mp (by rwa [List.take_append_drop])).1

/-- A part of what a memory holds stands at the address that is as
much further. -/
theorem Holds.drop (h : m.Holds a bs) (hn : n ≤ bs.length) : m.Holds (a + n) (bs.drop n) := by
  have hsplit := (holds_append m a (bs.take n) (bs.drop n)).mp (by rwa [List.take_append_drop])
  have h2 := hsplit.2
  rwa [List.length_take, Nat.min_eq_left hn] at h2

/-! ### Stores -/

theorem store_of_lt (m : Mem) (a : Nat) (bs : List UInt8) {x : Nat} (h : x < a) :
    m.store a bs x = m x := by
  simp [store, show ¬ a ≤ x by omega]

theorem store_of_ge (m : Mem) (a : Nat) (bs : List UInt8) {x : Nat} (h : a + bs.length ≤ x) :
    m.store a bs x = m x := by
  unfold store
  split
  · rw [List.getD_eq_getElem?_getD, List.getElem?_eq_none (by omega)]
    rfl
  · rfl

theorem store_of_mem (m : Mem) (a : Nat) (bs : List UInt8) {k : Nat} (hk : k < bs.length) :
    m.store a bs (a + k) = bs.get ⟨k, hk⟩ := by
  simp [store, List.getElem?_eq_getElem hk]

@[simp] theorem store_nil (m : Mem) (a : Nat) : m.store a [] = m := by
  funext x
  simp [store]

/-- The stored bytes are read back. -/
theorem holds_store_self (m : Mem) (a : Nat) (bs : List UInt8) : (m.store a bs).Holds a bs := by
  rw [holds_iff_getElem]
  exact fun k hk => store_of_mem m a bs hk

/-- A store changes nothing below its first address. -/
theorem agree_store_below (m : Mem) (a : Nat) (bs : List UInt8) :
    Agree m (m.store a bs) 0 a :=
  fun _ _ h => (store_of_lt m a bs h).symm

/-- A store changes nothing from the end of its bytes on. -/
theorem agree_store_above (m : Mem) (a hi : Nat) (bs : List UInt8) :
    Agree m (m.store a bs) (a + bs.length) hi :=
  fun _ h _ => (store_of_ge m a bs h).symm

/-- A store into the middle of what a memory holds. -/
theorem holds_store_middle {cs : List UInt8} (h : m.Holds a cs) (hn : n + bs.length ≤ cs.length) :
    (m.store (a + n) bs).Holds a (cs.take n ++ bs ++ cs.drop (n + bs.length)) := by
  have hlen : (cs.take n).length = n := by
    rw [List.length_take]
    omega
  have hback : m.Holds (a + (n + bs.length)) (cs.drop (n + bs.length)) := h.drop hn
  rw [holds_append, holds_append, hlen]
  refine ⟨⟨?_, holds_store_self m (a + n) bs⟩, ?_⟩
  · exact (agree_store_below m (a + n) bs).holds (Nat.zero_le a) (by omega) (h.take n)
  · rw [List.length_append, hlen]
    exact (agree_store_above m (a + n) _ bs).holds (by omega) (Nat.le_refl _) hback

/-- Storing what already stands there changes nothing. -/
theorem store_eq_self (h : m.Holds a bs) : m.store a bs = m := by
  funext x
  by_cases hlt : x < a
  · exact store_of_lt m a bs hlt
  · by_cases hge : a + bs.length ≤ x
    · exact store_of_ge m a bs hge
    · obtain ⟨k, rfl⟩ := Nat.exists_eq_add_of_le (show a ≤ x by omega)
      have hk : k < bs.length := by omega
      rw [store_of_mem m a bs hk, (holds_iff_getElem m a bs).mp h k hk]

/-- Two stores one after the other, the second where the first ends, are one store. -/
theorem store_append (m : Mem) (a : Nat) (xs ys : List UInt8) :
    (m.store a xs).store (a + xs.length) ys = m.store a (xs ++ ys) := by
  funext x
  by_cases hlt : x < a
  · rw [store_of_lt _ _ _ (by omega), store_of_lt _ _ _ hlt, store_of_lt _ _ _ hlt]
  · obtain ⟨k, rfl⟩ := Nat.exists_eq_add_of_le (show a ≤ x by omega)
    by_cases hx : k < xs.length
    · rw [store_of_lt _ _ _ (by omega), store_of_mem _ _ _ hx,
        store_of_mem _ _ _ (by rw [List.length_append]; omega)]
      simp [List.getElem_append_left hx]
    · by_cases hy : k < xs.length + ys.length
      · have hk : a + k = a + xs.length + (k - xs.length) := by omega
        rw [store_of_mem m a (xs ++ ys) (by rw [List.length_append]; omega), hk,
          store_of_mem _ _ ys (k := k - xs.length) (by omega)]
        simp [List.getElem_append_right (show xs.length ≤ k by omega)]
      · rw [store_of_ge _ _ _ (by omega), store_of_ge _ _ _ (by omega),
          store_of_ge _ _ _ (by rw [List.length_append]; omega)]

end Mem

/-! ### Little-endian words -/

/-- The `w` little-endian bytes of `n`. -/
def leBytes : Nat → Nat → List UInt8
  | 0,     _ => []
  | w + 1, n => UInt8.ofNat n :: leBytes w (n / 256)

/-- The number a little-endian byte string stands for. -/
def leVal : List UInt8 → Nat
  | []      => 0
  | b :: bs => b.toNat + 256 * leVal bs

@[simp] theorem length_leBytes (w n : Nat) : (leBytes w n).length = w := by
  induction w generalizing n with
  | zero => rfl
  | succ w ih => simp [leBytes, ih]

/-- A word read back from its bytes, modulo the width. -/
theorem leVal_leBytes (w n : Nat) : leVal (leBytes w n) = n % 256 ^ w := by
  induction w generalizing n with
  | zero => simp [leBytes, leVal, Nat.mod_one]
  | succ w ih =>
    rw [leBytes, leVal, ih, UInt8.toNat_ofNat', Nat.pow_succ 256 w,
      Nat.mul_comm (256 ^ w) 256, Nat.mod_mul]

theorem leVal_lt (bs : List UInt8) : leVal bs < 256 ^ bs.length := by
  induction bs with
  | nil => simp [leVal]
  | cons b bs ih =>
    have hb : b.toNat < 256 := b.toNat_lt
    rw [leVal, List.length_cons, Nat.pow_succ]
    omega

/-- A byte string is the little-endian form of its own value. -/
theorem leBytes_leVal (bs : List UInt8) : leBytes bs.length (leVal bs) = bs := by
  induction bs with
  | nil => rfl
  | cons b bs ih =>
    have hb : b.toNat < 256 := b.toNat_lt
    have hdiv : (b.toNat + 256 * leVal bs) / 256 = leVal bs := by omega
    have hmod : UInt8.ofNat (b.toNat + 256 * leVal bs) = b := by
      rw [← UInt8.toNat_inj, UInt8.toNat_ofNat']
      omega
    rw [List.length_cons, leVal, leBytes, hdiv, hmod, ih]

/-- The `w` bytes of `n` in one of the two byte orders. -/
def bytesIn (little : Bool) (w n : Nat) : List UInt8 :=
  if little then leBytes w n else (leBytes w n).reverse

/-- The number that bytes in one of the two byte orders stand for. -/
def valIn (little : Bool) (bs : List UInt8) : Nat := leVal (if little then bs else bs.reverse)

@[simp] theorem length_bytesIn (little : Bool) (w n : Nat) : (bytesIn little w n).length = w := by
  cases little <;> simp [bytesIn]

/-- A word read back from its bytes, in the same order. -/
theorem valIn_bytesIn (little : Bool) (w n : Nat) :
    valIn little (bytesIn little w n) = n % 256 ^ w := by
  cases little <;> simp [valIn, bytesIn, leVal_leBytes]

/-- The other byte order is the reverse. -/
theorem bytesIn_reverse (little : Bool) (w n : Nat) :
    (bytesIn little w n).reverse = bytesIn (!little) w n := by
  cases little <;> simp [bytesIn]

/-! ### Objects with a size -/

/-- One object in memory: its bytes and how many there are. -/
structure Buf where
  /-- The contents; only the first `size` addresses belong to the object. -/
  mem : Mem
  /-- The number of bytes of the object. -/
  size : Nat

variable {b : Buf}

namespace Buf

/-- The byte at offset `p`, `none` outside the object. -/
def get? (b : Buf) (p : Nat) : Option UInt8 :=
  if p < b.size then some (b.mem p) else none

/-- The object after `bs` is stored at offset `p`, `none` when a byte falls outside. -/
def put? (b : Buf) (p : Nat) (bs : List UInt8) : Option Buf :=
  if p + bs.length ≤ b.size then some { b with mem := b.mem.store p bs } else none

@[simp] theorem get?_of_lt (h : p < b.size) : b.get? p = some (b.mem p) :=
  if_pos h

theorem put?_of_le (h : p + bs.length ≤ b.size) :
    b.put? p bs = some { b with mem := b.mem.store p bs } :=
  if_pos h

theorem put?_eq_none : b.put? p bs = none ↔ b.size < p + bs.length := by
  unfold put?
  split <;> simp <;> omega

end Buf

end Lib

/-!
## Numbers in memory, in either byte order

`load` and `put` access a number of `w` bytes. What was put is loaded
again (`load_put`), a number elsewhere stays (`load_put_of_disjoint`), and
`load_add` takes a number apart into the numbers that overlap with it, as
the members of an union do.
-/

namespace Lib.Mem

/-- The number of `w` bytes at the address. -/
def load (little : Bool) (m : Mem) (a w : Nat) : Nat := valIn little (m.read a w)

/-- The memory with a number of `w` bytes at the address. -/
def put (little : Bool) (m : Mem) (a w n : Nat) : Mem := m.store a (bytesIn little w n)

theorem leVal_append (xs ys : List UInt8) :
    leVal (xs ++ ys) = leVal xs + 256 ^ xs.length * leVal ys := by
  induction xs with
  | nil => rw [List.nil_append, List.length_nil, Nat.pow_zero, Nat.one_mul, leVal, Nat.zero_add]
  | cons x xs ih =>
    rw [List.cons_append, leVal, leVal, ih, List.length_cons, Nat.pow_succ', Nat.mul_add,
      Nat.mul_assoc, Nat.add_assoc]

variable (little : Bool) (m : Mem)

theorem load_lt (a w : Nat) : load little m a w < 256 ^ w := by
  have hlt := leVal_lt (if little then m.read a w else (m.read a w).reverse)
  cases little <;> simpa [load, valIn] using hlt

/-- A field that was stored is loaded, cut to its width. -/
theorem load_put (a w n : Nat) : load little (put little m a w n) a w = n % 256 ^ w := by
  have hread : (put little m a w n).read a w = bytesIn little w n := by
    have h := holds_store_self m a (bytesIn little w n)
    rwa [Holds, length_bytesIn] at h
  rw [load, hread, valIn_bytesIn]

/-- A field that does not overlap the one that is stored stays. -/
theorem load_put_of_disjoint {a w b v : Nat} (n : Nat) (h : a + w ≤ b ∨ b + v ≤ a) :
    load little (put little m b v n) a w = load little m a w := by
  have hagree : Agree m (put little m b v n) a (a + w) := by
    intro x hx hx'
    rcases h with h | h
    · exact (store_of_lt m b _ (by omega)).symm
    · exact (store_of_ge m b _ (by rw [length_bytesIn]; omega)).symm
  rw [load, load, hagree.read_eq a w (Nat.le_refl a) (Nat.le_refl _)]

/-- The first byte is the least significant one, or the most significant one. -/
theorem load_add (a k n : Nat) :
    load little m a (k + n) =
      if little then load little m a k + 256 ^ k * load little m (a + k) n
      else load little m (a + k) n + 256 ^ n * load little m a k := by
  rw [load, load, load, read_add]
  cases little with
  | true => simp [valIn, leVal_append]
  | false => simp [valIn, leVal_append, List.reverse_append]

end Lib.Mem
