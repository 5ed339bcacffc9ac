import Alcor.Lib.Memory

/-!
# `Alcor.Lib.Cursor`: reading and writing an object front to back

C code that encodes or decodes a packet moves a pointer through an
object. `Writer` is such a pointer with the object it writes, `Reader`
one that only reads, with a flag for the errors met so far. An access
outside the object is `none`.

A pointer that is advanced by a length from outside may leave the
object, and a 32-bit pointer wraps around: `skip` computes modulo
`2 ^ 32`. The pointer is kept relative to the start of the object.

`Writer.wrote` is what a run of writes comes to. `put_eq` and
`skip_eq` turn single writes into it, and `wrote_wrote` joins two, so
that the bytes a whole encoder leaves are one list.

`Reads` is what a decoder of a fixed number of bytes comes to: it
needs these bytes, returns a function of them, and notes whether they
are right. The rules after it follow the ways decoders are put
together.
-/

set_option autoImplicit false

namespace Lib

/-! ### Writing -/

/-- An object, and the place in it where the next byte goes. -/
structure Writer where
  /-- The object. -/
  buf : Buf
  /-- Where the next byte goes. -/
  p : Nat

namespace Writer

/-- Write bytes, one after the other. -/
def put (w : Writer) (bs : List UInt8) : Option Writer :=
  (w.buf.put? w.p bs).map fun buf => ⟨buf, w.p + bs.length⟩

/-- Advance the pointer and leave the bytes as they are. -/
def skip (w : Writer) (n : Nat) : Writer := { w with p := u32 (w.p + n) }

/-- The writer behind the bytes `bs`, with these in the object. -/
def wrote (w : Writer) (bs : List UInt8) : Writer :=
  ⟨{ w.buf with mem := w.buf.mem.store w.p bs }, w.p + bs.length⟩

@[simp] theorem wrote_p (w : Writer) (bs : List UInt8) : (w.wrote bs).p = w.p + bs.length := rfl

@[simp] theorem wrote_size (w : Writer) (bs : List UInt8) :
    (w.wrote bs).buf.size = w.buf.size := rfl

@[simp] theorem wrote_nil (w : Writer) : w.wrote [] = w := by simp [wrote]

/-- Two runs of writes are one, with the bytes of both. -/
theorem wrote_wrote (w : Writer) (xs ys : List UInt8) :
    (w.wrote xs).wrote ys = w.wrote (xs ++ ys) := by
  simp [wrote, Mem.store_append, Nat.add_assoc]

theorem put_eq {w : Writer} {bs : List UInt8} (h : w.p + bs.length ≤ w.buf.size) :
    w.put bs = some (w.wrote bs) := by
  rw [put, Buf.put?_of_le h]
  rfl

/-- Inside an object below `2 ^ 32`, leaving bytes as they are writes them again. -/
theorem skip_eq {w : Writer} {n : Nat} (h : w.p + n ≤ w.buf.size) (hsize : w.buf.size < 2 ^ 32) :
    w.skip n = w.wrote (w.buf.mem.read w.p n) := by
  have hself : w.buf.mem.Holds w.p (w.buf.mem.read w.p n) := by
    rw [Mem.Holds, Mem.length_read]
  simp [skip, wrote, Mem.store_eq_self hself, u32_of_lt (show w.p + n < 2 ^ 32 by omega)]

end Writer

/-! ### Reading -/

/-- The place in an object where the next byte is read, and whether an error was met before. -/
structure Reader where
  /-- Where the next byte is read. -/
  p : Nat
  /-- An error was met. -/
  err : Bool
deriving DecidableEq

namespace Reader

/-- Read the next `n` bytes, `none` if one of them is outside the object. -/
def take (b : Buf) (n : Nat) (r : Reader) : Option (List UInt8 × Reader) :=
  if r.p + n ≤ b.size then some (b.mem.read r.p n, { r with p := r.p + n }) else none

/-- Read one byte that has to be `x`, and note an error if it is not. -/
def expect (b : Buf) (x : UInt8) (r : Reader) : Option Reader :=
  (b.get? r.p).map fun y => ⟨r.p + 1, r.err || y != x⟩

/-- Advance the pointer. -/
def skip (n : Nat) (r : Reader) : Reader := { r with p := u32 (r.p + n) }

section Congr
variable {b b' : Buf} (hsize : b.size = b'.size) (h : Mem.Agree b.mem b'.mem 0 b.size)
include hsize h

/-- What is read does not depend on what is outside the object. -/
theorem take_congr : take b = take b' := by
  funext n r
  rw [take, take, ← hsize]
  split
  · next hle => rw [h.read_eq r.p n (Nat.zero_le _) hle]
  · rfl

theorem expect_congr : expect b = expect b' := by
  funext x r
  rw [expect, expect, Buf.get?, Buf.get?, ← hsize]
  split
  · next hlt => rw [h r.p (Nat.zero_le _) hlt]
  · rfl

end Congr

/-- The decoder `f` reads `n` bytes. At `a`, it returns `val a`, and `ok a` says that the bytes it
checks are right. -/
def Reads {α : Type} (b : Buf) (n : Nat) (val : Nat → α) (ok : Nat → Bool)
    (f : Reader → Option (α × Reader)) : Prop :=
  ∀ r, f r = if r.p + n ≤ b.size then some (val r.p, ⟨r.p + n, r.err || !ok r.p⟩) else none

section Rules

variable {α β : Type} {b : Buf} {n : Nat} {val : Nat → α} {ok : Nat → Bool}
  {f : Reader → Option (α × Reader)}

theorem reads_take (b : Buf) (n : Nat) :
    Reads b n (fun a => b.mem.read a n) (fun _ => true) (take b n) := by
  intro r
  simp [take]

/-- A byte that has to be `x`, as a decoder. -/
theorem reads_expect (b : Buf) (x : UInt8) :
    Reads b 1 (fun _ => ()) (fun a => b.mem a == x)
      (fun r => (r.expect b x).map fun r => ((), r)) := by
  intro r
  show (r.expect b x).map _ = _
  by_cases hp : r.p < b.size
  · rw [Reader.expect, Buf.get?_of_lt hp, if_pos (show r.p + 1 ≤ b.size from hp)]
    rfl
  · rw [Reader.expect, Buf.get?, if_neg hp, if_neg (show ¬ r.p + 1 ≤ b.size from hp)]
    rfl

/-- A decoder behind a byte that has to be `x`: one byte more is
needed, and the whole is right if this byte is `x` and the rest is
right. -/
theorem Reads.expect (h : Reads b n val ok f) (x : UInt8) :
    Reads b (n + 1) (fun a => val (a + 1)) (fun a => b.mem a == x && ok (a + 1))
      (fun r => (r.expect b x).bind f) := by
  intro r
  have hend : r.p + 1 + n = r.p + (n + 1) := by omega
  show (r.expect b x).bind f = _
  by_cases hp : r.p < b.size
  · rw [Reader.expect, Buf.get?_of_lt hp, Option.map_some, Option.bind_some, h]
    simp only [hend, Bool.not_and, Bool.or_assoc]
    rfl
  · rw [Reader.expect, Buf.get?, if_neg hp, Option.map_none, Option.bind_none,
      if_neg (by omega)]

/-- A decoder whose value is put through `g`. -/
theorem Reads.map (h : Reads b n val ok f) (g : α → β) :
    Reads b n (fun a => g (val a)) ok (fun r => (f r).map fun v => (g v.1, v.2)) := by
  intro r
  show (f r).map _ = _
  rw [h r]
  split <;> rfl

/-- A decoder behind a byte that has to be `x`, and what is done with its value and the reader. -/
theorem Reads.expect_map (h : Reads b n val ok f) (x : UInt8) (r : Reader)
    (g : α × Reader → β) :
    ((r.expect b x).bind fun r => (f r).map g)
      = if r.p + (n + 1) ≤ b.size then
          some (g (val (r.p + 1), ⟨r.p + (n + 1), r.err || !(b.mem r.p == x && ok (r.p + 1))⟩))
        else none := by
  have hmap : ((r.expect b x).bind fun r => (f r).map g) = ((r.expect b x).bind f).map g :=
    Option.map_bind.symm
  refine hmap.trans ((congrArg (Option.map g) (h.expect x r)).trans ?_)
  split <;> rfl

theorem Reads.congr (h : Reads b n val ok f) {val' : Nat → α} {ok' : Nat → Bool}
    (hval : ∀ a, val a = val' a) (hok : ∀ a, ok a = ok' a) : Reads b n val' ok' f := by
  intro r
  rw [h r, hval, hok]

/-- Inside an object below `2 ^ 32` the pointer does not wrap around. -/
theorem Reads.eq_u32 (h : Reads b n val ok f) (hsize : b.size < 2 ^ 32) (r : Reader) :
    f r = if r.p + n ≤ b.size then some (val r.p, ⟨u32 (r.p + n), r.err || !ok r.p⟩)
      else none := by
  rw [h r]
  split
  · rw [u32_of_lt (by omega)]
  · rfl

end Rules

end Reader

end Lib
