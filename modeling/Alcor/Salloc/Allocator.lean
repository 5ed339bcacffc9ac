import Mathlib.Algebra.Group.Nat.Defs
import Alcor.Lib.Memory
import Alcor.Lib.Chain
import Alcor.Lib.Run

/-!
# `Alcor.Salloc.Allocator`: the simple allocator and its callers

The blocks of `src/salloc.c` and its calls, and the runs of a program
that uses them. The loops have a number of rounds here, and the proofs
show that it is enough.

* `sGetFreeBlock`, `sFreeBlock`, `sShrinkBlock`: the functions on blocks.
* `smalloc`, `sfree`, `srealloc`, `scalloc`: the interface.
* `Program`: a run, with the pointers that the program holds and what it
  expects behind them.
* `Sound`: the invariant of a run.
* `Program.Serves`, `Program.Met`: which sizes are served.
-/

set_option autoImplicit false

/-!
## The simple allocator

`src/salloc.c`. A block starts with a header of two words: the address
of the next block and of the one before, divided by 8. The first bit of
the first word says whether the block is taken; the same bit of the
second word has no meaning, and may be anything.

Addresses and sizes have 32 bits. Functions take the memory and return
it. `none` means that a loop over blocks does not end.
-/

namespace Alcor.Salloc

open Lib

def DYN_SIZE_MULT : Nat := 8
def DYN_SIZE_MULT_SHIFT : Nat := 3
def DYN_HEADER_SIZE : Nat := 8
def DYN_MIN_SPLIT_SIZE : Nat := 16

/-- `NULL`. -/
def NULL : Nat := 0

/-- A region of free RAM, with room for two guards and a block. -/
structure Region where
  /-- `platform_get_first_free_ram`. -/
  start : Nat
  /-- The distance to `platform_get_last_free_ram`. -/
  size : Nat
  start_ne : start ≠ NULL
  start_aligned : start % DYN_SIZE_MULT = 0
  size_aligned : size % DYN_SIZE_MULT = 0
  size_ge : 3 * DYN_SIZE_MULT ≤ size
  fits : start + size ≤ 2 ^ 32
  deriving DecidableEq

/-- A platform. Behind the last region `platform_get_first_free_ram` is `NULL`. -/
structure Platform where
  littleEndian : Bool
  regions : List Region
  disjoint : regions.Pairwise fun r r' =>
    r.start + r.size ≤ r'.start ∨ r'.start + r'.size ≤ r.start

/-- More rounds than there are blocks in the address space. -/
def ROUNDS : Nat := 2 ^ 32

variable (pf : Platform)

/-! ### Headers -/

/-- `*( u32* )a`. -/
def word (m : Mem) (a : Nat) : Nat := valIn pf.littleEndian (m.read a 4)

/-- `*( u32* )a = v`. -/
def setWord (m : Mem) (a v : Nat) : Mem := m.store a (bytesIn pf.littleEndian 4 v)

def sActSize (size : Nat) : Nat :=
  if size &&& (DYN_SIZE_MULT - 1) ≠ 0 then
    u32 (((size >>> DYN_SIZE_MULT_SHIFT) + 1) <<< DYN_SIZE_MULT_SHIFT)
  else size

def sGetNextBlock (m : Mem) (ptr : Nat) : Nat :=
  u32 ((word pf m ptr &&& 0x7FFFFFFF) <<< DYN_SIZE_MULT_SHIFT)

def sSetNextBlock (m : Mem) (ptr next : Nat) : Mem :=
  setWord pf m ptr ((word pf m ptr &&& 0x80000000) ||| (next >>> DYN_SIZE_MULT_SHIFT))

def sGetPrevBlock (m : Mem) (ptr : Nat) : Nat :=
  u32 ((word pf m (ptr + 4) &&& 0x7FFFFFFF) <<< DYN_SIZE_MULT_SHIFT)

def sSetPrevBlock (m : Mem) (ptr prev : Nat) : Mem :=
  setWord pf m (ptr + 4)
    ((word pf m (ptr + 4) &&& 0x80000000) ||| (prev >>> DYN_SIZE_MULT_SHIFT))

def sGetBlockSize (m : Mem) (ptr : Nat) : Nat :=
  let next := sGetNextBlock pf m ptr
  if next ≠ NULL then sub32 next ptr else 0

def sMarkBlockTaken (m : Mem) (ptr : Nat) : Mem := setWord pf m ptr (word pf m ptr ||| 0x80000000)

def sMarkBlockFree (m : Mem) (ptr : Nat) : Mem := setWord pf m ptr (word pf m ptr &&& 0x7FFFFFFF)

def sIsBlockFree (m : Mem) (ptr : Nat) : Bool := word pf m ptr &&& 0x80000000 == 0

def sCreateNewBlock (m : Mem) (ptr next prev : Nat) : Mem :=
  let m := setWord pf m ptr (next >>> DYN_SIZE_MULT_SHIFT)
  setWord pf m (ptr + 4) (prev >>> DYN_SIZE_MULT_SHIFT)

/-! ### Blocks -/

/-- Join a block with the free blocks around it. -/
def sCompactFree (m : Mem) (ptr : Nat) : Option Mem := do
  let m := sMarkBlockFree pf m ptr
  let temp1 ← walk (sIsBlockFree pf m) (sGetPrevBlock pf m) ROUNDS ptr
  let temp1 := sGetNextBlock pf m temp1
  let temp2 ← walk (sIsBlockFree pf m) (sGetNextBlock pf m) ROUNDS ptr
  if temp1 ≠ ptr ∨ sGetPrevBlock pf m temp2 ≠ ptr then
    some (sSetPrevBlock pf (sSetNextBlock pf m temp1 temp2) temp2 temp1)
  else some m

/-- What `s_get_free_block` and `s_shrink_block` do with the end of a block: link a new block
behind the first `size` bytes, and make it free. -/
def splitBlock (m : Mem) (pblock size : Nat) : Option Mem :=
  let temp := u32 (pblock + size)
  let next := sGetNextBlock pf m pblock
  let m := sSetPrevBlock pf m temp pblock
  let m := sSetNextBlock pf m temp next
  let m := sSetPrevBlock pf m next temp
  let m := sSetNextBlock pf m pblock temp
  sCompactFree pf m temp

/-- The variables of the search for the best fit. -/
structure Search where
  temp : Nat
  pblock : Nat := NULL
  minsize : Nat := 2 ^ 32 - 1

/-- One round of the search. -/
def searchStep (m : Mem) (size : Nat) (s : Search) : Search ⊕ Search :=
  if s.temp = NULL then .inl s
  else
    let bsize := sGetBlockSize pf m s.temp
    let next := sGetNextBlock pf m s.temp
    if sIsBlockFree pf m s.temp ∧ size ≤ bsize ∧ bsize < s.minsize then
      .inr ⟨next, s.temp, bsize⟩
    else .inr { s with temp := next }

/-- Find a free block: the address behind its header, or `NULL`. -/
def sGetFreeBlock (m : Mem) (size pstart : Nat) : Option (Nat × Mem) :=
  if size = 0 then some (NULL, m)
  else do
    let size := sActSize (u32 (size + DYN_HEADER_SIZE))
    let s ← Loop.run (searchStep pf m size) ROUNDS { temp := sGetNextBlock pf m pstart }
    if s.pblock = NULL then some (NULL, m)
    else
      let m := sMarkBlockTaken pf m s.pblock
      if s.minsize > size ∧ s.minsize - size ≥ DYN_MIN_SPLIT_SIZE then
        (splitBlock pf m s.pblock size).map fun m => (u32 (s.pblock + DYN_HEADER_SIZE), m)
      else some (u32 (s.pblock + DYN_HEADER_SIZE), m)

def sFreeBlock (m : Mem) (ptr : Nat) : Option Mem := sCompactFree pf m (sub32 ptr DYN_HEADER_SIZE)

def sGetActualBlockSize (m : Mem) (ptr : Nat) : Nat :=
  sub32 (sGetBlockSize pf m (sub32 ptr DYN_HEADER_SIZE)) DYN_HEADER_SIZE

def sShrinkBlock (m : Mem) (ptr size : Nat) : Option Mem :=
  let pblock := sub32 ptr DYN_HEADER_SIZE
  let size := sActSize (u32 (size + DYN_HEADER_SIZE))
  let bsize := sGetBlockSize pf m pblock
  if size ≥ bsize ∨ bsize - size < DYN_MIN_SPLIT_SIZE then some m
  else splitBlock pf m pblock size

/-- One round of `s_init`. -/
def initRegion (m : Mem) (r : Region) : Mem :=
  let memspace := sub32 (u32 (r.start + r.size)) r.start
  let g1 := r.start
  let crt := g1 + DYN_SIZE_MULT
  let g2 := sub32 (u32 (g1 + memspace)) DYN_SIZE_MULT
  let m := sCreateNewBlock pf m g1 crt NULL
  let m := sCreateNewBlock pf m crt g2 g1
  let m := sCreateNewBlock pf m g2 NULL crt
  let m := sMarkBlockTaken pf m g1
  let m := sMarkBlockTaken pf m g2
  sMarkBlockFree pf m crt

def sInit (m : Mem) : Mem := pf.regions.foldl (initRegion pf) m

/-! ### The interface -/

/-- The memory and `s_initialized`. -/
structure Heap where
  mem : Mem
  initialized : Bool := false

/-- `if( !s_initialized ) s_init();` -/
def Heap.ready (h : Heap) : Heap :=
  if h.initialized then h else ⟨sInit pf h.mem, true⟩

/-- The loop of `smalloc` over the regions. -/
def smallocFrom (size : Nat) : List Region → Mem → Option (Nat × Mem)
  | [],      m => some (NULL, m)
  | r :: rs, m => do
      let (ptr, m) ← sGetFreeBlock pf m size r.start
      if ptr ≠ NULL then some (ptr, m) else smallocFrom size rs m

def smalloc (h : Heap) (size : Nat) : Option (Nat × Heap) :=
  let h := h.ready pf
  (smallocFrom pf size pf.regions h.mem).map fun (ptr, m) => (ptr, { h with mem := m })

def sfree (h : Heap) (ptr : Nat) : Option Heap :=
  if ptr = NULL ∨ ¬ h.initialized then some h
  else (sFreeBlock pf h.mem ptr).map fun m => { h with mem := m }

def scalloc (h : Heap) (nmemb size : Nat) : Option (Nat × Heap) := do
  let h := h.ready pf
  let (ptr, h) ← smalloc pf h (u32 (nmemb * size))
  if ptr ≠ NULL then
    some (ptr, { h with mem := h.mem.store ptr (List.replicate (u32 (nmemb * size)) 0) })
  else some (ptr, h)

def srealloc (h : Heap) (ptr size : Nat) : Option (Nat × Heap) :=
  let h := h.ready pf
  if ptr = NULL then smalloc pf h size
  else if size = 0 then (sfree pf h ptr).map fun h => (NULL, h)
  else if sGetActualBlockSize pf h.mem ptr = size then some (ptr, h)
  else if size < sGetActualBlockSize pf h.mem ptr then
    (sShrinkBlock pf h.mem ptr size).map fun m => (ptr, { h with mem := m })
  else do
    let (newptr, h) ← smalloc pf h size
    if newptr = NULL then some (NULL, h)
    else
      let data := h.mem.read ptr (sGetActualBlockSize pf h.mem ptr)
      let h ← sfree pf { h with mem := h.mem.store newptr data } ptr
      some (newptr, h)

end Alcor.Salloc

/-!
## Programs that use the allocator

A program calls the allocator and writes into the memory it got. Beside
the heap stands what the program knows: the pointers it holds, with
what should be in the memory behind them (`Live`).

`Tiled` is the invariant of a region, and `Sound` that of the heap and
the program together.
-/

namespace Alcor.Salloc

open Lib

/-- A pointer of the program, and the bytes behind it. There are as many as were asked for. -/
structure Live where
  ptr : Nat
  content : List UInt8
  deriving DecidableEq

/-- The heap and the pointers of a program. -/
structure Program where
  heap : Heap
  live : List Live := []

/-- What a program does. -/
inductive Event where
  | smalloc (size : Nat)
  | sfree (ptr : Nat)
  | srealloc (ptr size : Nat)
  | scalloc (nmemb size : Nat)
  /-- Write bytes behind a pointer. -/
  | write (ptr offset : Nat) (bytes : List UInt8)

variable (pf : Platform)

/-- The program gets a pointer, unless it is `NULL`, and finds what is there. -/
def Program.got (p : Program) (ptr size : Nat) (h : Heap) : Program :=
  if ptr = NULL then { p with heap := h }
  else ⟨h, p.live ++ [⟨ptr, h.mem.read ptr size⟩]⟩

/-- The program gives a pointer back. -/
def Program.gave (p : Program) (ptr : Nat) (h : Heap) : Program :=
  ⟨h, p.live.filter (·.ptr ≠ ptr)⟩

/-- The program gets `new` in place of `ptr`, and expects the first bytes of the old contents
there. -/
def Program.moved (p : Program) (ptr new size : Nat) (h : Heap) : Program :=
  ⟨h, p.live.map fun l =>
    if l.ptr = ptr then
      ⟨new, l.content.take size ++
        h.mem.read (new + (l.content.take size).length) (size - l.content.length)⟩
    else l⟩

/-- One step of a program. -/
def Program.step (p : Program) : Event → Option Program
  | .smalloc size => (smalloc pf p.heap size).map fun (ptr, h) => p.got ptr size h
  | .sfree ptr => (sfree pf p.heap ptr).map fun h => p.gave ptr h
  | .srealloc ptr size => (srealloc pf p.heap ptr size).map fun (new, h) =>
    if ptr = NULL then p.got new size h
    else if size = 0 then p.gave ptr h
    else if new = NULL then { p with heap := h }
    else p.moved ptr new size h
  | .scalloc nmemb size => (scalloc pf p.heap nmemb size).map fun (ptr, h) =>
    if ptr = NULL then { p with heap := h }
    else ⟨h, p.live ++ [⟨ptr, List.replicate (nmemb * size) 0⟩]⟩
  | .write ptr offset bytes => some
      ⟨{ p.heap with mem := p.heap.mem.store (ptr + offset) bytes },
        p.live.map fun l =>
          if l.ptr = ptr then
            ⟨l.ptr, l.content.take offset ++ bytes ++ l.content.drop (offset + bytes.length)⟩
          else l⟩

/-- A size with the header, rounded up, has 32 bits. -/
def SizeFits (size : Nat) : Prop := size + DYN_HEADER_SIZE ≤ 2 ^ 32 - DYN_SIZE_MULT

instance (size : Nat) : Decidable (SizeFits size) := Nat.decLe _ _

/-- A pointer of the program. -/
def Program.Holds (p : Program) (ptr : Nat) : Prop := ∃ l ∈ p.live, l.ptr = ptr

instance (p : Program) (ptr : Nat) : Decidable (p.Holds ptr) :=
  inferInstanceAs (Decidable (∃ l ∈ p.live, l.ptr = ptr))

/-- What a program may do. -/
def Program.Allowed (p : Program) : Event → Prop
  | .smalloc size            => SizeFits size
  | .sfree ptr               => ptr = NULL ∨ p.Holds ptr
  | .srealloc ptr size       => (ptr = NULL ∨ p.Holds ptr) ∧ SizeFits size
  | .scalloc nmemb size      => SizeFits (nmemb * size)
  | .write ptr offset bytes  =>
    ∃ l ∈ p.live, l.ptr = ptr ∧ offset + bytes.length ≤ l.content.length

instance (p : Program) (e : Event) : Decidable (p.Allowed e) :=
  match e with
  | .smalloc size            => inferInstanceAs (Decidable (SizeFits size))
  | .sfree ptr               => inferInstanceAs (Decidable (ptr = NULL ∨ p.Holds ptr))
  | .srealloc ptr size       =>
    inferInstanceAs (Decidable ((ptr = NULL ∨ p.Holds ptr) ∧ SizeFits size))
  | .scalloc nmemb size      => inferInstanceAs (Decidable (SizeFits (nmemb * size)))
  | .write ptr offset bytes  => inferInstanceAs
      (Decidable (∃ l ∈ p.live, l.ptr = ptr ∧ offset + bytes.length ≤ l.content.length))

/-! ### The invariant -/

/-- The last guard of a region. -/
def Region.guard (r : Region) : Nat := r.start + r.size - DYN_SIZE_MULT

/-- The blocks of a region, with the two guards. -/
structure Tiled (m : Mem) (r : Region) (nodes : List Nat) : Prop where
  /-- `next` and `prev` links are inverse. -/
  linked : Linked (sGetNextBlock pf m) (sGetPrevBlock pf m) NULL nodes NULL
  /-- Blocks go upwards, and of two neighbours one is taken. -/
  chain : nodes.IsChain fun x y => x < y ∧ (sIsBlockFree pf m x = false ∨ sIsBlockFree pf m y = false)
  aligned : ∀ x ∈ nodes, x % DYN_SIZE_MULT = 0
  /-- The first block is behind the first guard. -/
  first : nodes.take 2 = [r.start, r.start + DYN_SIZE_MULT]
  last : nodes.getLast? = some r.guard
  first_taken : sIsBlockFree pf m r.start = false
  last_taken : sIsBlockFree pf m r.guard = false

/-- The memory behind a pointer is the payload of a taken block. -/
structure Placed (m : Mem) (r : Region) (nodes : List Nat) (l : Live) : Prop where
  mem : l.ptr - DYN_HEADER_SIZE ∈ nodes
  ptr_lt : r.start + DYN_SIZE_MULT + DYN_HEADER_SIZE ≤ l.ptr
  lt_guard : l.ptr < r.guard
  taken : sIsBlockFree pf m (l.ptr - DYN_HEADER_SIZE) = false
  /-- The payload is as long as requested. -/
  fits : l.ptr + l.content.length ≤ sGetNextBlock pf m (l.ptr - DYN_HEADER_SIZE)

/-- The end of the payload behind a pointer. -/
def payloadEnd (m : Mem) (l : Live) : Nat := sGetNextBlock pf m (l.ptr - DYN_HEADER_SIZE)

/-- All regions are tiled by blocks, and the program finds in its memory what it expects. -/
structure Sound (p : Program) : Prop where
  heap : ∃ blocks : Region → List Nat,
    (∀ r ∈ pf.regions, Tiled pf p.heap.mem r (blocks r)) ∧
    ∀ l ∈ p.live, ∃ r ∈ pf.regions, Placed pf p.heap.mem r (blocks r) l
  aligned : ∀ l ∈ p.live, l.ptr % DYN_SIZE_MULT = 0
  disjoint : p.live.Pairwise fun l l' =>
    payloadEnd pf p.heap.mem l ≤ l'.ptr ∨ payloadEnd pf p.heap.mem l' ≤ l.ptr
  content : ∀ l ∈ p.live, p.heap.mem.read l.ptr l.content.length = l.content

/-! ### The sizes that are asked for

A request asks for a number of bytes, which for `scalloc` is the product
in exact arithmetic. The allocator adds the header to it, and rounds it
up, in 32 bits. A program may ask for any sizes here, but it uses the
pointers that it holds.
-/

section Requests
open Lib

variable (pf : Platform)

/-- The number of bytes behind a pointer, up to the next block. -/
def usable (m : Mem) (ptr : Nat) : Nat := sGetNextBlock pf m (ptr - DYN_HEADER_SIZE) - ptr

/-- The number of bytes that a request asks for. -/
def Event.asked : Event → Nat
  | .smalloc size       => size
  | .srealloc _ size    => size
  | .scalloc nmemb size => nmemb * size
  | _                   => 0

/-- Sizes are values of a `size_t`, and the pointers are those of the program. -/
def Program.Follows (p : Program) : Event → Prop
  | .smalloc size            => size < 2 ^ 32
  | .sfree ptr               => ptr = NULL ∨ p.Holds ptr
  | .srealloc ptr size       => (ptr = NULL ∨ p.Holds ptr) ∧ size < 2 ^ 32
  | .scalloc nmemb size      => nmemb < 2 ^ 32 ∧ size < 2 ^ 32
  | .write ptr offset bytes  =>
    ∃ l ∈ p.live, l.ptr = ptr ∧ offset + bytes.length ≤ l.content.length

/-- The request returns, and if it does not return `NULL` then there are as many usable bytes as
were asked for. -/
def Program.Serves (p : Program) : Event → Prop
  | .smalloc size       => ∃ ptr h, smalloc pf p.heap size = some (ptr, h) ∧
      (ptr ≠ NULL → size ≤ usable pf h.mem ptr)
  | .srealloc ptr size  => ∃ new h, srealloc pf p.heap ptr size = some (new, h) ∧
      (new ≠ NULL → size ≤ usable pf h.mem new)
  | .scalloc nmemb size => ∃ ptr h, scalloc pf p.heap nmemb size = some (ptr, h) ∧
      (ptr ≠ NULL → nmemb * size ≤ usable pf h.mem ptr ∧
        -- the zero fill stays inside
        u32 (nmemb * size) ≤ usable pf h.mem ptr)
  | _                   => True

/-- Some region has a free block of this size. -/
def HasRoom (m : Mem) (size : Nat) : Prop :=
  ∃ r ∈ pf.regions, ∃ nodes, Tiled pf m r nodes ∧
    ∃ x ∈ nodes, sIsBlockFree pf m x = true ∧ size ≤ sGetBlockSize pf m x

/-- The size of the block that is looked for. -/
def blockSize (size : Nat) : Nat := sActSize (u32 (size + DYN_HEADER_SIZE))

/-- The size fits with its header, or nothing is found for what is left of it in 32 bits. -/
def Program.Met (p : Program) (e : Event) : Prop :=
  SizeFits e.asked ∨ u32 e.asked = 0 ∨
    ¬ HasRoom pf (p.heap.ready pf).mem (blockSize (u32 e.asked))

/-- A step of a program that follows the rules, with a size that is met. -/
def Program.Sane (p : Program) (e : Event) : Prop := p.Follows e ∧ p.Met pf e

end Requests

end Alcor.Salloc
