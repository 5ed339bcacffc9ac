import Alcor.Lib.Buckets
import Alcor.Lib.Memory
import Alcor.Lib.Run

/-!
# `Alcor.Lua.Strings`: the string table

`src/lua/lstring.c`, and what `src/lua/lgc.c` does with the table. An
allocation may run the collector, and the collector may run finalizers,
which create strings in turn. So a creation that waits for its memory is a
frame, with the creations that it interrupts below it, and while a frame
waits everything may happen. An error leaves any number of frames.

Bytes that stay where they are, as those of the read-only area, are in
`mem`. Which strings are not marked is chosen with the end of the mark
phase. They are freed when their buckets are swept, and a lookup may find
them until then.
-/

set_option autoImplicit false

namespace Alcor.Lua.Strings

open Lib (Mem)
open Lib.Buckets (rehash push)

/-- `MINSTRTABSIZE`. -/
def MINSTRTABSIZE : Nat := 32

/-- `MAX_INT`. -/
def MAX_INT : Nat := 2 ^ 31 - 3

/-- What is behind the header of a string. -/
inductive Content where
  /-- A copy of the bytes, with the ending 0. -/
  | own (bytes : List UInt8)
  /-- A pointer to the bytes. -/
  | readonly (str : Nat)
  deriving DecidableEq, Repr

/-- `TString`. -/
structure TString where
  /-- Which string it is. -/
  id : Nat
  hash : UInt32
  len : Nat
  content : Content
  /-- The bytes that it was created from, which no function reads. -/
  created : List UInt8
  deriving DecidableEq, Repr

/-- The bytes at `getstr`. -/
def getstr (mem : Mem) (ts : TString) : List UInt8 :=
  match ts.content with
  | .own bytes    => bytes.take ts.len
  | .readonly str => mem.read str ts.len

/-- `lmod`, where the size is a power of two. -/
def lmod (h : UInt32) (size : Nat) : Nat := h.toNat &&& (size - 1)

/-- The hash of a string. If it is too long, not all of its bytes are used: the loop goes from the
end on in steps. -/
def hashOf (bytes : List UInt8) : UInt32 :=
  let l := bytes.length
  let step := (l >>> 5) + 1
  (List.range (l / step)).foldl
    (fun h k =>
      let l1 := l - k * step
      h ^^^ ((h <<< 5) + (h >>> 2) + (bytes.getD (l1 - 1) 0).toUInt32))
    (UInt32.ofNat l)

/-- A string that is to be created. -/
structure Creation where
  bytes : List UInt8
  hash : UInt32
  /-- Where the bytes are, for a read-only string. -/
  readonly : Option Nat

/-- A creation that waits for memory. -/
inductive Frame where
  /-- The reallocation of `luaS_resize`. -/
  | growing (newsize : Nat) (c : Creation)
  /-- The allocation of the string. -/
  | allocating (c : Creation)

def Frame.creation : Frame → Creation
  | .growing _ c  => c
  | .allocating c => c

/-- The table is to grow for this frame. -/
def Frame.grows : Frame → Bool
  | .growing _ _  => true
  | .allocating _ => false

structure State where
  /-- `strt.hash`, with the chains. -/
  hash : List (List TString) := List.replicate MINSTRTABSIZE []
  nuse : Nat := 0
  /-- `GCResizingStringsBit`. -/
  resizing : Bool := false
  /-- `sweepstrgc`, in the phase `GCSsweepstring`. -/
  sweepstrgc : Option Nat := none
  /-- The strings that `isdead` holds of. -/
  dead : List Nat := []
  /-- The strings that are alive: the program can reach them. -/
  live : List TString := []
  frames : List Frame := []
  nextId : Nat := 0

/-- `strt.size`. -/
def State.size (s : State) : Nat := s.hash.length

/-- All strings of the table. -/
def State.strings (s : State) : List TString := s.hash.flatten

/-! ### The collector -/

/-- `sweepstrstep`, in its phase. -/
def sweepstrstep (s : State) : State :=
  match s.sweepstrgc with
  | none   => s
  | some k =>
    let hash := s.hash.modify k (List.filter fun ts => !s.dead.contains ts.id)
    { s with
      hash
      nuse := s.nuse - (s.hash.flatten.length - hash.flatten.length)
      sweepstrgc := if k + 1 ≥ s.size then none else some (k + 1) }

/-- What stops `luaS_resize`, behind `luaC_sweepstrgc`. -/
def State.stopsResize (s : State) (newsize : Nat) : Bool :=
  s.sweepstrgc.isSome || decide (newsize = s.size) || s.resizing

/-- Every string of the table to its bucket for `newsize`. -/
def rehashTo (newsize : Nat) (hash : List (List TString)) (size : Nat) : List (List TString) :=
  rehash (fun ts => lmod ts.hash newsize) hash size

/-- `luaS_resize` to a smaller size. The reallocation may fail, and the error leaves frames. It runs
no collector, as the collector runs. -/
def shrink (newsize : Nat) (ok : Bool) (frames : Nat) (s : State) : State :=
  let s := sweepstrstep s
  if s.stopsResize newsize then s
  else
    let hash := rehashTo newsize s.hash s.size
    if ok then { s with hash := hash.take newsize }
    else { s with hash, resizing := true, frames := s.frames.drop frames }

/-- The table is too big. -/
def State.tooBig (s : State) : Bool :=
  decide (s.nuse < s.size / 4) && decide (s.size > MINSTRTABSIZE * 2)

/-- `checkSizes`, for the table. -/
def checkSizes (ok : Bool) (frames : Nat) (s : State) : State :=
  if s.tooBig then shrink (s.size / 2) ok frames s else s

/-! ### Creations -/

/-- The string of a creation, in memory that was allocated. -/
def newString (c : Creation) (id : Nat) : TString where
  id
  hash := c.hash
  len := c.bytes.length
  content := match c.readonly with
    | some str => .readonly str
    | none     => .own (c.bytes ++ [0])
  created := c.bytes

/-- `newlstr`, behind its allocation. -/
def linkString (c : Creation) (s : State) : State :=
  let ts := newString c s.nextId
  { s with
    hash := push s.hash (lmod c.hash s.size) ts
    nuse := s.nuse + 1
    live := ts :: s.live
    nextId := s.nextId + 1 }

/-- The beginning of `luaS_resize` to a larger size, up to the reallocation. -/
def startGrowing (newsize : Nat) (c : Creation) (s : State) : State :=
  let s := sweepstrstep s
  if s.stopsResize newsize then { s with frames := .allocating c :: s.frames }
  else { s with resizing := true, frames := .growing newsize c :: s.frames }

/-- `newlstr`, up to its first allocation. -/
def newlstr (c : Creation) (s : State) : State :=
  if s.nuse + 1 > s.size ∧ s.size ≤ MAX_INT / 2 then startGrowing (s.size * 2) c s
  else { s with frames := .allocating c :: s.frames }

/-- `luaS_newlstr_helper`, for the bytes at `str`. -/
def luaSNewlstrHelper (mem : Mem) (str : Nat) (bytes : List UInt8) (readonly : Bool) (s : State) :
    State :=
  let h := hashOf bytes
  let chain := s.hash[lmod h s.size]?.getD []
  match chain.find? fun ts => ts.len == bytes.length && getstr mem ts == bytes with
  | some ts => { s with dead := s.dead.filter (· ≠ ts.id), live := ts :: s.live }
  | none    => newlstr ⟨bytes, h, if readonly then some str else none⟩ s

/-- `l+1 > sizeof(char**) && l == strlen(str)`, for bytes that stay where they are. -/
def isText (mem : Mem) (str : Nat) (bytes : List UInt8) : Bool :=
  decide (bytes.length + 1 > 4) && !bytes.contains 0 && mem (str + bytes.length) == 0

/-- `luaS_newlstr`, where `ro` is the read-only area. -/
def luaSNewlstr (ro : Nat → Bool) (mem : Mem) (str : Nat) (bytes : List UInt8) (s : State) :
    State :=
  luaSNewlstrHelper mem str bytes (ro str && isText mem str bytes) s

/-- `luaS_newrolstr`. -/
def luaSNewrolstr (mem : Mem) (str : Nat) (bytes : List UInt8) (s : State) : State :=
  luaSNewlstrHelper mem str bytes (isText mem str bytes) s

/-- The last frame gets its memory, and goes on. -/
def resume (s : State) : State :=
  match s.frames with
  | []                        => s
  | .growing newsize c :: fs =>
    let hash := s.hash ++ List.replicate (newsize - s.size) []
    { s with
      hash := rehashTo newsize hash s.size
      resizing := false
      frames := .allocating c :: fs }
  | .allocating c :: fs       => linkString c { s with frames := fs }

/-! ### Runs -/

inductive Event where
  /-- `luaS_newlstr` of the bytes at a pointer. -/
  | newlstr (str : Nat) (bytes : List UInt8)
  | newrolstr (str : Nat) (bytes : List UInt8)
  /-- The last frame gets its memory. -/
  | alloc
  /-- An error leaves frames: the last one has no memory, or a finalizer fails. -/
  | error (frames : Nat)
  /-- The mark phase ends with these strings unmarked. -/
  | atomic (dead : List Nat)
  /-- `sweepstrstep`. -/
  | sweep
  /-- `checkSizes`, where the reallocation succeeds or leaves frames. -/
  | checkSizes (ok : Bool) (frames : Nat)
  /-- The program can reach only these of its strings. -/
  | release (keep : TString → Bool)

section Step
variable (ro : Nat → Bool) (mem : Mem)

/-- The bytes that are given for a pointer are there, if they stay there. The mark phase marks the
strings that are alive. -/
def Event.possible (s : State) : Event → Bool
  | .newlstr str bytes   => !ro str || mem.read str bytes.length == bytes
  | .newrolstr str bytes => mem.read str bytes.length == bytes
  | .atomic dead         =>
    s.live.all (fun ts => !dead.contains ts.id) && dead.all fun id => decide (id < s.nextId)
  | _                    => true

def perform (s : State) : Event → State
  | .newlstr str bytes    => luaSNewlstr ro mem str bytes s
  | .newrolstr str bytes  => luaSNewrolstr mem str bytes s
  | .alloc                => resume s
  | .error frames         => { s with frames := s.frames.drop frames }
  | .atomic dead          => { s with dead, sweepstrgc := some 0 }
  | .sweep                => sweepstrstep s
  | .checkSizes ok frames => checkSizes ok frames s
  | .release keep         => { s with live := s.live.filter keep }

def step (s : State) (e : Event) : Option State :=
  if e.possible ro mem s then some (perform ro mem s e) else none

end Step

/-- The table is consistent. -/
structure Consistent (mem : Mem) (s : State) : Prop where
  /-- Every live string is chained in the bucket of its hash. -/
  chained : ∀ ts ∈ s.live, ts ∈ s.hash[lmod (hashOf ts.created) s.size]?.getD []
  /-- No two have equal bytes. -/
  unique : ∀ ts ∈ s.live, ∀ ts' ∈ s.live, getstr mem ts = getstr mem ts' → ts = ts'
  /-- Reading a string gives the bytes that it was created from. -/
  read : ∀ ts ∈ s.live, getstr mem ts = ts.created
  /-- The table can be resized, unless a frame is about to do it. -/
  resizable : s.resizing = true → ∃ f ∈ s.frames, f.grows = true

/-- What a step has to meet. -/
def Met (s : State) : Event → Prop
  /- No error leaves a frame that resizes the table. -/
  | .error frames    => ∀ f ∈ s.frames.take frames, f.grows = false
  /- A smaller table can be had. -/
  | .checkSizes ok _ =>
    s.tooBig = true → (sweepstrstep s).stopsResize (s.size / 2) = false → ok = true
  /- A creation does not end inside another of the same bytes. -/
  | .alloc           =>
    match s.frames with
    | .allocating c :: fs => ∀ f ∈ fs, f.creation.bytes ≠ c.bytes
    | _                   => True
  | _                => True

instance (s : State) : ∀ e : Event, Decidable (Met s e)
  | .error frames    => inferInstanceAs (Decidable (∀ f ∈ s.frames.take frames, f.grows = false))
  | .checkSizes ok _ =>
    inferInstanceAs (Decidable
      (s.tooBig = true → (sweepstrstep s).stopsResize (s.size / 2) = false → ok = true))
  | .alloc           =>
    match hframes : s.frames with
    | .allocating c :: fs =>
      decidable_of_iff (∀ f ∈ fs, f.creation.bytes ≠ c.bytes) (by simp [Met, hframes])
    | .growing _ _ :: _   => .isTrue (by simp [Met, hframes])
    | []                  => .isTrue (by simp [Met, hframes])
  | .newlstr _ _     => .isTrue trivial
  | .newrolstr _ _   => .isTrue trivial
  | .atomic _        => .isTrue trivial
  | .sweep           => .isTrue trivial
  | .release _       => .isTrue trivial

end Alcor.Lua.Strings
