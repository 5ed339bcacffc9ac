import Alcor.Lua.Table

/-!
# `Alcor.Lua.TableAccess`: assignments, traversals and lengths of tables

The rest of `ltable.c` above the resize: a new key for which there is no
free node makes `rehash` count the keys and choose the sizes of both
parts (`computesizes`), `luaH_set` gives the place of a key,
`luaH_next` goes from one key to the next, and `luaH_getn` searches a
boundary.

As in `Alcor.Lua.Table`, `n` is the number of steps a loop along links
may take, and `none` is a loop that did not end or an error. Keys are
neither nil nor NaN, and none is marked as dead.
-/

set_option autoImplicit false

namespace Alcor.Lua

/-- `MAXASIZE`: max size of array part is `2^MAXBITS`. -/
def MAXASIZE : Nat := 2 ^ MAXBITS

/-- `MAX_INT`: maximum value of an int (-2 for safety). -/
def MAX_INT : Nat := 2 ^ 31 - 1 - 2

variable {N V : Type} (num : Numbers N)

/-- `arrayindex`. -/
def arrayindex : Key N → Int
  | .number n => (num.toInt n).getD (-1)
  | _         => -1

/-! ### The sizes -/

/-- `countint`: what is added to the count, and `nums` with the key. -/
def countint (key : Key N) (nums : Nat → Nat) : Nat × (Nat → Nat) :=
  let k := arrayindex num key
  if 0 < k ∧ k ≤ MAXASIZE then
    let lg := Nat.clog 2 k.toNat
    (1, Function.update nums lg (nums lg + 1))
  else (0, nums)

/-- The loop of `computesizes`; the result is `na` and the new `*narray`. `none` is a pass that
would read behind `nums`. -/
def sizesFrom (nums : Nat → Nat) (narray : Nat) : Nat → Nat → Nat → Nat → Nat → Option (Nat × Nat)
  | 0,          i, _, na, n => if 2 ^ i / 2 < narray then none else some (na, n)
  | passes + 1, i, a, na, n =>
    if 2 ^ i / 2 < narray then
      let a := a + nums i
      -- more than half elements present?
      let (na, n) := if 0 < nums i ∧ 2 ^ i / 2 < a then (a, 2 ^ i) else (na, n)
      -- all elements already counted
      if a = narray then some (na, n) else sizesFrom nums narray passes (i + 1) a na n
    else some (na, n)

/-- `computesizes`. -/
def computesizes (nums : Nat → Nat) (narray : Nat) : Option (Nat × Nat) :=
  sizesFrom nums narray (MAXBITS + 1) 0 0 0 0

/-- What `luaH_get` points to. -/
inductive Place where
  | array (i : Nat)
  | node (i : Nat)
  deriving DecidableEq

namespace Table

variable (t : Table N V)

/-- The number of values in the array part, from one index up to another. -/
def usedIn (i lim : Nat) : Nat :=
  ((List.range' i (lim + 1 - i)).filter fun i => (t.array (i - 1)).isSome).length

/-- The loop of `numusearray`, for the slices from `2^(lg-1)` on. -/
def usearrayFrom : Nat → Nat → Nat → Nat → (Nat → Nat) → Nat × (Nat → Nat)
  | 0,          _,  _, ause, nums => (ause, nums)
  | passes + 1, lg, i, ause, nums =>
    let lim := min (2 ^ lg) t.sizearray
    -- no more elements to count
    if t.sizearray < 2 ^ lg ∧ lim < i then (ause, nums)
    else
      let lc := t.usedIn i lim
      usearrayFrom passes (lg + 1) (max i (lim + 1)) (ause + lc)
        (Function.update nums lg (nums lg + lc))

/-- `numusearray`. -/
def numusearray (nums : Nat → Nat) : Nat × (Nat → Nat) :=
  t.usearrayFrom (MAXBITS + 1) 0 1 0 nums

/-- The loop of `numusehash`, for the first nodes: `totaluse`, `ause` and `nums`. -/
def usehashBelow : Nat → Nat → Nat → (Nat → Nat) → Nat × Nat × (Nat → Nat)
  | 0,     totaluse, ause, nums => (totaluse, ause, nums)
  | i + 1, totaluse, ause, nums =>
    match (t.node i).val, (t.node i).key with
    | some _, some key =>
      let (count, nums) := countint num key nums
      usehashBelow i (totaluse + 1) (ause + count) nums
    | some _, none     => usehashBelow i (totaluse + 1) ause nums
    | none,   _        => usehashBelow i totaluse ause nums

/-- `numusehash`. -/
def numusehash (nums : Nat → Nat) : Nat × Nat × (Nat → Nat) :=
  t.usehashBelow num t.sizenode 0 0 nums

/-- `rehash`. -/
def rehash [DecidableEq N] (n : Nat) (ek : Key N) : Option (Table N V) :=
  -- count keys in array part
  let (ause, nums) := t.numusearray fun _ => 0
  -- count keys in hash part
  let (totaluse, huse, nums) := t.numusehash num nums
  -- count extra key
  let (extra, nums) := countint num ek nums
  do
    let (na, nasize) ← computesizes nums (ause + huse + extra)
    t.resize num n nasize (ause + totaluse + 1 - na)

/-! ### Assignments -/

/-- `luaH_get`, with the place of the value, or none for `luaO_nilobject`. -/
def luaHGet [DecidableEq N] (n : Nat) (key : Key N) : Option (Option Place) :=
  match arraySlot num t.sizearray key with
  | some i => some (some (.array i))
  | none   => do
      let i ← t.findNode key n (mainposition num t.sizenode key)
      return i.map .node

/-- `newkey` finds no free place. -/
def full (key : Key N) : Bool :=
  ((t.node (mainposition num t.sizenode key)).val.isSome || t.dummy) && t.getfreepos.1.isNone

end Table

/-- `luaH_set`, with the part of `newkey` that calls it again. -/
def luaHSet [DecidableEq N] (n : Nat) (key : Key N) :
    Nat → Table N V → Option (Place × Table N V)
  | 0,         _ => none
  | calls + 1, t => do
      let place ← t.luaHGet num n key
      match place with
      | some place => return (place, t)
      | none       =>
        if t.full num key then
          -- grow table, and re-insert key into grown table
          let t ← t.getfreepos.2.rehash num n key
          luaHSet n key calls t
        else
          let (i, t) ← t.newkey num n key
          return (.node i, t)

namespace Table

variable (t : Table N V)

/-- `setobj2t` to a place. -/
def put (v : Option V) : Place → Table N V
  | .array i => { t with array := Function.update t.array i v }
  | .node i  => t.setNode i { t.node i with val := v }

/-- `t[key] = v`. -/
def assign [DecidableEq N] (n : Nat) (key : Key N) (v : Option V) : Option (Table N V) := do
  let (place, t) ← luaHSet num n key 2 t
  return t.put v place

/-- A program that assigns values to keys. -/
def assignAll [DecidableEq N] (n : Nat) (ops : List (Key N × Option V)) : Option (Table N V) :=
  ops.foldlM (fun t op => t.assign num n op.1 op.2) t

/-- `luaH_new`. -/
def luaHNew (narray nhash : Nat) : Option (Table N V) :=
  let t : Table N V :=
    ⟨fun _ => {}, 0, true, 0, fun _ => none, 0⟩
  (t.setarrayvector narray).resizenodevector 0 nhash

/-! ### Traversals -/

/-- `findindex`; `none` is the error `invalid key to 'next'`. -/
def findindex [DecidableEq N] (n : Nat) : Option (Key N) → Option Int
  | none     => some (-1)
  | some key =>
    let i := arrayindex num key
    if 0 < i ∧ i ≤ t.sizearray then some (i - 1)
    else do
      let i ← t.findNode key n (mainposition num t.sizenode key)
      return (← i) + t.sizearray

/-- The key and the value of an element of the array part. -/
def arrayPair (i : Nat) : Option (Key N × V) :=
  (t.array i).map fun v => (.number (num.ofInt ((i : Int) + 1)), v)

/-- The key and the value of a node. -/
def nodePair (i : Nat) : Option (Key N × V) := do
  let v ← (t.node i).val
  return (← (t.node i).key, v)

/-- The loops of `luaH_next`, from an index on. -/
def pairFrom (i : Nat) : Option (Key N × V) :=
  -- try first array part
  match (List.range' i (t.sizearray - i)).findSome? (t.arrayPair num) with
  | some pair => some pair
  | none      =>
    -- then hash part
    let i := max i t.sizearray - t.sizearray
    (List.range' i (t.sizenode - i)).findSome? t.nodePair

/-- `luaH_next`: the next key with its value, or that there are no more elements. -/
def luaHNext [DecidableEq N] (n : Nat) (key : Option (Key N)) : Option (Option (Key N × V)) := do
  let i ← t.findindex num n key
  return t.pairFrom num (i + 1).toNat

end Table

/-- A traversal with `luaH_next`, where the loop body assigns values after each visit: what was
visited, and the table at the end. -/
def traverse [DecidableEq N] (n : Nat) (body : List (Key N × V) → List (Key N × Option V)) :
    Nat → List (Key N × V) → Table N V → Option (List (Key N × V) × Table N V)
  | 0,          _,       _ => none
  | passes + 1, visited, t => do
      let next ← t.luaHNext num n (visited.getLast?.map Prod.fst)
      match next with
      | none      => return (visited, t)
      | some pair =>
        let visited := visited ++ [pair]
        let t ← t.assignAll num n (body visited)
        traverse n body passes visited t

namespace Table

variable (t : Table N V)

/-! ### Lengths -/

/-- `luaH_getnum`, for an index that is an `int`. -/
def luaHGetnum [DecidableEq N] (n j : Nat) : Option (Option V) := t.get num n (.number (num.ofInt j))

end Table

/-- The binary search between an index that is present, or zero, and one that is not. -/
def binarySearch (present : Nat → Option Bool) : Nat → Nat → Nat → Option Nat
  | 0,          _, _ => none
  | passes + 1, i, j =>
    if 1 < j - i then do
      let m := (i + j) % 2 ^ 32 / 2
      if ← present m then binarySearch present passes m j
      else binarySearch present passes i m
    else some i

/-- The linear search of `unbound_search`. -/
def linearSearch (present : Nat → Option Bool) : Nat → Nat → Option Nat
  | 0,          _ => none
  | passes + 1, i => do
      if ← present i then linearSearch present passes (i + 1) else return i - 1

/-- The first loop of `unbound_search`, and what follows it. -/
def unboundFrom (present : Nat → Option Bool) : Nat → Nat → Nat → Option Nat
  | 0,          _, _ => none
  | passes + 1, i, j => do
      if ← present j then
        let i := j
        let j := j * 2 % 2 ^ 32
        -- overflow? table was built with bad purposes: resort to linear search
        if MAX_INT < j then linearSearch present (2 ^ 31) 1
        else unboundFrom present passes i j
      else binarySearch present 32 i j

namespace Table

variable (t : Table N V) [DecidableEq N]

/-- `unbound_search`. -/
def unboundSearch (n j : Nat) : Option Nat :=
  unboundFrom (fun j => (t.luaHGetnum num n j).map Option.isSome) 32 j (j + 1)

/-- `luaH_getn`. -/
def luaHGetn (n : Nat) : Option Nat :=
  let j := t.sizearray
  if 0 < j ∧ (t.array (j - 1)).isNone then
    binarySearch (fun m => some (t.array (m - 1)).isSome) 32 0 j
  else if t.dummy then some j
  else t.unboundSearch num n j

end Table

end Alcor.Lua
