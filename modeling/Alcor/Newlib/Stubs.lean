import Mathlib.Algebra.Group.Nat.Defs
import Alcor.Lib.Memory
import Alcor.Lib.Run

/-!
# `Alcor.Newlib.Stubs`: descriptors, handles and the heap

The device manager with the system calls over it, the files that the
descriptors stand for, and the heap of `src/newlib/stubs.c`.

* `dmRegister`, `dmUnregister`, `dmDeviceIdFromName`: the table of
  devices.
* `openR`, `readR` and the calls beside them: a path leads to a device
  and a descriptor back to it.
* `Session`: runs in which devices come and go while files are open.
* `eluaSbrk`, `Growth`: how the heap grows through the memory regions.
-/

set_option autoImplicit false

/-!
## The device manager and the file stubs

The table of devices of `src/newlib/devman.c` and the functions of
`src/newlib/stubs.c` that work on descriptors. A device is the record of
its functions, over a type `W` for the rest of the system and a type `P`
for the data of an instance; a missing entry is a null pointer.
-/

namespace Alcor.Newlib

open Lib (CStr lower strncasecmpEq)

/-! ### `devman.h` -/

/-- The most devices in the system. -/
def DM_MAX_DEVICES : Nat := 16

/-- The bits of a device index. -/
def DM_MAX_DEVICES_BITS : Nat := 4

/-- The longest device name. -/
def DM_MAX_DEV_NAME : Nat := 12

/-- `DM_MAKE_DESC`. -/
def dmMakeDesc (devid fd : Nat) : Nat := devid <<< (15 - DM_MAX_DEVICES_BITS) ||| fd

/-- `DM_GET_DEVID`. -/
def dmGetDevid (desc : Nat) : Nat := desc >>> (15 - DM_MAX_DEVICES_BITS)

/-- `DM_GET_FD`. -/
def dmGetFd (desc : Nat) : Nat := desc &&& (1 <<< (15 - DM_MAX_DEVICES_BITS) - 1)

/-- The error numbers of the manager and the stubs. -/
inductive Errno where
  | ENODEV
  | ENOSYS
  | ENOMEM
  | EBADF
  deriving DecidableEq

/-- The errors of the device table. -/
inductive DmErr where
  | alreadyRegistered
  | notRegistered
  | noSpace
  | invalidName
  | invalidOps
  deriving DecidableEq

/-- `struct _reent`: the error number, and the rest of the system. -/
structure Reent (W : Type) where
  errno : Option Errno
  sys : W

/-- `struct dm_dirent`. -/
structure DmDirent where
  fsize : Nat
  fname : CStr
  ftime : Nat
  flags : UInt8

variable {W P : Type}

/-- The functions of a device. -/
structure DmDevice (W P : Type) where
  pOpenR : Option (List UInt8 → Int → Int → P → Reent W → Int × Reent W) := none
  pCloseR : Option (Nat → P → Reent W → Int × Reent W) := none
  pWriteR : Option (Nat → List UInt8 → P → Reent W → Int × Reent W) := none
  /-- The result, and what is stored at the pointer. -/
  pReadR : Option (Nat → Nat → P → Reent W → (Int × List UInt8) × Reent W) := none
  pLseekR : Option (Nat → Int → Int → P → Reent W → Int × Reent W) := none
  /-- The pointer to the data of the directory. -/
  pOpendirR : Option (List UInt8 → P → Reent W → Option Nat × Reent W) := none
  pReaddirR : Option (Nat → P → Reent W → Option DmDirent × Reent W) := none
  pClosedirR : Option (Nat → P → Reent W → Int × Reent W) := none

/-- An entry of the device table. -/
structure DmInstanceData (W P : Type) where
  name : CStr
  pdata : P
  pdev : DmDevice W P

/-- The entries of `dm_list` in use. -/
abbrev DmList (W P : Type) := List (DmInstanceData W P)

/-- `/`. -/
def SLASH : UInt8 := 47

/-- `!strcasecmp( s1, s2 )`. -/
def strcasecmpEq (s1 s2 : List UInt8) : Bool := lower s1 == lower s2

/-! ### The table -/

/-- `dm_register`. -/
def dmRegister (name : Option CStr) (pdata : P) (pdev : Option (DmDevice W P))
    (dm : DmList W P) : Except DmErr Nat × DmList W P :=
  match pdev with
  | none      => (.error .invalidOps, dm)
  | some pdev =>
    match name with
    | none      => (.error .invalidName, dm)
    | some name =>
      if name.bytes.head? ≠ some SLASH ∨ DM_MAX_DEV_NAME < name.bytes.length then
        (.error .invalidName, dm)
      else if dm.any fun inst => strcasecmpEq name.bytes inst.name.bytes then
        (.error .alreadyRegistered, dm)
      else if dm.length = DM_MAX_DEVICES then (.error .noSpace, dm)
      else (.ok dm.length, dm ++ [{ name, pdata, pdev }])

/-- `dm_unregister`. -/
def dmUnregister (name : Option CStr) (dm : DmList W P) : Except DmErr Unit × DmList W P :=
  match name with
  | none      => (.error .invalidName, dm)
  | some name =>
    if name.bytes.head? ≠ some SLASH ∨ DM_MAX_DEV_NAME < name.bytes.length then
      (.error .invalidName, dm)
    else
      match dm.findIdx? fun inst => strcasecmpEq name.bytes inst.name.bytes with
      | none   => (.error .notRegistered, dm)
      | some i => (.ok (), dm.eraseIdx i)

/-- The loop of `dm_device_id_from_name`, over the entries from `i` on: `pos` and `matchlen`. -/
def matchLoop (name : List UInt8) : DmList W P → Nat → Nat × Nat → Nat × Nat
  | [], _, best                => best
  | inst :: dm, i, (pos, matchlen) =>
    let len := inst.name.bytes.length
    matchLoop name dm (i + 1)
      (if strncasecmpEq name inst.name.bytes len ∧ matchlen < len then (i, len)
       else (pos, matchlen))

/-- `dm_device_id_from_name`: the device, and the rest of the name. -/
def dmDeviceIdFromName (name : List UInt8) (dm : DmList W P) : Option (Nat × List UInt8) :=
  match matchLoop name dm 0 (0, 0) with
  | (_, 0)          => none
  | (pos, matchlen) => some (pos, name.drop matchlen)

/-- `DM_DIR`. -/
structure DmDir where
  devid : Nat
  userdata : Nat
  deriving DecidableEq

/-- `dm_opendir`; `malloc` says whether there is memory for the result. -/
def dmOpendir (dirname : List UInt8) (malloc : Bool) (dm : DmList W P) (r : Reent W) :
    Option DmDir × Reent W :=
  match dmDeviceIdFromName dirname dm with
  | none             => (none, { r with errno := some .ENOSYS })
  | some (pos, rest) =>
    match dm[pos]?.bind fun inst => inst.pdev.pOpendirR.map fun f => f rest inst.pdata with
    | none   => (none, { r with errno := some .ENOSYS })
    | some f =>
      match f r with
      | (none, r)      => (none, r)
      | (some data, r) =>
        if malloc then (some ⟨pos, data⟩, r) else (none, { r with errno := some .ENOMEM })

/-- `dm_readdir`. -/
def dmReaddir (d : DmDir) (dm : DmList W P) (r : Reent W) : Option DmDirent × Reent W :=
  match dm[d.devid]? with
  | none      => (none, { r with errno := some .EBADF })
  | some inst =>
    match inst.pdev.pReaddirR with
    | none   => (none, { r with errno := some .EBADF })
    | some f => f d.userdata inst.pdata r

/-- `dm_closedir`. -/
def dmClosedir (d : DmDir) (dm : DmList W P) (r : Reent W) : Int × Reent W :=
  match dm[d.devid]? with
  | none      => (-1, { r with errno := some .EBADF })
  | some inst =>
    match inst.pdev.pClosedirR with
    | none   => (-1, { r with errno := some .EBADF })
    | some f => f d.userdata inst.pdata r

/-! ### `stubs.c` -/

/-- `find_dm_entry`: the device, and the name of the file. -/
def findDmEntry (name : Option CStr) (dm : DmList W P) : Option (Nat × List UInt8) :=
  match name.map CStr.bytes with
  | none           => none
  | some []        => none
  | some (c :: cs) =>
    if c ≠ SLASH then none
    else
      let found : Option (List UInt8 × List UInt8) :=
        match cs.findIdx? (· = SLASH) with
        | none   => some ([SLASH], cs)
        | some k =>
          -- `preal - name` is `k + 1`
          if DM_MAX_DEV_NAME < k + 1 ∨ k + 1 = 1 then none
          else some ((c :: cs).take (k + 1), (c :: cs).drop (k + 2))
      found.bind fun (tempname, actname) =>
        (dm.findIdx? fun inst => strcasecmpEq tempname inst.name.bytes).bind fun i =>
          if actname = [] then none else some (i, actname)

/-- `_open_r`. -/
def openR (name : Option CStr) (flags mode : Int) (dm : DmList W P) (r : Reent W) :
    Int × Reent W :=
  match findDmEntry name dm with
  | none                  => (-1, { r with errno := some .ENODEV })
  | some (devid, actname) =>
    match dm[devid]?.bind fun inst => inst.pdev.pOpenR.map fun f =>
        f actname flags mode inst.pdata with
    | none   => (-1, { r with errno := some .ENOSYS })
    | some f =>
      match f r with
      | (.ofNat fd, r)  => (dmMakeDesc devid fd, r)
      | (res, r)        => (res, r)

/-- The instance that a descriptor names, and the number that its functions get. -/
def dispatch (file : Nat) (dm : DmList W P) : Option (DmInstanceData W P × Nat) :=
  dm[dmGetDevid file]?.map fun inst => (inst, dmGetFd file)

/-- `_close_r`, `none` when there is no instance to look at. -/
def closeR (file : Nat) (dm : DmList W P) (r : Reent W) : Option (Int × Reent W) :=
  (dispatch file dm).map fun (inst, fd) =>
    match inst.pdev.pCloseR with
    | none   => (-1, { r with errno := some .ENOSYS })
    | some f => f fd inst.pdata r

/-- `_lseek_r`. -/
def lseekR (file : Nat) (off whence : Int) (dm : DmList W P) (r : Reent W) :
    Option (Int × Reent W) :=
  (dispatch file dm).map fun (inst, fd) =>
    match inst.pdev.pLseekR with
    | none   => (-1, { r with errno := some .ENOSYS })
    | some f => f fd off whence inst.pdata r

/-- `_read_r`. -/
def readR (file len : Nat) (dm : DmList W P) (r : Reent W) :
    Option ((Int × List UInt8) × Reent W) :=
  (dispatch file dm).map fun (inst, fd) =>
    match inst.pdev.pReadR with
    | none   => ((-1, []), { r with errno := some .ENOSYS })
    | some f => f fd len inst.pdata r

/-- `_write_r`. -/
def writeR (file : Nat) (ptr : List UInt8) (dm : DmList W P) (r : Reent W) :
    Option (Int × Reent W) :=
  (dispatch file dm).map fun (inst, fd) =>
    match inst.pdev.pWriteR with
    | none   => (-1, { r with errno := some .ENOSYS })
    | some f => f fd ptr inst.pdata r

/-! ### Tables that calls can build -/

/-- A call that changes the table. -/
inductive DmCall (W P : Type) where
  | register (name : Option CStr) (pdata : P) (pdev : Option (DmDevice W P))
  | unregister (name : Option CStr)

/-- The table after a call. -/
def dmStep (dm : DmList W P) : DmCall W P → Option (DmList W P)
  | .register name pdata pdev => some (dmRegister name pdata pdev dm).2
  | .unregister name          => some (dmUnregister name dm).2

/-- A table that calls have built, from the empty one. -/
def Registered (dm : DmList W P) : Prop := Lib.Run.Reachable dmStep [] dm

end Alcor.Newlib

/-!
## Programs that keep descriptors and directories

What `open` and `dm_opendir` return contains the place of the device in
the table, and `dm_unregister` moves the devices behind the one that it
removes. A `Session` is a table together with the handles that were
obtained and not closed since. Every registration gets a number, so that
a device can be told from another that stands in its place later.
-/

namespace Alcor.Newlib

open Lib (CStr)

/-- A file or a directory that was opened. -/
inductive Handle where
  | desc (file : Nat)
  | dir (d : DmDir)
  deriving DecidableEq

/-- The place in the table that the calls on a handle look at. -/
def Handle.devid : Handle → Nat
  | .desc file => dmGetDevid file
  | .dir d     => d.devid

/-- A handle, and the registration it was obtained from. -/
structure Obtained where
  handle : Handle
  reg : Nat
  deriving DecidableEq

/-- The device table, and the handles of its users. -/
structure Session (W P : Type) where
  dm : DmList W P
  r : Reent W
  /-- The registrations that the entries of the table come from. -/
  regs : List Nat := []
  /-- The number of registrations so far. -/
  next : Nat := 0
  /-- What was obtained and not closed since. -/
  handles : List Obtained := []

/-- What can happen. -/
inductive Event (W P : Type) where
  | register (name : Option CStr) (pdata : P) (pdev : Option (DmDevice W P))
  | unregister (name : Option CStr)
  | openFile (name : Option CStr) (flags mode : Int)
  | opendir (dirname : List UInt8) (malloc : Bool)
  /-- The handle at this place of the list is closed. -/
  | close (k : Nat)
  /-- Anything else changes the rest of the system only. -/
  | other (r : Reent W)

variable {W P : Type}

/-- The place of the device that is unregistered. -/
def removed (name : Option CStr) (dm : DmList W P) : Option Nat :=
  name.bind fun name => dm.findIdx? fun inst => strcasecmpEq name.bytes inst.name.bytes

/-- A handle was obtained from the device at this place. -/
def Session.obtain (s : Session W P) (devid : Nat) (handle : Handle) : Session W P :=
  match s.regs[devid]? with
  | none     => s
  | some reg => { s with handles := s.handles ++ [⟨handle, reg⟩] }

/-- One event; `none` when a call looks at an instance that is not there. -/
def sessionStep (s : Session W P) : Event W P → Option (Session W P)
  | .register name pdata pdev =>
    match dmRegister name pdata pdev s.dm with
    | (.error _, dm) => some { s with dm }
    | (.ok _, dm)    => some { s with dm, regs := s.regs ++ [s.next], next := s.next + 1 }
  | .unregister name =>
    match dmUnregister name s.dm, removed name s.dm with
    | (.ok _, dm), some i => some { s with dm, regs := s.regs.eraseIdx i }
    | (_, dm), _          => some { s with dm }
  | .openFile name flags mode =>
    match openR name flags mode s.dm s.r, findDmEntry name s.dm with
    | (.ofNat file, r), some (devid, _) => some ({ s with r }.obtain devid (.desc file))
    | (_, r), _                         => some { s with r }
  | .opendir dirname malloc =>
    match dmOpendir dirname malloc s.dm s.r with
    | (some d, r) => some ({ s with r }.obtain d.devid (.dir d))
    | (none, r)   => some { s with r }
  | .close k =>
    match s.handles[k]? with
    | none                 => some s
    | some ⟨.desc file, _⟩ =>
      (closeR file s.dm s.r).map fun res =>
        { s with r := res.2, handles := s.handles.eraseIdx k }
    | some ⟨.dir d, _⟩     =>
      some { s with r := (dmClosedir d s.dm s.r).2, handles := s.handles.eraseIdx k }
  | .other r => some { s with r }

/-- Nothing is registered. -/
def Session.start (r : Reent W) : Session W P := { dm := [], r }

/-- The device, and the number that it gives to the file. -/
def deviceFd (name : Option CStr) (flags mode : Int) (dm : DmList W P) (r : Reent W) :
    Option (Nat × Nat) := do
  let (devid, actname) ← findDmEntry name dm
  let inst ← dm[devid]?
  let f ← inst.pdev.pOpenR
  match (f actname flags mode inst.pdata r).1 with
  | .ofNat fd => some (devid, fd)
  | _         => none

/-- No handle of a device behind the one that is unregistered is in use, and the number that a
device gives does not reach the bits of the device. -/
def Keeps (s : Session W P) : Event W P → Prop
  | .unregister name          =>
    ∀ i, removed name s.dm = some i → ∀ h ∈ s.handles, ∀ j, s.regs[j]? = some h.reg → j ≤ i
  | .openFile name flags mode =>
    ∀ devid fd, deviceFd name flags mode s.dm s.r = some (devid, fd) →
      dmGetDevid (dmMakeDesc devid fd) = devid
  | _                         => True

end Alcor.Newlib

/-!
## The heap over several memory regions

`elua_sbrk`, or `_sbrk_r`, of `src/newlib/stubs.c`. Pointers and sizes
have 32 bits, and the address behind a range is computed modulo 2^32. A
`Growth` has, with the two variables of the function, the ranges that
were handed out, each with the region it is from.
-/

namespace Alcor.Newlib

/-- A region of free RAM, from `platform_get_first_free_ram` to `platform_get_last_free_ram`. -/
structure Ram where
  first : Nat
  last : Nat
  /-- The address `NULL` stands for the end of the list. -/
  first_pos : 0 < first
  first_le : first ≤ last
  last_lt : last < 2 ^ 32

/-- The regions of a platform. -/
structure RamLayout where
  regions : List Ram
  disjoint : regions.Pairwise fun a b => a.last ≤ b.first ∨ b.last ≤ a.first

/-- The variables of `elua_sbrk`. -/
structure SbrkState where
  /-- `heap_ptr`, 0 for `NULL`. -/
  heapPtr : Nat := 0
  /-- `mem_index`. -/
  memIndex : Nat := 0
  deriving DecidableEq

/-- Where the loop looks for space in a region. -/
def startIn (r : Ram) (s : SbrkState) : Nat := if s.heapPtr = 0 then r.first else s.heapPtr

/-- The loop, on the regions from `mem_index` on. -/
def sbrkLoop (incr : Nat) : List Ram → SbrkState → Option Nat × SbrkState
  | [],      s => (none, { s with heapPtr := 0 })
  | r :: rs, s =>
    if (startIn r s + incr) % 2 ^ 32 > r.last then
      -- the next memory space
      sbrkLoop incr rs { heapPtr := 0, memIndex := s.memIndex + 1 }
    else (some (startIn r s), { s with heapPtr := (startIn r s + incr) % 2 ^ 32 })

/-- `elua_sbrk`; `none` is -1. -/
def eluaSbrk (l : RamLayout) (incr : BitVec 32) (s : SbrkState) : Option Nat × SbrkState :=
  if incr.toInt < 0 then (none, s)
  else sbrkLoop incr.toNat (l.regions.drop s.memIndex) s

/-- A range that was handed out. -/
structure HeapRange where
  start : Nat
  size : Nat
  /-- The region it was taken from. -/
  region : Nat

/-- The address behind a range. -/
def HeapRange.stop (g : HeapRange) : Nat := g.start + g.size

/-- The heap and its ranges, in order. -/
structure Growth where
  state : SbrkState := {}
  ranges : List HeapRange := []
  /-- A request has failed. -/
  failed : Bool := false

/-- One request. -/
def Growth.step (l : RamLayout) (h : Growth) (incr : BitVec 32) : Option Growth :=
  match eluaSbrk l incr h.state with
  | (none, state)       => some { h with state, failed := true }
  | (some start, state) =>
    some { h with state, ranges := h.ranges ++ [⟨start, incr.toNat, state.memIndex⟩] }

/-- No range is from the region with this number. -/
def Growth.Unused (h : Growth) (i : Nat) : Prop := ∀ g ∈ h.ranges, g.region ≠ i

/-- So many bytes fit in what is free in the region in use, the one that the last range is from, or
in a region that is not yet used, wherever this stands in the list. -/
def Growth.Fits (l : RamLayout) (h : Growth) (n : Nat) : Prop :=
  (∃ g r, h.ranges.getLast? = some g ∧ l.regions[g.region]? = some r ∧ g.stop + n ≤ r.last) ∨
    ∃ i r, l.regions[i]? = some r ∧ h.Unused i ∧ r.first + n ≤ r.last

/-- The ranges are inside of the regions and disjoint. Once a request has failed, every request
that fits in the region in use or in one that is not yet used will succeed. -/
structure Growth.Grows (l : RamLayout) (h : Growth) : Prop where
  inside : ∀ g ∈ h.ranges, ∃ r, l.regions[g.region]? = some r ∧ r.first ≤ g.start ∧ g.stop ≤ r.last
  disjoint : h.ranges.Pairwise fun a b => a.stop ≤ b.start ∨ b.stop ≤ a.start
  serves : h.failed = true → ∀ incr : BitVec 32, 0 ≤ incr.toInt → h.Fits l incr.toNat →
    (eluaSbrk l incr h.state).1 ≠ none

/-- There is a region for the request, and the addresses in front of it stay below 2^32. The number
of the region and the address behind the request there meet `P`. -/
def Served (n : Nat) (P : Nat → Nat → Prop) : List Ram → SbrkState → Prop
  | [],      _ => False
  | r :: rs, s =>
    startIn r s + n ≤ r.last ∧ P s.memIndex (startIn r s + n) ∨
      r.last < startIn r s + n ∧ startIn r s + n < 2 ^ 32 ∧
        Served n P rs { heapPtr := 0, memIndex := s.memIndex + 1 }

/-- With the heap at this address of region `c`, no room was lost: a region in front of `c` that no
range is from has no more space than is free in `c`, or than a region behind it has. -/
def Growth.KeepsRoom (l : RamLayout) (h : Growth) (c addr : Nat) : Prop :=
  ∀ i < c, ∀ r, l.regions[i]? = some r → h.Unused i →
    (∃ rc, l.regions[c]? = some rc ∧ addr + (r.last - r.first) ≤ rc.last) ∨
      ∃ rb ∈ l.regions.drop (c + 1), rb.first + (r.last - r.first) ≤ rb.last

/-- The request is negative, or it is served; or there is no memory at all. -/
def Growth.Fitting (l : RamLayout) (h : Growth) (incr : BitVec 32) : Prop :=
  incr.toInt < 0 ∨ l.regions = [] ∨
    Served incr.toNat (fun _ _ => True) (l.regions.drop h.state.memIndex) h.state

/-- The same, and no room is lost from the first failure on: a negative request fails, so none may
be lost there, and a request after a failure loses none. -/
def Growth.Modest (l : RamLayout) (h : Growth) (incr : BitVec 32) : Prop :=
  incr.toInt < 0 ∧ h.KeepsRoom l h.state.memIndex h.state.heapPtr ∨
    0 ≤ incr.toInt ∧ (l.regions = [] ∨
      Served incr.toNat (fun c addr => h.failed = true → h.KeepsRoom l c addr)
        (l.regions.drop h.state.memIndex) h.state)

end Alcor.Newlib
