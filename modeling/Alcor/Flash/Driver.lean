import Alcor.Lib.Memory
import Alcor.Lib.Pieces
import Alcor.Lib.Space

/-!
# `Alcor.Flash.Driver`: the internal flash

The flash support functions of `src/common.c`: its sectors and writes to
it.

* `flashhFindSector`, `platformFlashGetFirstFreeBlockAddress`: the sector
  of an address, and the first one behind the image.
* `platformFlashWrite`: a write of any size at any address, by writes of
  whole units.
-/

set_option autoImplicit false

/-!
## The sectors of the internal flash

The flash support functions of `src/common.c` that know the sectors:
`flashh_find_sector` and the `platform_flash_*` functions over it. A
platform either has sectors of one size, `INTERNAL_FLASH_SECTOR_SIZE`,
or lists the size of each in `INTERNAL_FLASH_SECTOR_ARRAY`. All of the
arithmetic is unsigned and of 32 bits.
-/

namespace Alcor.Flash

open Lib

/-- How `platform_conf.h` describes the sectors. -/
inductive Layout where
  /-- `INTERNAL_FLASH_SECTOR_SIZE` -/
  | uniform (sectorSize : Nat)
  /-- `INTERNAL_FLASH_SECTOR_ARRAY` -/
  | array (sectSize : List Nat)

/-- The sizes of the sectors of a flash of `flashSize` bytes. -/
def Layout.sizes (flashSize : Nat) : Layout → List Nat
  | .uniform sectorSize => List.replicate (flashSize / sectorSize) sectorSize
  | .array sectSize     => sectSize

/-- The internal flash of a platform: whole sectors, none of them empty, in the 32-bit address
space. -/
structure Conf where
  /-- `INTERNAL_FLASH_START_ADDRESS` -/
  startAddress : Nat
  /-- `INTERNAL_FLASH_SIZE` -/
  flashSize : Nat
  layout : Layout
  sizes_pos : ∀ s ∈ layout.sizes flashSize, 0 < s
  sizes_sum : (layout.sizes flashSize).sum = flashSize
  fits : startAddress + flashSize ≤ 2 ^ 32

namespace Conf

/-- The sizes of the sectors. -/
def sizes (conf : Conf) : List Nat := conf.layout.sizes conf.flashSize

/-- The address sector `k` starts at, and sector `k - 1` ends before. -/
def boundary (conf : Conf) (k : Nat) : Nat := conf.startAddress + Pieces.edge conf.sizes k

end Conf

/-- What `flashh_find_sector` returns: the number of the sector, `*pstart` and `*pend`. -/
structure Sector where
  sect : Nat
  start : Nat
  last : Nat
deriving DecidableEq

/-- The loop of `flashh_find_sector` over the sizes from index `i` on: `total` and `i` when it
ends. -/
def findSectorLoop (address : Nat) : List Nat → Nat → Nat → Nat × Nat
  | [],      total, i => (total, i)
  | s :: ss, total, i =>
    if total ≤ address then findSectorLoop address ss (u32 (total + s)) (i + 1)
    else (total, i)

/-- Find the flash sector in which an address resides. -/
def flashhFindSector (conf : Conf) (address : Nat) : Sector :=
  let address := sub32 address conf.startAddress
  match conf.layout with
  | .uniform sectorSize =>
    -- All the sectors have the same size, so just align the address.
    let sectId := address / sectorSize
    ⟨sectId, u32 (sectId * sectorSize + conf.startAddress),
      sub32 (u32 ((sectId + 1) * sectorSize + conf.startAddress)) 1⟩
  | .array sectSize =>
    let (total, i) := findSectorLoop address sectSize 0 0
    ⟨i - 1, u32 (sub32 total (sectSize.getD (i - 1) 0) + conf.startAddress),
      sub32 (u32 (total + conf.startAddress)) 1⟩

/-- The sector of an address. -/
def platformFlashGetSectorOfAddress (conf : Conf) (addr : Nat) : Nat :=
  (flashhFindSector conf addr).sect

/-- The number of sectors. -/
def platformFlashGetNumSectors (conf : Conf) : Nat :=
  match conf.layout with
  | .uniform sectorSize => conf.flashSize / sectorSize
  | .array sectSize     => sectSize.length

/-- Round the used size of the flash up to the next sector: its address, and its number in
`*psect`. -/
def platformFlashGetFirstFreeBlockAddress (conf : Conf) (flashUsedSize : Nat) : Nat × Nat :=
  let r := flashhFindSector conf (sub32 (u32 (u32 flashUsedSize + conf.startAddress)) 1)
  (u32 (r.last + 1), u32 (r.sect + 1))

theorem platformFlashGetNumSectors_eq (conf : Conf) :
    platformFlashGetNumSectors conf = conf.sizes.length := by
  unfold platformFlashGetNumSectors Conf.sizes Layout.sizes
  cases conf.layout with
  | uniform sectorSize => rw [List.length_replicate]
  | array sectSize => rfl

end Alcor.Flash

/-!
## Writes to the internal flash

`platform_flash_write` of `src/common.c` on a platform with a
`INTERNAL_FLASH_WRITE_UNIT_SIZE`. A write need not be aligned: the units
at its two ends are read, changed in RAM and written back. The flash is
part of the 32-bit address space.
-/

namespace Alcor.Flash

open Lib (Mem Space)

/-- `INTERNAL_FLASH_WRITE_UNIT_SIZE`, a power of two that an `u32` can hold. -/
structure WriteUnit where
  log : Nat
  fits : log < 32

namespace WriteUnit

/-- The number of bytes. -/
def bytes (unit : WriteUnit) : Nat := 2 ^ unit.log

/-- `blksize`. -/
def blksize (unit : WriteUnit) : BitVec 32 := BitVec.ofNat 32 unit.bytes

/-- `blkmask`. -/
def blkmask (unit : WriteUnit) : BitVec 32 := unit.blksize - 1

end WriteUnit

/-- A call of the platform driver. -/
structure DriverCall where
  toaddr : BitVec 32
  size : BitVec 32
deriving DecidableEq

/-- The address space, and the calls of the driver so far. -/
structure Device where
  mem : Space 32
  calls : List DriverCall

/-- `platform_s_flash_write`: the driver stores the bytes it is given. -/
def platformSFlashWrite (src : List UInt8) (toaddr size : BitVec 32) (dev : Device) : Device :=
  { mem := dev.mem.store toaddr (src.take size.toNat), calls := dev.calls ++ [⟨toaddr, size⟩] }

/-- What the two copy loops change: `tmpdata`, `size`, and how far `pfrom` is. -/
structure Copy where
  tmpdata : List UInt8
  size : BitVec 32
  pfrom : Nat

/-- The two copy loops, with so many bytes of `tmpdata` from `i` on. -/
def copyLoop (src : Mem) : Nat → Nat → Copy → Copy
  | 0,     _, c => c
  | n + 1, i, c =>
    if c.size = 0 then c
    else copyLoop src n (i + 1) ⟨c.tmpdata.set i (src c.pfrom), c.size - 1, c.pfrom + 1⟩

/-- The part of `platform_flash_write` for a `toaddr` that is aligned. -/
def writeBlocks (unit : WriteUnit) (src : Mem) (toaddr size : BitVec 32) (pfrom : Nat)
    (dev : Device) : Device :=
  let rest := size &&& unit.blkmask
  let temp := size &&& ~~~unit.blkmask
  let dev := if temp = 0 then dev
    else platformSFlashWrite (src.read pfrom temp.toNat) toaddr temp dev
  let toaddr := if temp = 0 then toaddr else toaddr + temp
  let pfrom := if temp = 0 then pfrom else pfrom + temp.toNat
  if rest = 0 then dev
  else
    let tmpdata := dev.mem.read toaddr unit.blksize.toNat
    let c := copyLoop src rest.toNat 0 ⟨tmpdata, size, pfrom⟩
    platformSFlashWrite c.tmpdata toaddr unit.blksize dev

/-- `platform_flash_write`: what it returns, and the device after it. -/
def platformFlashWrite (unit : WriteUnit) (src : Mem) (toaddr size : BitVec 32) (dev : Device) :
    BitVec 32 × Device :=
  if toaddr &&& unit.blkmask = 0 then (size, writeBlocks unit src toaddr size 0 dev)
  else
    let rest := toaddr &&& unit.blkmask
    let temp := toaddr &&& ~~~unit.blkmask
    let tmpdata := dev.mem.read temp unit.blksize.toNat
    let c := copyLoop src (unit.blksize.toNat - rest.toNat) rest.toNat ⟨tmpdata, size, 0⟩
    let dev := platformSFlashWrite c.tmpdata temp unit.blksize dev
    if c.size = 0 then (size, dev)
    else (size, writeBlocks unit src (temp + unit.blksize) c.size c.pfrom dev)

end Alcor.Flash
