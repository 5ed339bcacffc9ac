import Alcor.Flash.Driver

/-!
# `Alcor.Proofs.Flash.Driver`: the internal flash

The sector map is right, and a write stores what it is given.

* `findSectorLoop_eq` and `flashhFindSector_eq`: the loop over the sizes
  stops at the sector of the address. `flashh_find_sector_tiles` adds
  that the sectors tile the flash, and where the first free block is.
* `Wrote` is a run of writes of the device, and `Wrote.then` joins two.
  `wrote_part` is a run inside a unit, `wrote_units` a run of whole
  units and `wrote_blocks` what they come to from an aligned address on.
* `platformFlashWrite_stores` is the whole function, for every write
  unit, address and size.
-/

set_option autoImplicit false

/-!
## The sector map is right

`flashhFindSector_eq` says what `flashh_find_sector` returns for an
address of sector `k`, with the start and the end that the boundaries
give it. The loop over the sizes is followed from any index that is
not behind the sector: before its end the running total is not past
the address, and at its end it is.
-/

namespace Alcor.Proofs.Flash

open Lib Lib.Pieces Alcor.Flash

variable {conf : Conf} {e k : Nat}

/-! ### Addresses -/

/-- The start of a sector, from its offset. -/
theorem u32_start {start : Nat} (h : start + e < 2 ^ 32) : u32 (e + start) = start + e := by
  rw [Nat.add_comm, u32_of_lt h]

/-- The last address of a sector, from the offset behind it. -/
theorem sub32_last {start : Nat} (h0 : 0 < e) (h : start + e ≤ 2 ^ 32) :
    sub32 (u32 (e + start)) 1 = start + e - 1 := by
  unfold sub32 u32
  omega

/-- The offset of a sector, from the offset behind it and its size. -/
theorem sub32_size {s : Nat} (hs : 0 < s) (h : e + s ≤ 2 ^ 32) : sub32 (u32 (e + s)) s = e := by
  unfold sub32 u32
  omega

/-! ### The search -/

/-- The loop stops with the end of the piece that holds `x`. -/
theorem findSectorLoop_eq {ss : List Nat} (hpos : ∀ s ∈ ss, 0 < s) (hsum : ss.sum ≤ 2 ^ 32)
    {x : Nat} (hk : k < ss.length) (hle : edge ss k ≤ x) (hlt : x < edge ss (k + 1)) {n j : Nat}
    (hj : j + n = k + 1) :
    findSectorLoop x (ss.drop j) (u32 (edge ss j)) j = (u32 (edge ss (k + 1)), k + 1) := by
  induction n generalizing j with
  | zero =>
    obtain rfl : j = k + 1 := by omega
    rcases Nat.lt_or_ge (k + 1) ss.length with hlast | hlast
    · -- There is another sector, so the total is below `2 ^ 32` and past the address.
      have hnext := edge_lt_succ hpos hlast
      have hend := edge_le_sum ss (k + 1 + 1)
      rw [List.drop_eq_getElem_cons hlast, findSectorLoop, u32_of_lt (by omega),
        if_neg (by omega)]
    · rw [List.drop_eq_nil_of_le hlast, findSectorLoop]
  | succ n ih =>
    have hjk : j ≤ k := by omega
    have hj' : j < ss.length := by omega
    have hmono := edge_mono ss hjk
    have hend := edge_le_sum ss (k + 1)
    rw [List.drop_eq_getElem_cons hj', findSectorLoop, u32_of_lt (show edge ss j < _ by omega),
      if_pos (by omega), ← edge_succ hj']
    exact ih (by omega)

theorem sizes_uniform {sectorSize : Nat} (h : conf.layout = .uniform sectorSize) :
    conf.sizes = List.replicate (conf.flashSize / sectorSize) sectorSize := by
  unfold Conf.sizes
  rw [h, Layout.sizes]

theorem sizes_array {sectSize : List Nat} (h : conf.layout = .array sectSize) :
    conf.sizes = sectSize := by
  unfold Conf.sizes
  rw [h, Layout.sizes]

/-- What `flashh_find_sector` returns for the addresses of sector `k`. -/
theorem flashhFindSector_eq {address : Nat} (hk : k < conf.sizes.length)
    (hle : conf.boundary k ≤ address) (hlt : address < conf.boundary (k + 1)) :
    flashhFindSector conf address
      = ⟨k, conf.boundary k, conf.boundary (k + 1) - 1⟩ := by
  have hfits := conf.fits
  have hsum : conf.sizes.sum = conf.flashSize := conf.sizes_sum
  have hpos : ∀ s ∈ conf.sizes, 0 < s := conf.sizes_pos
  have hend := edge_le_sum conf.sizes (k + 1)
  unfold Conf.boundary at hle hlt ⊢
  -- The offset of the address in the flash.
  obtain ⟨x, rfl⟩ : ∃ x, address = conf.startAddress + x := ⟨address - conf.startAddress, by omega⟩
  have hx : sub32 (conf.startAddress + x) conf.startAddress = x := by
    unfold sub32 u32
    omega
  unfold flashhFindSector
  rw [hx]
  cases hl : conf.layout with
  | uniform sectorSize =>
    rw [sizes_uniform hl] at hk hle hlt hend hsum hpos ⊢
    rw [List.length_replicate] at hk
    rw [edge_replicate (by omega)] at hle hlt hend ⊢
    rw [edge_replicate (by omega)]
    have hdiv : x / sectorSize = k := by
      have := hpos sectorSize (List.mem_replicate.mpr ⟨by omega, rfl⟩)
      exact Nat.div_eq_of_lt_le (by omega) (by omega)
    simp only [hdiv]
    rw [u32_start (by omega), sub32_last (by omega) (by omega)]
  | array sectSize =>
    rw [sizes_array hl] at hk hle hlt hend hsum hpos ⊢
    have hloop := findSectorLoop_eq hpos (by omega) hk (show _ ≤ x by omega)
      (by omega) (show 0 + (k + 1) = k + 1 by omega)
    have hget : sectSize.getD k 0 = sectSize[k] := by simp [hk]
    have hs := hpos _ (List.getElem_mem hk)
    rw [List.drop_zero, edge_zero, u32_of_lt (by decide)] at hloop
    simp only [hloop, Nat.add_sub_cancel, hget]
    rw [edge_succ hk] at hlt hend ⊢
    rw [sub32_size hs (by omega), u32_start (by omega)]
    -- The total may be `2 ^ 32` here, so it is reduced twice.
    rw [show u32 (u32 (edge sectSize k + sectSize[k]) + conf.startAddress)
        = u32 (edge sectSize k + sectSize[k] + conf.startAddress) by unfold u32; omega,
      sub32_last (by omega) (by omega)]

/-- Every address inside the flash is in a sector. -/
theorem exists_sector (conf : Conf) {address : Nat} (hle : conf.startAddress ≤ address)
    (hlt : address < conf.startAddress + conf.flashSize) :
    ∃ k, k < conf.sizes.length ∧ conf.boundary k ≤ address ∧ address < conf.boundary (k + 1) := by
  have hsum : conf.sizes.sum = conf.flashSize := conf.sizes_sum
  obtain ⟨k, hk, hk1, hk2⟩ := exists_piece (show address - conf.startAddress < conf.sizes.sum by
    omega)
  unfold Conf.boundary
  exact ⟨k, hk, by omega, by omega⟩

/-- The first free block of an image of `used` bytes is the boundary behind the sector of its
last byte. -/
theorem firstFreeBlock_eq {used : Nat} (h1 : 1 ≤ used) (h2 : used ≤ conf.flashSize) :
    ∃ k, k < conf.sizes.length ∧ conf.boundary k < conf.startAddress + used ∧
      conf.startAddress + used ≤ conf.boundary (k + 1) ∧
      platformFlashGetFirstFreeBlockAddress conf used
        = (u32 (conf.boundary (k + 1)), u32 (k + 1)) := by
  have hfits := conf.fits
  obtain ⟨k, hk, hle, hlt⟩ := exists_sector conf
    (show conf.startAddress ≤ conf.startAddress + used - 1 by omega) (by omega)
  have hlast : sub32 (u32 (u32 used + conf.startAddress)) 1 = conf.startAddress + used - 1 := by
    unfold sub32 u32
    omega
  refine ⟨k, hk, by omega, by omega, ?_⟩
  unfold platformFlashGetFirstFreeBlockAddress
  rw [hlast, flashhFindSector_eq hk hle hlt]
  simp only [show conf.boundary (k + 1) - 1 + 1 = conf.boundary (k + 1) by omega]

/-! ### The map -/

/-- The boundaries follow the order of the sectors. -/
theorem boundary_mono (conf : Conf) {j : Nat} (h : j ≤ k) : conf.boundary j ≤ conf.boundary k := by
  have := edge_mono conf.sizes h
  unfold Conf.boundary
  omega

/-- **The sector map**: the boundaries tile the flash, `flashh_find_sector` returns the only
sector an address is in, with the boundaries of that sector, and the first free block is at the
first boundary that is not inside the image, with the number of the sector that starts there. A
boundary at the very end of the address space is the address 0. -/
theorem flashh_find_sector_tiles (conf : Conf) :
    (conf.boundary 0 = conf.startAddress
      ∧ conf.boundary (platformFlashGetNumSectors conf) = conf.startAddress + conf.flashSize
      ∧ ∀ k < platformFlashGetNumSectors conf, conf.boundary k < conf.boundary (k + 1))
    ∧ (∀ address, conf.startAddress ≤ address → address < conf.startAddress + conf.flashSize →
        ∃ k, k < platformFlashGetNumSectors conf
          ∧ flashhFindSector conf address = ⟨k, conf.boundary k, conf.boundary (k + 1) - 1⟩
          ∧ platformFlashGetSectorOfAddress conf address = k
          ∧ conf.boundary k ≤ address ∧ address ≤ conf.boundary (k + 1) - 1
          ∧ ∀ j < platformFlashGetNumSectors conf,
              conf.boundary j ≤ address → address ≤ conf.boundary (j + 1) - 1 → j = k)
    ∧ (∀ k < platformFlashGetNumSectors conf, ∀ address,
        conf.boundary k ≤ address → address ≤ conf.boundary (k + 1) - 1 →
          flashhFindSector conf address = ⟨k, conf.boundary k, conf.boundary (k + 1) - 1⟩)
    ∧ ∀ used, 1 ≤ used → used ≤ conf.flashSize →
        ∃ k, k ≤ platformFlashGetNumSectors conf
          ∧ platformFlashGetFirstFreeBlockAddress conf used = (u32 (conf.boundary k), u32 k)
          ∧ conf.startAddress + used ≤ conf.boundary k
          ∧ ∀ j ≤ platformFlashGetNumSectors conf,
              conf.startAddress + used ≤ conf.boundary j → k ≤ j := by
  have hsum : conf.sizes.sum = conf.flashSize := conf.sizes_sum
  have hpos : ∀ s ∈ conf.sizes, 0 < s := conf.sizes_pos
  have hlt : ∀ k < conf.sizes.length, conf.boundary k < conf.boundary (k + 1) := by
    intro k hk
    have := edge_lt_succ hpos hk
    unfold Conf.boundary
    omega
  rw [platformFlashGetNumSectors_eq]
  refine ⟨⟨?_, ?_, hlt⟩, ?_, ?_, ?_⟩
  · rw [Conf.boundary, edge_zero, Nat.add_zero]
  · rw [Conf.boundary, edge_length, hsum]
  · intro address hstart hend
    obtain ⟨k, hk, hk1, hk2⟩ := exists_sector conf hstart hend
    have heq := flashhFindSector_eq hk hk1 hk2
    refine ⟨k, hk, heq, by rw [platformFlashGetSectorOfAddress, heq], hk1, by omega, ?_⟩
    intro j hj hj1 hj2
    have := hlt j hj
    unfold Conf.boundary at hj1 hj2 hk1 hk2 this
    exact piece_unique conf.sizes (address - conf.startAddress) (by omega) (by omega) (by omega)
      (by omega)
  · intro k hk address hk1 hk2
    have := hlt k hk
    exact flashhFindSector_eq hk hk1 (by omega)
  · intro used h1 h2
    obtain ⟨k, hk, hbefore, hafter, heq⟩ := firstFreeBlock_eq h1 h2
    refine ⟨k + 1, hk, heq, hafter, ?_⟩
    intro j _ hj
    -- An earlier boundary is inside the image.
    by_contra hlt'
    have := boundary_mono conf (show j ≤ k by omega)
    omega

end Alcor.Proofs.Flash

/-!
## Unaligned writes to the internal flash

The first unit, the whole units and the last unit of a write store runs
of bytes one behind the other. What is around them in the first and the
last unit is written back as it was, so the runs join to the given bytes
at the given address (`Wrote.then`).
-/

namespace Alcor.Proofs.Flash

open Lib (Mem Space)
open Alcor.Flash

variable {a : BitVec 32}

/-! ### Units -/

section Masks
variable (unit : WriteUnit)

theorem bytes_pos : 0 < unit.bytes := Nat.two_pow_pos _

theorem bytes_lt : unit.bytes < 2 ^ 32 := Nat.pow_lt_pow_right (by decide) unit.fits

theorem bytes_dvd : unit.bytes ∣ 2 ^ 32 := Nat.pow_dvd_pow 2 (Nat.le_of_lt unit.fits)

@[simp] theorem blksize_toNat : unit.blksize.toNat = unit.bytes := by
  rw [WriteUnit.blksize, BitVec.toNat_ofNat, Nat.mod_eq_of_lt (bytes_lt unit)]

theorem blkmask_toNat : unit.blkmask.toNat = unit.bytes - 1 := by
  have hpos := bytes_pos unit
  have hlt := bytes_lt unit
  have hone : (1 : BitVec 32).toNat = 1 := rfl
  rw [WriteUnit.blkmask, BitVec.toNat_sub, blksize_toNat, hone]
  omega

/-- The offset in a unit. -/
@[simp] theorem and_blkmask (x : BitVec 32) :
    (x &&& unit.blkmask).toNat = x.toNat % unit.bytes := by
  rw [BitVec.toNat_and, blkmask_toNat, WriteUnit.bytes, Nat.and_two_pow_sub_one_eq_mod]

/-- The start of a unit. -/
@[simp] theorem and_not_blkmask (x : BitVec 32) :
    (x &&& ~~~unit.blkmask).toNat = x.toNat - x.toNat % unit.bytes := by
  have hsplit : (x &&& unit.blkmask) + (x &&& ~~~unit.blkmask) = x := by
    rw [BitVec.add_eq_or_of_and_eq_zero]
    · ext i
      simp [← Bool.and_or_distrib_left]
    · ext i
      simp
      grind
  have hle : (x &&& ~~~unit.blkmask).toNat ≤ x.toNat := by
    rw [BitVec.toNat_and]
    exact Nat.and_le_left
  have hmod := Nat.mod_le x.toNat unit.bytes
  have hx := x.isLt
  have hsum := congrArg BitVec.toNat hsplit
  rw [BitVec.toNat_add, and_blkmask] at hsum
  omega

theorem and_blkmask_eq_zero {x : BitVec 32} :
    x &&& unit.blkmask = 0 ↔ x.toNat % unit.bytes = 0 := by
  rw [← and_blkmask, ← BitVec.toNat_inj]
  rfl

end Masks

/-! ### The copy loops -/

/-- What a copy loop does to `tmpdata`. -/
theorem copyLoop_eq (src : Mem) (n : Nat) :
    ∀ (i : Nat) (c : Copy), i + n ≤ c.tmpdata.length →
      copyLoop src n i c =
        ⟨c.tmpdata.take i ++ src.read c.pfrom (min n c.size.toNat) ++
          c.tmpdata.drop (i + min n c.size.toNat),
          c.size - BitVec.ofNat 32 (min n c.size.toNat), c.pfrom + min n c.size.toNat⟩ := by
  induction n with
  | zero => simp [copyLoop]
  | succ n ih =>
    intro i c hlen
    -- the loop stops at the end of the unit or at the end of the data
    by_cases hsize : c.size = 0
    · obtain ⟨tmpdata, size, pfrom⟩ := c
      obtain rfl : size = 0 := hsize
      simp [copyLoop]
    · have hpos : c.size.toNat ≠ 0 := fun h => hsize (BitVec.eq_of_toNat_eq h)
      have hdec : (c.size - 1).toNat = c.size.toNat - 1 := by
        have hone : (1 : BitVec 32).toNat = 1 := rfl
        have hlt := c.size.isLt
        rw [BitVec.toNat_sub, hone]
        omega
      rw [copyLoop, if_neg hsize, ih _ _ (by rw [List.length_set]; omega)]
      obtain ⟨m, hm, hm'⟩ : ∃ m, min n (c.size - 1).toNat = m ∧
          min (n + 1) c.size.toNat = m + 1 := ⟨_, rfl, by omega⟩
      have hi : i < c.tmpdata.length := by omega
      simp only [hm, hm', Copy.mk.injEq]
      refine ⟨?_, ?_, by omega⟩
      · rw [Mem.read_succ, List.take_add_one, List.take_set_of_le (Nat.le_refl i),
          List.getElem?_set_self hi, List.drop_set_of_lt (by omega),
          show i + 1 + m = i + (m + 1) by omega]
        simp
      · rw [Nat.add_comm m 1, BitVec.ofNat_add, BitVec.sub_sub]
        rfl

/-! ### Runs of bytes -/

/-- The driver has been called for whole units, and the bytes from `p` on are at `a`. -/
structure Wrote (unit : WriteUnit) (src : Mem) (a : BitVec 32) (p n : Nat)
    (dev dev' : Device) : Prop where
  mem : dev'.mem = dev.mem.store a (src.read p n)
  calls : ∃ calls, dev'.calls = dev.calls ++ calls ∧
    ∀ c ∈ calls, c.toaddr.toNat % unit.bytes = 0 ∧ c.size.toNat % unit.bytes = 0

variable {unit : WriteUnit} {src : Mem}

theorem Wrote.nothing (a : BitVec 32) (p : Nat) (dev : Device) : Wrote unit src a p 0 dev dev :=
  ⟨by simp, [], by simp⟩

/-- One run behind the other is one run. -/
theorem Wrote.then {p n k : Nat} {dev dev₁ dev₂ : Device} (h : Wrote unit src a p n dev dev₁)
    (h' : Wrote unit src (a + BitVec.ofNat 32 n) (p + n) k dev₁ dev₂) (hfits : n + k ≤ 2 ^ 32) :
    Wrote unit src a p (n + k) dev dev₂ := by
  obtain ⟨calls, hcalls, haligned⟩ := h.calls
  obtain ⟨calls', hcalls', haligned'⟩ := h'.calls
  refine ⟨?_, calls ++ calls', ?_, ?_⟩
  · have hjoin := dev.mem.store_append a (src.read p n) (src.read (p + n) k)
      (by rw [Mem.length_read, Mem.length_read]; exact hfits)
    rw [Mem.length_read] at hjoin
    rw [h'.mem, h.mem, hjoin, ← Mem.read_add]
  · rw [hcalls', hcalls, List.append_assoc]
  · intro c hc
    exact (List.mem_append.mp hc).elim (haligned c) (haligned' c)

/-- A run of whole units. -/
theorem wrote_units {size : BitVec 32} (p : Nat) (dev : Device) (ha : a.toNat % unit.bytes = 0)
    (hsize : size.toNat % unit.bytes = 0) :
    Wrote unit src a p size.toNat dev
      (platformSFlashWrite (src.read p size.toNat) a size dev) := by
  refine ⟨?_, [⟨a, size⟩], rfl, ?_⟩
  · rw [platformSFlashWrite, List.take_of_length_le (Nat.le_of_eq (Mem.length_read _ _ _))]
  · intro c hc
    rw [List.mem_singleton] at hc
    exact hc ▸ ⟨ha, hsize⟩

/-- A run inside a unit: what is around it is written back. -/
theorem wrote_part {temp : BitVec 32} (rest p n : Nat) (dev : Device)
    (hn : rest + n ≤ unit.bytes) (htemp : temp.toNat % unit.bytes = 0) :
    Wrote unit src (temp + BitVec.ofNat 32 rest) p n dev
      (platformSFlashWrite ((dev.mem.read temp unit.bytes).take rest ++ src.read p n ++
        (dev.mem.read temp unit.bytes).drop (rest + n)) temp unit.blksize dev) := by
  have hlt := bytes_lt unit
  refine ⟨?_, [⟨temp, unit.blksize⟩], rfl, ?_⟩
  · -- the unit that was read goes back where it was, around the new bytes
    have htail := dev.mem.store_append_read temp (dev.mem.read temp rest ++ src.read p n)
      (unit.bytes - (rest + n)) (by
        rw [List.length_append, Space.length_read, Mem.length_read]
        omega)
    rw [List.length_append, Space.length_read, Mem.length_read] at htail
    rw [platformSFlashWrite, Space.take_read _ _ (by omega), Space.drop_read,
      List.take_of_length_le (by simp; omega), htail,
      dev.mem.store_read_append temp rest _ (by rw [Mem.length_read]; omega)]
  · intro c hc
    rw [List.mem_singleton] at hc
    subst hc
    exact ⟨htemp, by rw [blksize_toNat, Nat.mod_self]⟩

/-! ### The function -/

/-- An address that is a number of units further. -/
theorem aligned_add {b : BitVec 32} (ha : a.toNat % unit.bytes = 0)
    (hb : b.toNat % unit.bytes = 0) : (a + b).toNat % unit.bytes = 0 := by
  rw [BitVec.toNat_add, Nat.mod_mod_of_dvd _ (bytes_dvd unit), Nat.add_mod, ha, hb]
  exact Nat.zero_mod _

/-- From an aligned address on: whole units, and the rest in one more. -/
theorem wrote_blocks {size : BitVec 32} (p : Nat) (dev : Device) (ha : a.toNat % unit.bytes = 0) :
    Wrote unit src a p size.toNat dev (writeBlocks unit src a size p dev) := by
  have hlt := size.isLt
  have hrest := and_blkmask unit size
  have htemp := and_not_blkmask unit size
  have hmod := Nat.mod_lt size.toNat (bytes_pos unit)
  have hle := Nat.mod_le size.toNat unit.bytes
  unfold writeBlocks
  generalize hr : size &&& unit.blkmask = rest at hrest
  generalize ht : size &&& ~~~unit.blkmask = temp at htemp
  have hunits : temp.toNat % unit.bytes = 0 := by
    rw [htemp]
    exact Nat.mod_eq_zero_of_dvd (Nat.dvd_sub_mod _)
  -- the whole units, if there are any
  obtain ⟨dev₁, hdev₁, hwrote⟩ : ∃ dev₁, (if temp = 0 then dev
      else platformSFlashWrite (src.read p temp.toNat) a temp dev) = dev₁ ∧
        Wrote unit src a p temp.toNat dev dev₁ := by
    refine ⟨_, rfl, ?_⟩
    split
    · next h =>
        rw [h]
        exact .nothing a p dev
    · exact wrote_units p dev ha hunits
  have hnext : (if temp = 0 then a else a + temp) = a + BitVec.ofNat 32 temp.toNat := by
    rw [BitVec.ofNat_toNat, BitVec.setWidth_eq]
    split
    · next h => exact h ▸ (BitVec.add_zero a).symm
    · rfl
  have hfrom : (if temp = 0 then p else p + temp.toNat) = p + temp.toNat := by
    split
    · next h =>
        rw [h]
        rfl
    · rfl
  simp only [hdev₁, hnext, hfrom]
  have hsplit : temp.toNat + rest.toNat = size.toNat := by omega
  split
  · next h =>
      have hzero : rest.toNat = 0 := by
        rw [h]
        rfl
      rw [← hsplit, hzero]
      exact hwrote
  · rw [← hsplit]
    have haligned : (a + BitVec.ofNat 32 temp.toNat).toNat % unit.bytes = 0 := by
      rw [BitVec.ofNat_toNat, BitVec.setWidth_eq]
      exact aligned_add ha hunits
    have hpart := @wrote_part unit src (a + BitVec.ofNat 32 temp.toNat) 0
      (p + temp.toNat) rest.toNat dev₁ (by omega) haligned
    refine hwrote.then ?_ (by omega)
    rw [copyLoop_eq src rest.toNat 0 _ (by simp; omega)]
    have hmin : min rest.toNat size.toNat = rest.toNat := by omega
    simpa [hmin] using hpart

/-- **Unaligned writes**: for every write unit, address and size, over
the end of the address space if need be, all of it is written: the
bytes of the caller are at the address, and nothing else changes. The
driver is called for whole units at their boundaries only. The head,
the units in the middle and the tail are written one after the other. -/
theorem platformFlashWrite_stores (unit : WriteUnit) (src : Mem) (toaddr size : BitVec 32)
    (dev : Device) :
    (platformFlashWrite unit src toaddr size dev).1 = size ∧
      Wrote unit src toaddr 0 size.toNat dev (platformFlashWrite unit src toaddr size dev).2 := by
  have hlt := size.isLt
  unfold platformFlashWrite
  split
  · next h => exact ⟨rfl, wrote_blocks 0 dev ((and_blkmask_eq_zero unit).mp h)⟩
  · have hrest := and_blkmask unit toaddr
    have htemp := and_not_blkmask unit toaddr
    have hmod := Nat.mod_lt toaddr.toNat (bytes_pos unit)
    have hle := Nat.mod_le toaddr.toNat unit.bytes
    generalize toaddr &&& unit.blkmask = rest at hrest
    generalize toaddr &&& ~~~unit.blkmask = temp at htemp
    have haligned : temp.toNat % unit.bytes = 0 := by
      rw [htemp]
      exact Nat.mod_eq_zero_of_dvd (Nat.dvd_sub_mod _)
    have hstart : temp + BitVec.ofNat 32 rest.toNat = toaddr := by
      apply BitVec.eq_of_toNat_eq
      have := toaddr.isLt
      rw [BitVec.toNat_add, BitVec.toNat_ofNat]
      omega
    -- the first unit
    obtain ⟨n, hn⟩ : ∃ n, n = min (unit.bytes - rest.toNat) size.toNat := ⟨_, rfl⟩
    have hpart := @wrote_part unit src temp rest.toNat 0 n dev (by omega) haligned
    rw [hstart] at hpart
    simp only [blksize_toNat]
    rw [copyLoop_eq src _ _ _ (by simp; omega)]
    simp only [← hn, Nat.zero_add]
    have hleft : (size - BitVec.ofNat 32 n).toNat = size.toNat - n := by
      rw [BitVec.toNat_sub, BitVec.toNat_ofNat]
      omega
    split
    · next h =>
        have hall : size.toNat = n := by
          rw [h] at hleft
          have hzero : (0 : BitVec 32).toNat = 0 := rfl
          omega
        exact ⟨rfl, hall ▸ hpart⟩
    · next h =>
        -- the write goes on at the next unit
        have hmore : n < size.toNat := by
          by_contra hge
          exact h (BitVec.eq_of_toNat_eq (hleft.trans (Nat.sub_eq_zero_of_le (Nat.not_lt.mp hge))))
        have hnext : temp + unit.blksize = toaddr + BitVec.ofNat 32 n := by
          rw [← hstart, BitVec.add_assoc, ← BitVec.ofNat_add, WriteUnit.blksize]
          congr 2
          omega
        have hblocks := @wrote_blocks _ unit src (size - BitVec.ofNat 32 n) (0 + n)
          (platformSFlashWrite ((dev.mem.read temp unit.bytes).take rest.toNat ++
            src.read 0 n ++ (dev.mem.read temp unit.bytes).drop (rest.toNat + n)) temp unit.blksize
            dev) (aligned_add haligned (by rw [blksize_toNat, Nat.mod_self]))
        rw [hleft, Nat.zero_add, hnext] at hblocks
        have hjoin := hpart.then (by rw [Nat.zero_add]; exact hblocks) (by omega)
        rw [Nat.add_sub_cancel' (Nat.le_of_lt hmore)] at hjoin
        refine ⟨rfl, ?_⟩
        rw [hnext]
        exact hjoin

end Alcor.Proofs.Flash
