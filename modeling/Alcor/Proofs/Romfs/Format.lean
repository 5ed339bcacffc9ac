import Alcor.Proofs.Flash.Driver
import Alcor.Proofs.Romfs.PowerLoss
import Alcor.Romfs.System

/-!
# `Alcor.Proofs.Romfs.Format`: what `wofs_format` erases

`wofs_format` erases the sectors from the first one of the WOFS to the
one that holds the end of the directory. So it erases all programmed
bytes if and only if the end that the lookup finds is not in a sector
before one of them.

After a run in which unfinished files hold no contents but blank bytes,
the lookup finds the end of the records, and nothing is programmed
behind it. The contents of an unfinished file mislead the lookup.

* `formatErases_iff`: for every memory, formatting erases the WOFS iff
  the end of the directory is in no sector before a programmed byte.
* `format_erases`: formatting erases the WOFS after every run in which
  unfinished files hold blank bytes only.
* `not_always_erased`: a run after which the lookup stops at the first
  byte of an unfinished file, and the next sector is not erased.
-/

set_option autoImplicit false

namespace Alcor.Proofs.Romfs

open Lib
open Alcor.Flash Alcor.Romfs Alcor.Proofs.Flash

variable {m m' : Mem} {s k last n : Nat} {ok : Nat → Bool}

/-! ### Where the WOFS is -/

/-- There are no more sectors than bytes. -/
theorem sectors_le (conf : Conf) (hk : k ≤ conf.sizes.length) : k ≤ Pieces.edge conf.sizes k := by
  induction k with
  | zero => exact Nat.zero_le _
  | succ k ih =>
    have hlt := Pieces.edge_lt_succ conf.sizes_pos (show k < conf.sizes.length from hk)
    have hle := ih (by omega)
    unfold Conf.sizes at hle ⊢
    omega

section Device
variable {dev : InternalFlash}

/-- The WOFS starts at a boundary, and goes on to the end of the flash. -/
theorem wofs_starts (dev : InternalFlash) :
    ∃ k, k < dev.conf.sizes.length ∧ dev.sectFirst = k ∧ dev.pbase = dev.conf.boundary k ∧
      dev.conf.startAddress ≤ dev.pbase ∧
      dev.pbase + dev.maxSize = dev.conf.startAddress + dev.conf.flashSize := by
  have hfits := dev.conf.fits
  have hsum : dev.conf.sizes.sum = dev.conf.flashSize := dev.conf.sizes_sum
  have hused := dev.used_pos
  have hroom := dev.room
  have hend : ∀ k, dev.conf.boundary k ≤ dev.conf.startAddress + dev.conf.flashSize := by
    intro k
    have := Pieces.edge_le_sum dev.conf.sizes k
    unfold Conf.boundary
    omega
  have hused_le : dev.flashUsedSize ≤ dev.conf.flashSize := by
    have := hend (dev.conf.sizes.length - 1)
    omega
  obtain ⟨k, hk, hbefore, hbehind, hfirst⟩ := firstFreeBlock_eq dev.used_pos hused_le
  -- The sector after the image is not behind the last one.
  have hnext : k + 1 < dev.conf.sizes.length := by
    by_contra hlast
    have := boundary_mono dev.conf (show dev.conf.sizes.length - 1 ≤ k by omega)
    omega
  have hlt : Pieces.edge dev.conf.sizes (k + 1) < Pieces.edge dev.conf.sizes (k + 1 + 1) :=
    Pieces.edge_lt_succ dev.conf.sizes_pos hnext
  have hle := sectors_le dev.conf (Nat.le_of_lt hnext)
  have hbound := hend (k + 1 + 1)
  have hpbase : dev.pbase = dev.conf.boundary (k + 1) := by
    rw [InternalFlash.pbase, hfirst]
    unfold Conf.boundary at hbound ⊢
    exact u32_of_lt (by omega)
  refine ⟨k + 1, hnext, ?_, hpbase, ?_, ?_⟩
  · rw [InternalFlash.sectFirst, hfirst]
    unfold Conf.boundary at hbound
    exact u32_of_lt (by omega)
  · rw [hpbase]
    unfold Conf.boundary
    omega
  · have hfirst_le := hend (k + 1)
    unfold InternalFlash.maxSize sub32 u32
    rw [hpbase]
    unfold Conf.boundary at hfirst_le hbound ⊢
    omega

/-- Addresses of the flash are in one sector, and follow the order of the sectors. -/
theorem sector_le {conf : Conf} {j x y : Nat} (hj : conf.boundary j ≤ x)
    (hk : y < conf.boundary (k + 1)) (hxy : x ≤ y) : j ≤ k := by
  by_contra hlt
  have := boundary_mono conf (show k + 1 ≤ j by omega)
  omega

/-! ### The loop -/

/-- A sector that is erased is blank, and nothing else changes. -/
theorem erased_sector (h : dev.platformFlashEraseSector ok s m = some m') (x : Nat) :
    m' x = if dev.conf.boundary s ≤ x ∧ x < dev.conf.boundary (s + 1) then 0xFF else m x := by
  unfold InternalFlash.platformFlashEraseSector at h
  split at h
  · rw [← Option.some.inj h]
  · cases h

/-- One pass that does not end the formatting with an error. -/
theorem wofsFormatBody_cases
    (h : Loop.run (dev.wofsFormatBody ok last) (n + 1) (s, m) = some (true, m')) :
    (last < s ∧ m' = m) ∨
    (s ≤ last ∧ ∃ m₁, dev.platformFlashEraseSector ok s m = some m₁ ∧
      Loop.run (dev.wofsFormatBody ok last) n (u32 (s + 1), m₁) = some (true, m')) := by
  by_cases hs : s ≤ last
  · refine .inr ⟨hs, ?_⟩
    cases he : dev.platformFlashEraseSector ok s m with
    | none =>
      have hbody : dev.wofsFormatBody ok last (s, m) = .inl (false, m) := by
        simp [InternalFlash.wofsFormatBody, hs, he]
      rw [Loop.run_succ_of_inl hbody] at h
      simp at h
    | some m₁ =>
      have hbody : dev.wofsFormatBody ok last (s, m) = .inr (u32 (s + 1), m₁) := by
        simp [InternalFlash.wofsFormatBody, hs, he]
      rw [Loop.run_succ_of_inr hbody] at h
      exact ⟨m₁, rfl, h⟩
  · have hbody : dev.wofsFormatBody ok last (s, m) = .inl (true, m) := by
      simp [InternalFlash.wofsFormatBody, hs]
    rw [Loop.run_succ_of_inl hbody] at h
    simp only [Option.some.injEq, Prod.mk.injEq, true_and] at h
    exact .inl ⟨by omega, h.symm⟩

/-- When the loop succeeds, the sectors from the first to the last are blank, and what was blank
before still is. -/
theorem run_erases (h : Loop.run (dev.wofsFormatBody ok last) n (s, m) = some (true, m')) :
    (∀ x, m x = 0xFF → m' x = 0xFF) ∧
    ∀ j, s ≤ j → j ≤ last → j < 2 ^ 32 → ∀ x, dev.conf.boundary j ≤ x →
      x < dev.conf.boundary (j + 1) → m' x = 0xFF := by
  induction n generalizing s m with
  | zero => simp at h
  | succ n ih =>
    obtain ⟨hdone, rfl⟩ | ⟨hs, m₁, he, hrest⟩ := wofsFormatBody_cases h
    · exact ⟨fun x hx => hx, fun j hj hlast => by omega⟩
    · -- later passes do not write to the sector again, except to erase it
      obtain ⟨hkeeps, herases⟩ := ih hrest
      refine ⟨?_, ?_⟩
      · intro x hx
        refine hkeeps x ?_
        rw [erased_sector he, hx, ite_self]
      · intro j hj hlast hlt x hle hx
        rcases Nat.eq_or_lt_of_le hj with rfl | hj
        · refine hkeeps x ?_
          rw [erased_sector he, if_pos ⟨hle, hx⟩]
        · exact herases j (by rw [u32_of_lt (by omega)]; omega) hlast hlt x hle hx

/-- The loop changes nothing in the other sectors. -/
theorem run_keeps (h : Loop.run (dev.wofsFormatBody ok last) n (s, m) = some (true, m'))
    {x : Nat} (hx : dev.conf.boundary (last + 1) ≤ x) : m' x = m x := by
  induction n generalizing s m with
  | zero => simp at h
  | succ n ih =>
    obtain ⟨-, rfl⟩ | ⟨hs, m₁, he, hrest⟩ := wofsFormatBody_cases h
    · rfl
    · have := boundary_mono dev.conf (show s + 1 ≤ last + 1 by omega)
      rw [ih hrest, erased_sector he, if_neg (by omega)]

/-- When every erasure succeeds, so does the loop. -/
theorem run_succeeds (dev : InternalFlash) (hlast : last + 1 < 2 ^ 32) (hn : last + 2 ≤ n + s)
    (hpos : 0 < n) (m : Mem) :
    ∃ m', Loop.run (dev.wofsFormatBody (fun _ => true) last) n (s, m) = some (true, m') := by
  induction n generalizing s m with
  | zero => omega
  | succ n ih =>
    by_cases hs : s ≤ last
    · obtain ⟨m', hm'⟩ := ih (s := s + 1) (by omega) (by omega)
        (fun x => if dev.conf.boundary s ≤ x ∧ x < dev.conf.boundary (s + 1) then 0xFF else m x)
      refine ⟨m', ?_⟩
      rw [Loop.run_succ_of_inr (by
        simp only [InternalFlash.wofsFormatBody, InternalFlash.platformFlashEraseSector, hs,
          if_true]
        rw [u32_of_lt (show s + 1 < 2 ^ 32 by omega)])]
      exact hm'
    · exact ⟨m, Loop.run_succ_of_inl (by simp [InternalFlash.wofsFormatBody, hs]) n⟩

/-! ### What formatting erases -/

/-- For every memory: formatting erases the WOFS whenever it succeeds, if and only if the end of
the directory is not in a sector before a programmed byte. -/
theorem formatErases_iff (dev : InternalFlash) (m : Mem) :
    dev.FormatErases m ↔ dev.EndsBehind m := by
  obtain ⟨first, hfirst, hsect, hpbase, hstart, hsize⟩ := wofs_starts dev
  have hfits := dev.conf.fits
  have hsum : dev.conf.sizes.sum = dev.conf.flashSize := dev.conf.sizes_sum
  have hcount : ∀ k ≤ dev.conf.sizes.length, k ≤ 2 ^ 32 := by
    intro k hk
    have hle := sectors_le dev.conf hk
    have := Pieces.edge_le_sum dev.conf.sizes k
    omega
  unfold InternalFlash.FormatErases InternalFlash.EndsBehind InternalFlash.Erased
    InternalFlash.wofsFormat
  rw [platformFlashGetNumSectors_eq]
  constructor
  · intro herases found garbage hfound k hk x hx hle hlt hprog
    by_contra hbefore
    have hlast : dev.sectLast garbage found + 1 < 2 ^ 32 := by
      have := hcount k (by omega)
      have := hcount (k + 1) hk
      omega
    -- if all erasures succeed, the sectors behind the last one are as before
    obtain ⟨m', hrun⟩ := run_succeeds dev hlast
      (show _ ≤ 2 ^ 32 + dev.sectFirst by omega) (by decide) m
    refine hprog ?_
    rw [← run_keeps hrun (Nat.le_trans (boundary_mono dev.conf (by omega)) hle)]
    exact herases (fun _ => true) garbage m' (by rw [hfound, Option.bind_some, hrun]) k hk x hx
      hle hlt hprog x hx hlt
  · intro hends ok garbage m' hformat k hk x hx hle hlt hprog y hy hylt
    obtain ⟨found, hfound, hrun⟩ := Option.bind_eq_some_iff.mp hformat
    have hlast := hends found garbage hfound k hk x hx hle hlt hprog
    have hflash : dev.conf.boundary (k + 1) ≤ dev.conf.startAddress + dev.conf.flashSize := by
      have := Pieces.edge_le_sum dev.conf.sizes (k + 1)
      unfold Conf.boundary
      omega
    -- the sector of `y` is one of those that were erased
    obtain ⟨j, hj, hjle, hjlt⟩ := exists_sector dev.conf (show dev.conf.startAddress ≤ y by omega)
      (by omega)
    have hjk : j ≤ k := sector_le hjle hylt (Nat.le_refl y)
    have hfirst_le : first ≤ j := sector_le (hpbase ▸ hy) hjlt (Nat.le_refl y)
    have hj32 := hcount (j + 1) hj
    exact (run_erases hrun).2 j (by omega) (by omega) (by omega) y hjle hjlt

end Device

/-! ### Runs -/

/-- The records of the history are in the memory as well. -/
theorem Layout.mirrored {dev : InternalFlash} {pfs : FSDATA} {h : List FileRec}
    (hl : Layout pfs h k []) (hm : dev.Mirrors m pfs) : Layout (dev.wofsFsdata m) h k [] := by
  have hlt := hl.end_lt.2
  simp only [List.length_nil, Nat.add_zero] at hlt
  refine ⟨rfl, hl.chain.frame hl.wo.symm ?_, rfl, ?_, ?_⟩
  · intro x hx hxk
    exact (hm.bytes x hx (by rw [← hm.maxSize]; omega)).symm
  · intro x hx hxm
    rw [hm.bytes x (Nat.zero_le x) hxm]
    exact hl.blank x hx (hm.maxSize ▸ hxm)
  · have hfits := hl.fits
    rw [hm.maxSize] at hfits
    exact hfits

/-- In a memory with a layout that nothing is pending in, the directory ends behind all
programmed bytes. -/
theorem Layout.endsBehind {dev : InternalFlash} {h : List FileRec}
    (hl : Layout (dev.wofsFsdata m) h k []) (hn : Names h) : dev.EndsBehind m := by
  obtain ⟨first, hfirst, hsect, hpbase, hstart, hsize⟩ := wofs_starts dev
  have hfits := dev.conf.fits
  have hlt : k < dev.maxSize := hl.end_lt.2
  intro found garbage hfound j hj x hx hle hxlt hprog
  rw [hl.free hn, Option.some.injEq] at hfound
  rw [platformFlashGetNumSectors_eq] at hj
  have hxend : dev.conf.boundary (j + 1) ≤ dev.conf.startAddress + dev.conf.flashSize := by
    have hsum : dev.conf.sizes.sum = dev.conf.flashSize := dev.conf.sizes_sum
    have := Pieces.edge_le_sum dev.conf.sizes (j + 1)
    unfold Conf.boundary
    omega
  obtain ⟨e, he, hele, helt⟩ := exists_sector dev.conf
    (show dev.conf.startAddress ≤ k + dev.pbase by omega) (by omega)
  have hlast : dev.sectLast garbage found = e := by
    rw [← hfound, InternalFlash.sectLast, OpenFile.plastOr, u32_of_lt (by omega),
      platformFlashGetSectorOfAddress, flashhFindSector_eq he hele helt]
  rw [hlast]
  -- Everything from the end of the directory on is blank.
  have hbefore : x < k + dev.pbase := by
    by_contra hbehind
    refine hprog ?_
    have hblank := hl.blank (x - dev.pbase) (by simp; omega)
      (show x - dev.pbase < dev.maxSize by omega)
    rw [← hblank]
    show m x = m (u32 (x - dev.pbase + dev.pbase))
    rw [Nat.sub_add_cancel hx, u32_of_lt (by omega)]
  exact sector_le hle helt (Nat.le_of_lt hbefore)

/-- Formatting erases the WOFS, whenever it succeeds, after every run in which unfinished files
hold no contents but blank bytes. In any memory it does so if and only if the end that the lookup
finds is not in a sector before a programmed byte. -/
theorem format_erases (dev : InternalFlash) :
    (∀ m, dev.FormatErases m ↔ dev.EndsBehind m) ∧
    ∀ fs, Formatted fs → ∀ es t,
      Run.AllSteps eventStep EventOk ⟨romfsInit fs, []⟩ es →
      Run.run eventStep ⟨romfsInit fs, []⟩ es = some t → UnfinishedBlank t.history →
      ∀ m, dev.Mirrors m t.st.fsdata → dev.FormatErases m := by
  refine ⟨formatErases_iff dev, ?_⟩
  intro fs hfs es t hok hrun hblank m hm
  have hinv := WofsInv.events hfs hok hrun
  obtain ⟨k, hl⟩ := hinv.blank_layout hblank
  rw [formatErases_iff]
  exact (hl.mirrored hm).endsBehind hinv.names

/-! ### Two media -/

/-- A memory with this WOFS behind the image. -/
def place (dev : InternalFlash) (pfs : FSDATA) : Mem := fun x => pfs.medium.bytes (x - dev.pbase)

theorem mirrors_place {dev : InternalFlash} {pfs : FSDATA} (hsize : pfs.maxSize = dev.maxSize) :
    dev.Mirrors (place dev pfs) pfs := by
  obtain ⟨-, -, -, -, -, hend⟩ := wofs_starts dev
  have hfits := dev.conf.fits
  refine ⟨hsize, fun x _ hx => ?_⟩
  show pfs.medium.bytes (u32 (x + dev.pbase) - dev.pbase) = _
  rw [u32_of_lt (by omega), Nat.add_sub_cancel]

/-- Four sectors of 16 bytes, the first one with the image. -/
def fourSectors : InternalFlash where
  conf := ⟨0, 64, .uniform 16, by decide, by decide, by decide⟩
  flashUsedSize := 16
  used_pos := by decide
  room := by decide

/-- The hypotheses of `format_erases` hold of a run that loses power
after the name of a file is written, so that the file is left
unfinished. -/
theorem format_erases_cut : ∃ t, Run.run eventStep ⟨romfsInit (wofsFormat 48 (by decide)), []⟩
    [.powerLoss (.openR 0 ⟨[97], by decide⟩ sessionFlags) 2] = some t ∧
      fourSectors.FormatErases (place fourSectors t.st.fsdata) := by
  have hrun : (Run.run eventStep ⟨romfsInit (wofsFormat 48 (by decide)), []⟩
      [.powerLoss (.openR 0 ⟨[97], by decide⟩ sessionFlags) 2]).map
        (fun t => (t.history, t.st.fsdata.maxSize)) = some ([.new [97] 12], 48) := by decide
  obtain ⟨t, ht, heq⟩ := Option.map_eq_some_iff.mp hrun
  rw [Prod.mk.injEq] at heq
  have hblank : ∀ h : List FileRec, h = [.new [97] 12] → UnfinishedBlank h := by
    rintro h rfl r hr _ b hb
    rw [List.mem_singleton.mp hr] at hb
    cases hb
  refine ⟨t, ht, (format_erases fourSectors).2 _
    (formatted_wofsFormat (by decide) (by decide)) _ t ?_ ht (hblank _ heq.1) _
    (mirrors_place (heq.2.trans (by decide)))⟩
  refine ⟨⟨fun _ => ⟨rfl, by decide, by decide, by decide⟩, fun _ => .inr (by decide), ?_⟩,
    fun _ _ => trivial⟩
  intro t' ht'
  have hhist : (eventStep ⟨romfsInit (wofsFormat 48 (by decide)), []⟩
      (.powerLoss (.openR 0 ⟨[97], by decide⟩ sessionFlags) 2)).map Traced.history
      = some [.new [97] 12] := by decide
  rw [ht', Option.map_some, Option.some.injEq] at hhist
  exact hblank _ hhist

/-- Power is lost after five bytes of a file `"a"` are written, four of them blank. The lookup
ends at the first of them, in the first sector of the WOFS, and the fifth is in the next one. -/
theorem not_always_erased : ∃ t, Run.run eventStep
    ⟨romfsInit (wofsFormat 48 (by decide)), []⟩
    [.call (.openR 0 ⟨[97], by decide⟩ sessionFlags),
      .powerLoss (.writeR 0 [0xFF, 0xFF, 0xFF, 0xFF, 0]) 5] = some t ∧
      ¬ fourSectors.FormatErases (place fourSectors t.st.fsdata) := by
  have hrun : (Run.run eventStep ⟨romfsInit (wofsFormat 48 (by decide)), []⟩
      [.call (.openR 0 ⟨[97], by decide⟩ sessionFlags),
        .powerLoss (.writeR 0 [0xFF, 0xFF, 0xFF, 0xFF, 0]) 5]).map
        (fun t => (romfsOpenFile [1] (fourSectors.wofsFsdata (place fourSectors t.st.fsdata)),
          place fourSectors t.st.fsdata 32)) = some (some (.notFound 12), 0) := by decide +kernel
  obtain ⟨t, ht, heq⟩ := Option.map_eq_some_iff.mp hrun
  rw [Prod.mk.injEq] at heq
  refine ⟨t, ht, fun herases => ?_⟩
  have hends := (formatErases_iff fourSectors _).mp herases (.notFound 12) 0 heq.1
    2 (by decide) 32 (by decide) (by decide) (by decide) (by rw [heq.2]; decide)
  exact absurd hends (by decide)

end Alcor.Proofs.Romfs
