import Mathlib.Data.List.Perm.Subperm
import Mathlib.Data.List.Nodup
import Mathlib.Data.List.Basic
import Alcor.Newlib.Volumes

/-!
# `Alcor.Proofs.Newlib.Volumes`: the volumes

What the two file system drivers do with their descriptors.

* `inv_step`: the table of the host file system is in order as long as
  the host opens what it is asked for; `semifsOpenR_fails` is the open
  that is counted although it has failed. `run_right_iff` is the result
  about every run.
* `mmcMode_bits` and the lemmas behind it: the mode that FatFs is given
  for the flags of an open, and what it does with the file.
* `writes_eq` and `posixWrites_eq`: the writes behind the open, on both
  sides.
* `conforms_iff`: an open and the writes behind it are those of POSIX
  exactly for the flags that are supported.
-/

set_option autoImplicit false

/-!
## The descriptors of the semihosting driver

`semifs_open_r` counts a file before the host has opened it, and never
takes it back. While the host opens every file, the count is the number of open
files and a slot is empty exactly when no open descriptor has it (`Inv`).
-/

namespace Alcor.Proofs.Newlib.Semifs

open Alcor.Newlib Alcor.Newlib.Semifs
open Lib.Run (AllSteps)

variable {e : Event}
variable {s s' : Semifs.Session} {v : Volume} {flags : BitVec 32} {fh : Int} {fd : Nat}

/-! ### What a call does -/

theorem uses_of_handle (h : (v.semifsFdTable fd).handle = fh) : Uses v fd fh := by
  refine ⟨fun res => ?_, fun len x => ?_, fun len x => ?_⟩
  · rw [semifsCloseR, h]
  · rw [semifsWriteR, h]
    split <;> rfl
  · rw [semifsReadR, h]
    split <;> rfl

theorem semifsOpenR_full (h : v.semifsNumFd = SEMIFS_MAX_FDS) :
    semifsOpenR flags fh v = some ⟨.error .ENFILE, [], v⟩ := if_pos h

/-- An open that succeeds on the host. -/
theorem semifsOpenR_opens (h : v.semifsNumFd ≠ SEMIFS_MAX_FDS) (hfh : 0 ≤ fh)
    (hfd : semifsFindEmptyFd v = some fd) :
    semifsOpenR flags fh v = some ⟨.ok fd, [.sysOpen (aflags flags)],
      ⟨Function.update v.semifsFdTable fd ⟨fh, 0⟩, v.semifsNumFd + 1⟩⟩ := by
  rw [semifsOpenR, if_neg h]
  simp only [ge_iff_le, hfh, if_true, hfd, Option.map_some]

/-- One that fails there is counted, too. -/
theorem semifsOpenR_fails (h : v.semifsNumFd ≠ SEMIFS_MAX_FDS) (hfh : fh < 0) :
    semifsOpenR flags fh v = some ⟨.ok ((semifsFindEmptyFd v).elim (-1) Int.ofNat),
      [.sysOpen (aflags flags)], { v with semifsNumFd := v.semifsNumFd + 1 }⟩ := by
  rw [semifsOpenR, if_neg h]
  exact if_neg (by omega)

theorem handle_advance (fd i : Nat) (n : Int) (v : Volume) :
    ((advance fd n v).semifsFdTable i).handle = (v.semifsFdTable i).handle := by
  unfold advance
  split
  · by_cases hi : i = fd
    · subst hi
      simp only [Function.update_self]
    · simp only [Function.update_of_ne hi]
  · rfl

theorem semifsNumFd_advance (fd : Nat) (n : Int) (v : Volume) :
    (advance fd n v).semifsNumFd = v.semifsNumFd := by
  unfold advance
  split <;> rfl

/-! ### The invariant -/

structure Inv (s : Semifs.Session) : Prop where
  count : s.volume.semifsNumFd = s.opened.length
  nodup : s.fds.Nodup
  /-- Whoever is open has its slot. -/
  used : ∀ o ∈ s.opened, o.1 < SEMIFS_MAX_FDS ∧ 0 ≤ o.2 ∧
    (s.volume.semifsFdTable o.1).handle = o.2
  /-- All other slots are empty. -/
  empty : ∀ i < SEMIFS_MAX_FDS, i ∉ s.fds → (s.volume.semifsFdTable i).handle = -1

theorem inv_start : Inv {} := by
  refine ⟨rfl, List.nodup_nil, ?_, fun _ _ _ => rfl⟩
  rintro o ho
  cases ho

theorem Inv.sound (h : Inv s) : s.Sound := by
  refine ⟨h.nodup, ?_, fun o ho => uses_of_handle (h.used o ho).2.2⟩
  intro fd hfd
  obtain ⟨o, ho, rfl⟩ := List.mem_map.mp hfd
  exact (h.used o ho).1

/-- A slot that is found is empty, so that no open descriptor has it. -/
theorem Inv.notMem_of_find (h : Inv s) (hfd : semifsFindEmptyFd s.volume = some fd) :
    fd < SEMIFS_MAX_FDS ∧ fd ∉ s.fds := by
  have hhandle := List.find?_some hfd
  have hmem := List.mem_of_find?_eq_some hfd
  refine ⟨List.mem_range.mp hmem, fun hopen => ?_⟩
  obtain ⟨o, ho, rfl⟩ := List.mem_map.mp hopen
  have hused := h.used o ho
  have hnone : (s.volume.semifsFdTable o.1).handle = -1 := by simpa using hhandle
  omega

/-- With less than the greatest number of files open there is an empty slot. -/
theorem Inv.exists_empty (h : Inv s) (hnum : s.volume.semifsNumFd ≠ SEMIFS_MAX_FDS) :
    ∃ fd, semifsFindEmptyFd s.volume = some fd := by
  rw [← Option.isSome_iff_exists, semifsFindEmptyFd, List.find?_isSome]
  by_contra hall
  push Not at hall
  -- otherwise every slot is one of an open descriptor
  have hsub : List.range SEMIFS_MAX_FDS ⊆ s.fds := by
    intro i hi
    by_contra hnot
    exact hall i hi (by simp [h.empty i (List.mem_range.mp hi) hnot])
  have hle := (List.subperm_of_subset List.nodup_range hsub).length_le
  have hge : s.fds.length ≤ SEMIFS_MAX_FDS := by
    have hin : s.fds ⊆ List.range SEMIFS_MAX_FDS := by
      intro i hi
      exact List.mem_range.mpr (h.sound.inTable i hi)
    have := (List.subperm_of_subset h.nodup hin).length_le
    rwa [List.length_range] at this
  rw [List.length_range] at hle
  have hlength : s.fds.length = s.opened.length := List.length_map _
  exact hnum (by rw [h.count]; omega)

/-- A file that the host has opened. -/
theorem Inv.opens (h : Inv s) (hfh : 0 ≤ fh) (hfd : semifsFindEmptyFd s.volume = some fd) :
    Inv ⟨⟨Function.update s.volume.semifsFdTable fd ⟨fh, 0⟩, s.volume.semifsNumFd + 1⟩,
      s.opened ++ [(fd, fh)]⟩ := by
  obtain ⟨hlt, hnew⟩ := h.notMem_of_find hfd
  -- the slots of the others are left as they are
  have hfds : ∀ o ∈ s.opened, o.1 ≠ fd := by
    rintro o ho rfl
    exact hnew (List.mem_map_of_mem ho)
  refine ⟨?_, ?_, ?_, ?_⟩
  · simp [h.count]
  · rw [Semifs.Session.fds, List.map_append, List.nodup_append]
    refine ⟨h.nodup, List.nodup_singleton _, ?_⟩
    rintro a ha b hb rfl
    obtain rfl : a = fd := by simpa using hb
    exact hnew ha
  · intro o ho
    rcases List.mem_append.mp ho with ho | ho
    · simp only [Function.update_of_ne (hfds o ho)]
      exact h.used o ho
    · obtain rfl := List.mem_singleton.mp ho
      simp only [Function.update_self]
      exact ⟨hlt, hfh, trivial⟩
  · intro i hi hnot
    rw [Semifs.Session.fds, List.map_append, List.mem_append, not_or] at hnot
    have hne : i ≠ fd := fun heq => hnot.2 (by simp [heq])
    simp only [Function.update_of_ne hne]
    exact h.empty i hi hnot.1

/-- A descriptor that is closed. -/
theorem Inv.closes (h : Inv s) (hfd : fd ∈ s.fds) (res : Int) :
    Inv ⟨(semifsCloseR fd res s.volume).volume, s.opened.filter fun o => o.1 ≠ fd⟩ := by
  have hlt := h.sound.inTable fd hfd
  have hfds : (s.opened.filter fun o => o.1 ≠ fd).map Prod.fst = s.fds.erase fd := by
    rw [h.nodup.erase_eq_filter, Semifs.Session.fds, List.filter_map]
    congr 1
    refine List.filter_congr fun o _ => ?_
    simp [Bool.beq_eq_decide_eq, bne]
  -- one descriptor less is open, as the count says
  have hlength := List.length_erase_of_mem hfd
  rw [← hfds, List.length_map] at hlength
  have hpos : 0 < s.fds.length := List.length_pos_of_mem hfd
  have hsame : s.fds.length = s.opened.length := List.length_map _
  refine ⟨?_, ?_, ?_, ?_⟩
  · simp only [semifsCloseR, h.count]
    omega
  · rw [Semifs.Session.fds, hfds]
    exact h.nodup.erase fd
  · intro o ho
    obtain ⟨ho, hne⟩ := List.mem_filter.mp ho
    simp only [semifsCloseR, if_pos (Nat.ne_of_lt hlt),
      Function.update_of_ne (of_decide_eq_true hne)]
    exact h.used o ho
  · intro i hi hnot
    rw [Semifs.Session.fds, hfds, h.nodup.mem_erase_iff, not_and_or, not_not] at hnot
    simp only [semifsCloseR, if_pos (Nat.ne_of_lt hlt)]
    by_cases hi' : i = fd
    · subst hi'
      simp only [Function.update_self]
    · simp only [Function.update_of_ne hi']
      exact h.empty i hi (hnot.resolve_left hi')

/-- Reading and writing keep the handles and the count. -/
theorem Inv.of_same (h : Inv s) (hcount : v.semifsNumFd = s.volume.semifsNumFd)
    (hhandle : ∀ i, (v.semifsFdTable i).handle = (s.volume.semifsFdTable i).handle) :
    Inv { s with volume := v } := by
  refine ⟨hcount.trans h.count, h.nodup, fun o ho => ?_, fun i hi hnot => ?_⟩
  · rw [hhandle]
    exact h.used o ho
  · rw [hhandle]
    exact h.empty i hi hnot

theorem Inv.advance (h : Inv s) (fd : Nat) (n : Int) :
    Inv { s with volume := advance fd n s.volume } :=
  h.of_same (semifsNumFd_advance fd n s.volume) fun i => handle_advance fd i n s.volume

/-- A step keeps the invariant if the host opens the file. -/
theorem inv_step (h : Inv s) (hok : HostOpens s e) (hstep : step s e = some s') : Inv s' := by
  cases e with
  | openR flags fh =>
    rw [step] at hstep
    by_cases hfull : s.volume.semifsNumFd = SEMIFS_MAX_FDS
    · rw [semifsOpenR_full hfull] at hstep
      cases hstep
      exact h
    · have hfh := hok.resolve_left hfull
      obtain ⟨fd, hfd⟩ := h.exists_empty hfull
      rw [semifsOpenR_opens hfull hfh hfd] at hstep
      cases hstep
      have hnew := h.opens hfh hfd
      rw [Semifs.Session.obtain]
      simpa [hfh] using hnew
  | closeR fd res =>
    rw [step] at hstep
    split at hstep
    · next hfd =>
        cases hstep
        exact h.closes hfd res
    · cases hstep
  | writeR fd len x =>
    rw [step] at hstep
    split at hstep
    · cases hstep
      rw [semifsWriteR]
      -- an error leaves the volume, and otherwise only the position changes
      split
      · exact h
      · exact h.advance _ _
    · cases hstep
  | readR fd len x =>
    rw [step] at hstep
    split at hstep
    · cases hstep
      rw [semifsReadR]
      -- an error leaves the volume, and otherwise only the position changes
      split
      · exact h
      · exact h.advance _ _
    · cases hstep

/-! ### Runs -/

/-- An open is right if the host does open the file. -/
theorem Inv.opensRight (h : Inv s) (hok : HostOpens s (.openR flags fh)) :
    OpensRight s flags fh := by
  by_cases hfull : s.volume.semifsNumFd = SEMIFS_MAX_FDS
  · have hopen := @semifsOpenR_full s.volume flags fh hfull
    refine ⟨fun hnot => absurd hfull hnot, fun _ _ _ => ?_, by rw [hopen]; rfl⟩
    exact_mod_cast h.count.symm.trans hfull
  · have hfh := hok.resolve_left hfull
    obtain ⟨fd, hfd⟩ := h.exists_empty hfull
    have hopen := @semifsOpenR_opens s.volume flags fh fd hfull hfh hfd
    refine ⟨fun _ hneg => absurd hneg (by omega), ?_, by rw [hopen]; rfl⟩
    intro out hout hasked
    rw [hopen] at hout
    cases hout
    cases hasked

theorem right_of_hostOpens (h : Inv s) (hok : HostOpens s e) : Right s e := by
  refine ⟨?_, fun s' hstep => (inv_step h hok hstep).sound⟩
  rintro flags fh rfl
  exact h.opensRight hok

/-- An open that fails on the host is never right: it has counted the file. -/
theorem hostOpens_of_right (h : Right s e) : HostOpens s e := by
  cases e with
  | openR flags fh =>
    by_contra hnot
    obtain ⟨hfull, hfh⟩ := not_or.mp hnot
    rw [Int.not_le] at hfh
    have hright := (h.1 flags fh rfl).failed hfull hfh
    rw [semifsOpenR_fails hfull hfh, Option.some.injEq, Outcome.mk.injEq] at hright
    have hcount : s.volume.semifsNumFd + 1 = s.volume.semifsNumFd :=
      congrArg Volume.semifsNumFd hright.2.2
    omega
  | closeR fd res => trivial
  | writeR fd len x => trivial
  | readR fd len x => trivial

/-- **Semihosting**: all calls of a run are right exactly if the host
opens every file that it is asked for. An open that fails has counted
its file already, and the table is full too early. -/
theorem run_right_iff (es : List Event) :
    AllSteps step Right {} es ↔ AllSteps step HostOpens {} es := by
  constructor
  · have hright : ∀ s e, True → Right s e → HostOpens s e := fun _ _ _ h => hostOpens_of_right h
    exact Lib.Run.allSteps_of_invariant hright (fun _ _ _ _ _ _ => trivial) es _ trivial
  · have hopens : ∀ s e, Inv s → HostOpens s e → Right s e :=
      fun _ _ h hok => right_of_hostOpens h hok
    exact Lib.Run.allSteps_of_invariant hopens
      (fun _ _ _ h hok hstep => inv_step h hok hstep) es _ inv_start

/-- An open that fails on the host returns descriptor 0. -/
theorem not_always_right :
    ¬ ∀ es : List Event, AllSteps step Right {} es := by
  intro h
  have hopen := ((h [.openR O_RDONLY (-1)]).1.1 O_RDONLY (-1) rfl).failed (by decide) (by decide)
  rw [semifsOpenR_fails (by decide) (by decide), Option.some.injEq, Outcome.mk.injEq] at hopen
  exact absurd (congrArg Volume.semifsNumFd hopen.2.2) (by decide)

end Alcor.Proofs.Newlib.Semifs

/-!
## The flags of `open` on the memory card

`mmcMode_bits` is the chain of tests on the flags, and `writes_eq_iff` says
when writes from the start of the file are those of POSIX. The file pointer is
never put at the end: that depends on `mode`, where `open` passes zero.
-/

namespace Alcor.Proofs.Newlib.Mmcfs

open Alcor.Newlib Alcor.Newlib.Mmcfs

variable {mode : BitVec 32}
variable {room : Room} {f : Flags} {file : Option (List UInt8)} {contents : List UInt8}

/-! ### The modes -/

/-- The mode bits of the access. -/
def accessBits : AccessMode → BitVec 32
  | .rdonly => FA_READ
  | .wronly => FA_WRITE
  | .rdwr   => FA_READ ||| FA_WRITE

/-- The mode for FatFs, flag by flag. -/
theorem mmcMode_bits (f : Flags) : mmcMode f.bits =
    if f.creat ∧ f.trunc ∧ f.Writes then some (FA_CREATE_ALWAYS ||| accessBits f.access)
    else if f.creat ∧ f.excl then some (FA_OPEN_EXISTING ||| accessBits f.access)
    else if f.creat then some (FA_OPEN_ALWAYS ||| accessBits f.access)
    else if ¬ f.excl ∧ ¬ f.trunc ∧ ¬ f.append then
      some (FA_OPEN_EXISTING ||| accessBits f.access)
    else none := by
  rcases f with ⟨access, creat, excl, trunc, append⟩
  cases access <;> cases creat <;> cases excl <;> cases trunc <;> cases append <;> rfl

theorem fOpen_createAlways (access : AccessMode) (file : Option (List UInt8)) :
    fOpen (FA_CREATE_ALWAYS ||| accessBits access) file =
      (some ⟨FA_CREATE_ALWAYS ||| accessBits access, 0⟩, some []) := by
  cases access <;> rfl

theorem fOpen_openAlways (access : AccessMode) (file : Option (List UInt8)) :
    fOpen (FA_OPEN_ALWAYS ||| accessBits access) file =
      (some ⟨FA_OPEN_ALWAYS ||| accessBits access, 0⟩, some (file.getD [])) := by
  cases access <;> rfl

theorem fOpen_openExisting (access : AccessMode) (file : Option (List UInt8)) :
    fOpen (FA_OPEN_EXISTING ||| accessBits access) file =
      (file.map fun _ => ⟨FA_OPEN_EXISTING ||| accessBits access, 0⟩, file) := by
  cases access <;> cases file <;> rfl

/-- The mode has write access when the flags do. -/
structure Granted (f : Flags) (mode : BitVec 32) : Prop where
  iff : mode &&& FA_WRITE = 0 ↔ ¬ f.Writes

theorem granted (f : Flags)
    (h : mode = FA_CREATE_ALWAYS ∨ mode = FA_OPEN_ALWAYS ∨ mode = FA_OPEN_EXISTING) :
    Granted f (mode ||| accessBits f.access) := by
  rcases f with ⟨access, creat, excl, trunc, append⟩
  refine ⟨?_⟩
  rcases h with rfl | rfl | rfl <;> cases access <;> simp [Flags.Writes] <;> decide

/-! ### Writing -/

theorem overwrite_nil (contents : List UInt8) (pos : Nat) :
    overwrite contents pos [] = contents := by
  rw [overwrite, List.append_nil, List.length_nil, Nat.add_zero, List.take_append_drop]

theorem overwrite_append (contents x y : List UInt8) (pos : Nat) (h : pos ≤ contents.length) :
    overwrite (overwrite contents pos x) (pos + x.length) y = overwrite contents pos (x ++ y) := by
  have hlength : (contents.take pos ++ x).length = pos + x.length := by
    rw [List.length_append, List.length_take, Nat.min_eq_left h]
  have htake : (overwrite contents pos x).take (pos + x.length) = contents.take pos ++ x :=
    List.take_left' hlength
  have hdrop : (overwrite contents pos x).drop (pos + x.length + y.length) =
      contents.drop (pos + (x ++ y).length) := by
    rw [← List.drop_drop, overwrite, List.drop_left' hlength, List.drop_drop, List.length_append,
      Nat.add_assoc]
  rw [overwrite, htake, hdrop, overwrite, List.append_assoc (contents.take pos)]

theorem overwrite_end (contents data : List UInt8) :
    overwrite contents contents.length data = contents ++ data := by
  rw [overwrite, List.take_length, List.drop_of_length_le (Nat.le_add_right _ _), List.append_nil]

theorem length_overwrite (contents data : List UInt8) (pos : Nat) (h : pos ≤ contents.length) :
    pos + data.length ≤ (overwrite contents pos data).length := by
  rw [overwrite, List.length_append, List.length_append, List.length_take, Nat.min_eq_left h]
  omega

/-- The result of each write. -/
def resultOf (f : Flags) (data : List UInt8) : Option Nat :=
  if f.Writes then some data.length else none

/-- The writes of the driver, from a position on. -/
theorem writes_eq (datas : List (List UInt8)) : ∀ (fp : Fil) (contents : List UInt8),
    Granted f fp.mode → fp.fptr ≤ contents.length →
    writes fp contents datas = (datas.map (resultOf f),
      if f.Writes then overwrite contents fp.fptr datas.flatten else contents) := by
  induction datas with
  | nil =>
    intro fp contents _ _
    rw [writes, List.map_nil, List.flatten_nil, overwrite_nil, ite_self]
  | cons data datas ih =>
    intro fp contents hgranted hpos
    by_cases hw : f.Writes
    · rw [writes, mmcfsWriteR, fWrite, if_neg (mt hgranted.iff.mp (not_not_intro hw))]
      simp only [if_pos hw]
      rw [ih ⟨fp.mode, fp.fptr + data.length⟩ _ hgranted (length_overwrite _ _ _ hpos)]
      simp only [if_pos hw, List.flatten_cons, List.map_cons]
      rw [overwrite_append _ _ _ _ hpos, resultOf, if_pos hw]
      rfl
    · -- FatFs refuses every write
      rw [writes, mmcfsWriteR, fWrite, if_pos (hgranted.iff.mpr hw)]
      simp only [if_neg hw]
      rw [ih _ _ hgranted hpos]
      simp only [if_neg hw, List.map_cons]
      rw [resultOf, if_neg hw]
      rfl

/-- Those of POSIX. -/
theorem posixWrites_eq (datas : List (List UInt8)) : ∀ (pos : Nat) (contents : List UInt8),
    pos ≤ contents.length →
    posixWrites f pos contents datas = (datas.map (resultOf f),
      if f.Writes then
        if f.append then contents ++ datas.flatten else overwrite contents pos datas.flatten
      else contents) := by
  induction datas with
  | nil =>
    intro pos contents _
    rw [posixWrites, List.map_nil, List.flatten_nil, overwrite_nil, List.append_nil, ite_self,
      ite_self]
  | cons data datas ih =>
    intro pos contents hpos
    rw [posixWrites, List.map_cons, List.flatten_cons, resultOf]
    by_cases hw : f.Writes
    · simp only [if_pos hw]
      by_cases happend : f.append = true
      · simp only [if_pos happend]
        rw [ih _ _ (length_overwrite _ _ _ (Nat.le_refl _)), if_pos hw, if_pos happend,
          overwrite_end, List.append_assoc]
      · simp only [if_neg happend]
        rw [ih _ _ (length_overwrite _ _ _ hpos), if_pos hw, if_neg happend,
          overwrite_append _ _ _ _ hpos]
    · simp only [if_neg hw]
      rw [ih _ _ hpos, if_neg hw]

/-- Writing at the start is appending only if there is nothing on one side. -/
theorem overwrite_zero_eq_append_iff (contents data : List UInt8) :
    overwrite contents 0 data = contents ++ data ↔ contents = [] ∨ data = [] := by
  constructor
  · intro h
    have hlength := congrArg List.length h
    simp only [overwrite, List.take_zero, List.nil_append, List.length_append, List.length_drop,
      Nat.zero_add] at hlength
    rcases Nat.eq_zero_or_pos contents.length with hc | hc
    · exact .inl (List.length_eq_zero_iff.mp hc)
    · exact .inr (List.length_eq_zero_iff.mp (by omega))
  · rintro (rfl | rfl)
    · rw [overwrite, List.take_nil, List.drop_nil, List.nil_append, List.append_nil]
    · rw [overwrite, List.take_zero, List.nil_append, List.nil_append, List.append_nil]
      rfl

/-- The writes behind an open, on both sides. -/
theorem writes_eq_iff (hgranted : Granted f mode) (contents : List UInt8)
    (datas : List (List UInt8)) :
    writes ⟨mode, 0⟩ contents datas = posixWrites f 0 contents datas ↔
      ¬ f.append ∨ ¬ f.Writes ∨ contents = [] ∨ datas.flatten = [] := by
  rw [writes_eq datas ⟨mode, 0⟩ contents hgranted (Nat.zero_le _),
    posixWrites_eq datas 0 contents (Nat.zero_le _), Prod.mk.injEq]
  by_cases hw : f.Writes
  · rw [if_pos hw, if_pos hw]
    by_cases happend : f.append = true
    · rw [if_pos happend, overwrite_zero_eq_append_iff]
      simp [happend, hw]
    · simp [happend]
  · simp [hw]

/-! ### Opening -/

theorem posixBehaviour_of_not_free (h : ¬ room.Free) (datas : List (List UInt8)) :
    posixBehaviour room f file datas = (none, file) := if_neg h

theorem mmcfsBehaviour_of_not_free (h : ¬ room.Free) (mode : BitVec 32)
    (datas : List (List UInt8)) : mmcfsBehaviour room f mode file datas = (none, file) := by
  rw [mmcfsBehaviour, «open», mmcfsOpenR]
  by_cases hfull : room.mmcfsNumFd = MMCFS_MAX_FDS
  · rw [if_pos hfull]
  · rw [if_neg hfull, if_pos (by simpa [Room.Free, hfull] using h)]

/-- The driver with a descriptor and memory: the mode of `open` is of no use. -/
theorem mmcfsBehaviour_of_free (h : room.Free) (mode : BitVec 32) (datas : List (List UInt8)) :
    mmcfsBehaviour room f mode file datas =
      match mmcMode f.bits with
      | none         => (none, file)
      | some mmcMode =>
        match fOpen mmcMode file with
        | (none, file)    => (none, file)
        | (some fp, file) =>
          (some (writes fp (file.getD []) datas).1,
            some (writes fp (file.getD []) datas).2) := by
  rw [mmcfsBehaviour, «open», mmcfsOpenR, if_neg h.1, if_neg (by simp [h.2])]
  cases mmcMode f.bits with
  | none => rfl
  | some mmcMode =>
    rcases hopen : fOpen mmcMode file with ⟨_ | fp, file'⟩
    · simp only [hopen]
    · simp only [hopen, show (0 : BitVec 32) &&& O_APPEND = 0 from rfl, ne_eq, not_true,
        if_false]

theorem posixBehaviour_of_free (h : room.Free) (datas : List (List UInt8)) :
    posixBehaviour room f file datas =
      match posixOpen f file with
      | none          => (none, file)
      | some contents =>
        (some (posixWrites f 0 contents datas).1, some (posixWrites f 0 contents datas).2) :=
  if_pos h

/-- Two opens that succeed with the same contents. -/
theorem some_eq_iff (hgranted : Granted f mode) (contents : List UInt8)
    (datas : List (List UInt8)) :
    ((some (writes ⟨mode, 0⟩ contents datas).1, some (writes ⟨mode, 0⟩ contents datas).2) :
        Behaviour) =
      (some (posixWrites f 0 contents datas).1, some (posixWrites f 0 contents datas).2) ↔
    ¬ f.append ∨ ¬ f.Writes ∨ contents = [] ∨ datas.flatten = [] := by
  rw [← writes_eq_iff hgranted, Prod.mk.injEq, Option.some.injEq, Option.some.injEq,
    ← Prod.ext_iff]

/-- With `O_CREAT` and `O_EXCL`, FatFs is told to open a file that exists, or to truncate it. -/
theorem behaviour_creat_excl (h : room.Free) (mode : BitVec 32) (datas : List (List UInt8))
    (hcreat : f.creat = true) (hexcl : f.excl = true) :
    mmcfsBehaviour room f mode file datas = posixBehaviour room f file datas ↔
      f.trunc ∧ f.Writes ∧ file = none := by
  rw [mmcfsBehaviour_of_free h, posixBehaviour_of_free h, mmcMode_bits]
  by_cases htrunc : f.trunc ∧ f.Writes
  · rw [if_pos ⟨hcreat, htrunc⟩]
    simp only [fOpen_createAlways]
    cases file with
    | none =>
      have hgranted := granted f (.inl rfl : FA_CREATE_ALWAYS = _ ∨ _)
      simp only [posixOpen, hcreat, if_true, Option.getD_some]
      exact iff_of_true ((some_eq_iff hgranted [] datas).mpr (.inr (.inr (.inl rfl))))
        ⟨htrunc.1, htrunc.2, trivial⟩
    | some contents => simp [posixOpen, hcreat, hexcl]
  · -- where POSIX wants no file, FatFs wants one
    rw [if_neg fun hall => htrunc hall.2, if_pos ⟨hcreat, hexcl⟩]
    simp only [fOpen_openExisting]
    cases file with
    | none =>
      refine iff_of_false ?_ fun hall => htrunc ⟨hall.1, hall.2.1⟩
      simp [posixOpen, hcreat]
    | some contents => simp [posixOpen, hcreat, hexcl]

/-- With `O_CREAT` only, the file is opened or created, and writes start at its beginning. -/
theorem behaviour_creat (h : room.Free) (mode : BitVec 32) (datas : List (List UInt8))
    (hcreat : f.creat = true) (hexcl : f.excl = false) (hspec : f.trunc = true → f.Writes) :
    mmcfsBehaviour room f mode file datas = posixBehaviour room f file datas ↔
      ¬ f.append ∨ f.trunc ∨ ¬ f.Writes ∨ file.getD [] = [] ∨ datas.flatten = [] := by
  rw [mmcfsBehaviour_of_free h, posixBehaviour_of_free h, mmcMode_bits]
  by_cases htrunc : f.trunc = true
  · have hgranted := granted f (.inl rfl : FA_CREATE_ALWAYS = _ ∨ _)
    have hopen : posixOpen f file = some [] := by
      cases file with
      | none => simp [posixOpen, hcreat]
      | some contents => simp [posixOpen, hexcl, htrunc, hspec htrunc]
    rw [if_pos ⟨hcreat, htrunc, hspec htrunc⟩, hopen]
    simp only [fOpen_createAlways, Option.getD_some]
    exact iff_of_true ((some_eq_iff hgranted [] datas).mpr (.inr (.inr (.inl rfl))))
      (.inr (.inl htrunc))
  · -- the same contents, so that only the position of the writes matters
    have hgranted := granted f (.inr (.inl rfl) : FA_OPEN_ALWAYS = _ ∨ _)
    have hopen : posixOpen f file = some (file.getD []) := by
      cases file with
      | none => simp [posixOpen, hcreat]
      | some contents => simp [posixOpen, hexcl, htrunc]
    rw [if_neg fun hall => htrunc hall.2.1, if_neg (by simp [hexcl]), if_pos hcreat, hopen]
    simp only [fOpen_openAlways, Option.getD_some]
    rw [some_eq_iff hgranted]
    simp [htrunc]

/-- Without `O_CREAT`, any other flag is an error. -/
theorem behaviour_existing (h : room.Free) (mode : BitVec 32) (datas : List (List UInt8))
    (hcreat : f.creat = false) (hexcl : f.excl = false) :
    mmcfsBehaviour room f mode file datas = posixBehaviour room f file datas ↔
      (¬ f.trunc ∧ ¬ f.append) ∨ file = none := by
  rw [mmcfsBehaviour_of_free h, posixBehaviour_of_free h, mmcMode_bits,
    if_neg (by simp [hcreat]), if_neg (by simp [hcreat]), if_neg (by simp [hcreat])]
  by_cases hplain : ¬ f.trunc = true ∧ ¬ f.append = true
  · rw [if_pos ⟨by simp [hexcl], hplain⟩]
    simp only [fOpen_openExisting]
    cases file with
    | none => simp [posixOpen, hcreat]
    | some contents =>
      have hgranted := granted f (.inr (.inr rfl) : FA_OPEN_EXISTING = _ ∨ _)
      have hopen : posixOpen f (some contents) = some contents := by
        simp [posixOpen, hcreat, hplain.1]
      rw [hopen]
      exact iff_of_true ((some_eq_iff hgranted contents datas).mpr (.inl hplain.2))
        (.inl hplain)
  · rw [if_neg fun hall => hplain hall.2]
    cases file with
    | none => simp [posixOpen, hcreat]
    | some contents =>
      simp only [posixOpen, hcreat, hplain, false_or]
      simp

/-- An open and the writes behind it are those of POSIX exactly if
there is no room for the open, the flags are among those that POSIX
leaves open, or they are supported. -/
theorem conforms_iff (room : Room) (f : Flags) (mode : BitVec 32) (file : Option (List UInt8))
    (datas : List (List UInt8)) :
    Conforms room f mode file datas ↔ ¬ room.Free ∨ f.Unspecified ∨ Supported f file datas := by
  by_cases hfree : room.Free
  case neg =>
    rw [Conforms, mmcfsBehaviour_of_not_free hfree, posixBehaviour_of_not_free hfree]
    exact iff_of_true (.inr rfl) (.inl hfree)
  by_cases hspec : f.Unspecified
  · exact iff_of_true (.inl hspec) (.inr (.inl hspec))
  rw [Conforms, or_iff_right hspec, or_iff_right (not_not_intro hfree), or_iff_right hspec,
    Supported]
  rw [Flags.Unspecified, not_or] at hspec
  cases hcreat : f.creat with
  | true =>
    rw [if_pos rfl]
    cases hexcl : f.excl with
    | true =>
      rw [if_pos rfl]
      exact behaviour_creat_excl hfree mode datas hcreat hexcl
    | false =>
      rw [if_neg Bool.false_ne_true]
      refine behaviour_creat hfree mode datas hcreat hexcl fun htrunc => ?_
      by_contra hw
      exact hspec.2 ⟨htrunc, hw, by simp [hexcl]⟩
  | false =>
    rw [if_neg Bool.false_ne_true]
    have hexcl : f.excl = false := by
      by_contra hexcl
      exact hspec.1 ⟨Bool.not_eq_false _ ▸ hexcl, by simp [hcreat]⟩
    exact behaviour_existing hfree mode datas hcreat hexcl

/-- `O_WRONLY | O_CREAT | O_APPEND` on a file of two bytes: the byte that is written is the first of
the file, and one of the two is lost. -/
theorem not_always_conforms :
    ¬ ∀ room f mode file datas, Conforms room f mode file datas := by
  intro h
  have hlost := h ⟨0, true⟩ ⟨.wronly, true, false, false, true⟩ 0 (some [1, 2]) [[3]]
  exact absurd hlost (by unfold Conforms; decide)

end Alcor.Proofs.Newlib.Mmcfs
