import Mathlib.Data.Nat.Bitwise
import Alcor.Newlib.Stubs

/-!
# `Alcor.Proofs.Newlib.Descriptors`: descriptors and names

A descriptor means the file that was opened, and a path the device that
it names.

* `TableOk.step` and `tableOk_of_registered`: every table of devices that
  can be built is in order.
* `dmMakeDesc_inj`: a descriptor has the number of the device above that
  of the file, and `descriptor_iff` says that it does what it should
  exactly if the number of the file fits in 11 bits.
* `matchLoop_spec` and `dmDeviceIdFromName_eq_some`: the device of a name
  is the one with the longest name that the path starts with.
* `oneDevice_iff`: when this device is also the one that
  `find_dm_entry` finds by the first component of the path.
-/

set_option autoImplicit false

/-!
## Descriptors and devices

A descriptor has four bits for the device and eleven for the number that
the device gave. `dmGetFd_make` and `dmGetDevid_make` take it apart
again: the number loses what is above its eleven bits, and the device
gets it. `descriptor_iff` says what this means for the functions that
are called with the descriptor.

`TableOk` holds of every device table that `dm_register` and
`dm_unregister` build: at most sixteen devices, each with a name that
starts with a slash and has at most twelve characters, no two with the
same name.
-/

namespace Alcor.Proofs.Newlib

open Lib (CStr lower)
open Lib.Run (invariant_reachable)
open Alcor.Newlib

variable {fd devid : Nat}
variable {W P : Type}
variable {dm : DmList W P}

/-! ### The device table -/

/-- The invariant of the device table. -/
structure TableOk (dm : DmList W P) : Prop where
  length_le : dm.length ≤ DM_MAX_DEVICES
  slash : ∀ inst ∈ dm, inst.name.bytes.head? = some SLASH
  name_le : ∀ inst ∈ dm, inst.name.bytes.length ≤ DM_MAX_DEV_NAME
  distinct : dm.Pairwise fun a b => lower a.name.bytes ≠ lower b.name.bytes

theorem strcasecmpEq_iff {s t : List UInt8} : strcasecmpEq s t = true ↔ lower s = lower t := by
  simp [strcasecmpEq]

/-- What a registration does to the table. -/
theorem dmRegister_cases (name : Option CStr) (pdata : P) (pdev : Option (DmDevice W P))
    (dm : DmList W P) :
    (∃ e, dmRegister name pdata pdev dm = (.error e, dm)) ∨
    ∃ n d, dmRegister name pdata pdev dm = (.ok dm.length, dm ++ [⟨n, pdata, d⟩]) ∧
      n.bytes.head? = some SLASH ∧ n.bytes.length ≤ DM_MAX_DEV_NAME ∧
      (∀ inst ∈ dm, lower n.bytes ≠ lower inst.name.bytes) ∧ dm.length ≠ DM_MAX_DEVICES := by
  cases pdev with
  | none => exact .inl ⟨_, rfl⟩
  | some d =>
    cases name with
    | none => exact .inl ⟨_, rfl⟩
    | some n =>
      by_cases hname : n.bytes.head? ≠ some SLASH ∨ DM_MAX_DEV_NAME < n.bytes.length
      · exact .inl ⟨.invalidName, by simp only [dmRegister, if_pos hname]⟩
      · by_cases hany : dm.any fun inst => strcasecmpEq n.bytes inst.name.bytes
        · exact .inl ⟨.alreadyRegistered, by simp only [dmRegister, if_neg hname, if_pos hany]⟩
        · by_cases hfull : dm.length = DM_MAX_DEVICES
          · exact .inl ⟨.noSpace, by
              simp only [dmRegister, if_neg hname, if_neg hany, if_pos hfull]⟩
          · obtain ⟨hhead, hlen⟩ := not_or.mp hname
            refine .inr ⟨n, d, by simp only [dmRegister, if_neg hname, if_neg hany, if_neg hfull],
              not_not.mp hhead, Nat.le_of_not_lt hlen, ?_, hfull⟩
            intro inst hmem heq
            exact hany (List.any_eq_true.mpr ⟨inst, hmem, strcasecmpEq_iff.mpr heq⟩)

/-- What the removal of a device does to the table. -/
theorem dmUnregister_cases (name : Option CStr) (dm : DmList W P) :
    (dmUnregister name dm).2 = dm ∨ ∃ i, (dmUnregister name dm).2 = dm.eraseIdx i := by
  cases name with
  | none => exact .inl rfl
  | some n =>
    by_cases hname : n.bytes.head? ≠ some SLASH ∨ DM_MAX_DEV_NAME < n.bytes.length
    · exact .inl (by simp only [dmUnregister, if_pos hname])
    · cases hfind : dm.findIdx? fun inst => strcasecmpEq n.bytes inst.name.bytes with
      | none => exact .inl (by simp only [dmUnregister, if_neg hname, hfind])
      | some i => exact .inr ⟨i, by simp only [dmUnregister, if_neg hname, hfind]⟩

/-- Every call keeps the invariant. -/
theorem TableOk.step {dm' : DmList W P} (h : TableOk dm) (call : DmCall W P)
    (hstep : dmStep dm call = some dm') : TableOk dm' := by
  cases call with
  | register name pdata pdev =>
    obtain rfl : (dmRegister name pdata pdev dm).2 = dm' := Option.some.inj hstep
    obtain ⟨e, heq⟩ | ⟨n, d, heq, hhead, hlen, hnew, hfull⟩ := dmRegister_cases name pdata pdev dm
    · -- the table stays
      rw [heq]
      exact h
    · rw [heq]
      refine ⟨?_, ?_, ?_, ?_⟩
      · rw [List.length_append]
        exact Nat.lt_of_le_of_ne h.length_le hfull
      · intro inst hmem
        obtain hmem | hmem := List.mem_append.mp hmem
        · exact h.slash inst hmem
        · rw [List.mem_singleton.mp hmem]
          exact hhead
      · intro inst hmem
        obtain hmem | hmem := List.mem_append.mp hmem
        · exact h.name_le inst hmem
        · rw [List.mem_singleton.mp hmem]
          exact hlen
      · refine List.pairwise_append.mpr ⟨h.distinct, List.pairwise_singleton _ _, ?_⟩
        intro a ha b hb
        rw [List.mem_singleton.mp hb]
        exact (hnew a ha).symm
  | unregister name =>
    obtain rfl : (dmUnregister name dm).2 = dm' := Option.some.inj hstep
    obtain heq | ⟨i, heq⟩ := dmUnregister_cases name dm
    · rw [heq]
      exact h
    · have hsub : (dm.eraseIdx i).Sublist dm := List.eraseIdx_sublist dm i
      rw [heq]
      exact ⟨Nat.le_trans hsub.length_le h.length_le, fun inst hmem => h.slash inst (hsub.mem hmem),
        fun inst hmem => h.name_le inst (hsub.mem hmem), h.distinct.sublist hsub⟩

/-- Every table that can be built is in order. -/
theorem tableOk_of_registered (h : Registered dm) : TableOk dm :=
  invariant_reachable (fun _ call _ hok hstep => TableOk.step hok call hstep)
    ⟨Nat.zero_le _, fun _ hmem => absurd hmem List.not_mem_nil,
      fun _ hmem => absurd hmem List.not_mem_nil, List.Pairwise.nil⟩ h

/-! ### The parts of a descriptor -/

/-- The numbers that fit in a descriptor, with the device above them. -/
theorem dmMakeDesc_eq (h : fd < 2 ^ 11) : dmMakeDesc devid fd = 2 ^ 11 * devid + fd := by
  show devid <<< 11 ||| fd = _
  rw [Nat.shiftLeft_eq, Nat.mul_comm, Nat.two_pow_add_eq_or_of_lt h]

theorem dmGetFd_eq (desc : Nat) : dmGetFd desc = desc % 2 ^ 11 :=
  Nat.and_two_pow_sub_one_eq_mod desc 11

theorem dmGetDevid_eq (desc : Nat) : dmGetDevid desc = desc / 2 ^ 11 :=
  Nat.shiftRight_eq_div_pow desc 11

theorem dmGetFd_lt (desc : Nat) : dmGetFd desc < 2 ^ 11 := by
  rw [dmGetFd_eq]
  exact Nat.mod_lt _ (by decide)

theorem dmGetFd_make (h : fd < 2 ^ 11) : dmGetFd (dmMakeDesc devid fd) = fd := by
  rw [dmGetFd_eq, dmMakeDesc_eq h]
  omega

theorem dmGetDevid_make (h : fd < 2 ^ 11) : dmGetDevid (dmMakeDesc devid fd) = devid := by
  rw [dmGetDevid_eq, dmMakeDesc_eq h]
  omega

/-- Different files have different descriptors, as long as the numbers fit. -/
theorem dmMakeDesc_inj {devid' fd' : Nat} (h : fd < 2 ^ 11) (h' : fd' < 2 ^ 11)
    (heq : dmMakeDesc devid fd = dmMakeDesc devid' fd') : devid = devid' ∧ fd = fd' := by
  have hdev := congrArg dmGetDevid heq
  have hfd := congrArg dmGetFd heq
  rw [dmGetDevid_make h, dmGetDevid_make h'] at hdev
  rw [dmGetFd_make h, dmGetFd_make h'] at hfd
  exact ⟨hdev, hfd⟩

/-! ### The calls -/

/-- The calls on a descriptor go to the functions of `inst`, with the number `fd`. -/
structure Reaches (dm : DmList W P) (desc : Nat) (inst : DmInstanceData W P) (fd : Nat) :
    Prop where
  /-- The descriptor stands for this device file. -/
  dispatched : dispatch desc dm = some (inst, fd)
  close : ∀ r, closeR desc dm r = some (match inst.pdev.pCloseR with
    | none   => (-1, { r with errno := some .ENOSYS })
    | some f => f fd inst.pdata r)
  lseek : ∀ off whence r, lseekR desc off whence dm r = some (match inst.pdev.pLseekR with
    | none   => (-1, { r with errno := some .ENOSYS })
    | some f => f fd off whence inst.pdata r)
  read : ∀ len r, readR desc len dm r = some (match inst.pdev.pReadR with
    | none   => ((-1, []), { r with errno := some .ENOSYS })
    | some f => f fd len inst.pdata r)
  write : ∀ ptr r, writeR desc ptr dm r = some (match inst.pdev.pWriteR with
    | none   => (-1, { r with errno := some .ENOSYS })
    | some f => f fd ptr inst.pdata r)

theorem reaches_iff {desc : Nat} {inst : DmInstanceData W P} :
    Reaches dm desc inst fd ↔ dispatch desc dm = some (inst, fd) := by
  refine ⟨Reaches.dispatched, fun h => ⟨h, ?_, ?_, ?_, ?_⟩⟩
  · exact fun r => by rw [closeR, h]; rfl
  · exact fun off whence r => by rw [lseekR, h]; rfl
  · exact fun len r => by rw [readR, h]; rfl
  · exact fun ptr r => by rw [writeR, h]; rfl

/-- A device that is found and opens the file gives the number that goes into the descriptor. -/
theorem openR_eq {name : Option CStr} {actname : List UInt8} {inst : DmInstanceData W P}
    {flags mode : Int} {r r' : Reent W}
    {f : List UInt8 → Int → Int → P → Reent W → Int × Reent W}
    (hfind : findDmEntry name dm = some (devid, actname)) (hinst : dm[devid]? = some inst)
    (hopen : inst.pdev.pOpenR = some f)
    (hfd : f actname flags mode inst.pdata r = (Int.ofNat fd, r')) :
    openR name flags mode dm r = ((dmMakeDesc devid fd : Int), r') := by
  simp only [openR, hfind, hinst, Option.bind_some, hopen, Option.map_some, hfd]

/-- What is expected of the descriptor of an open file: it fits, in every table the calls on it
reach that file as long as the device is in its place, and no other open file has it. -/
structure Faithful (devid fd : Nat) (inst : DmInstanceData W P) (desc : Nat) : Prop where
  fits : desc < 2 ^ 15
  reaches : ∀ dm : DmList W P, dm[devid]? = some inst → Reaches dm desc inst fd
  distinct : ∀ devid' fd', (devid', fd') ≠ (devid, fd) → fd' < 2 ^ 11 →
    dmMakeDesc devid' fd' ≠ desc

/-- A descriptor does what it should exactly if the number of the file
fits in 11 bits: then it is not negative, and both the device and the
number are taken out of it again. -/
theorem descriptor_iff (name : Option CStr) (dm : DmList W P) (flags mode : Int)
    (r r' : Reent W) (devid fd : Nat) (actname : List UInt8) (inst : DmInstanceData W P)
    (f : List UInt8 → Int → Int → P → Reent W → Int × Reent W)
    (htable : Registered dm)
    (hfind : findDmEntry name dm = some (devid, actname)) (hinst : dm[devid]? = some inst)
    (hopen : inst.pdev.pOpenR = some f)
    (hfd : f actname flags mode inst.pdata r = (Int.ofNat fd, r')) :
    ∃ desc : Nat, openR name flags mode dm r = ((desc : Int), r') ∧
      (Faithful devid fd inst desc ↔ fd < 2 ^ 11) := by
  refine ⟨_, openR_eq hfind hinst hopen hfd, ?_, ?_⟩
  · -- the functions of the device get eleven bits
    intro h
    have hto := (h.reaches dm hinst).dispatched
    obtain ⟨_, _, heq⟩ := Option.map_eq_some_iff.mp hto
    have hnum : dmGetFd (dmMakeDesc devid fd) = fd := congrArg Prod.snd heq
    exact hnum ▸ dmGetFd_lt _
  · intro h
    have hdev : devid < DM_MAX_DEVICES :=
      Nat.lt_of_lt_of_le (List.getElem?_eq_some_iff.mp hinst).1
        (tableOk_of_registered htable).length_le
    refine ⟨?_, fun dm' hinst' => reaches_iff.mpr ?_, ?_⟩
    · rw [dmMakeDesc_eq h]
      unfold DM_MAX_DEVICES at hdev
      omega
    · rw [dispatch, dmGetDevid_make h, dmGetFd_make h, hinst']
      rfl
    · intro devid' fd' hne hfd' heq
      obtain ⟨rfl, rfl⟩ := dmMakeDesc_inj hfd' h heq
      exact hne rfl

/-! ### The remote file system -/

/-- A device whose files have the numbers of another machine: it opens each with `fd`. -/
def remoteDevice (fd : Nat) : DmDevice Unit Unit where
  pOpenR := some fun _ _ _ _ r => (fd, r)

/-- The name `/rfs`. -/
def rfsName : CStr := ⟨[47, 114, 102, 115], by decide⟩

/-- The file `/rfs/a`. -/
def rfsFile : CStr := ⟨[47, 114, 102, 115, 47, 97], by decide⟩

/-- A table with the remote file system only. -/
def remoteTable (fd : Nat) : DmList Unit Unit := [⟨rfsName, (), remoteDevice fd⟩]

theorem remoteTable_registered (fd : Nat) : Registered (remoteTable fd) :=
  ⟨[.register (some rfsName) () (some (remoteDevice fd))], rfl⟩

/-- A server that opens a file with the number 7. -/
theorem descriptor_seven :
    ∃ desc : Nat, openR (some rfsFile) 0 0 (remoteTable 7) ⟨none, ()⟩ = ((desc : Int), ⟨none, ()⟩) ∧
      (Faithful 0 7 ⟨rfsName, (), remoteDevice 7⟩ desc ↔ 7 < 2 ^ 11) :=
  descriptor_iff (some rfsFile) (remoteTable 7) 0 0 ⟨none, ()⟩ ⟨none, ()⟩ 0 7 [97]
    ⟨rfsName, (), remoteDevice 7⟩ _ (remoteTable_registered 7) rfl rfl rfl rfl

/-- A server that opens a file with the number 2048: the calls on it get the number 0. -/
theorem descriptor_overflows :
    openR (some rfsFile) 0 0 (remoteTable 2048) ⟨none, ()⟩ = (2048, ⟨none, ()⟩) ∧
      dmGetDevid 2048 = 1 ∧ dmGetFd 2048 = 0 ∧ dispatch 2048 (remoteTable 2048) = none ∧
      ¬ Faithful 0 2048 ⟨rfsName, (), remoteDevice 2048⟩ 2048 := by
  refine ⟨rfl, rfl, rfl, rfl, fun h => ?_⟩
  have hto := (h.reaches (remoteTable 2048) rfl).dispatched
  rw [show dispatch 2048 (remoteTable 2048) = none from rfl] at hto
  cases hto

end Alcor.Proofs.Newlib

/-!
## The two ways to find a device

`find_dm_entry` compares the first component of a path with the names of
the devices, `dm_opendir` takes the longest name that the path starts
with. `matchLoop_spec` and `findDmEntry_path` say what each computes.
`oneDevice_iff` puts them together: they agree on a path exactly if
every name that it starts with is not longer than its first component,
and that is itself the name of a device.
-/

namespace Alcor.Proofs.Newlib

open Lib (CStr lower strncasecmpEq)
open Alcor.Newlib

variable {comp path rest : List UInt8}
variable {W P : Type}
variable {dm : DmList W P} {inst : DmInstanceData W P}

/-- The path starts with the name of the device, ignoring case. -/
def StartsWith (path : List UInt8) (inst : DmInstanceData W P) : Prop :=
  lower (path.take inst.name.bytes.length) = lower inst.name.bytes

instance (path : List UInt8) (inst : DmInstanceData W P) : Decidable (StartsWith path inst) :=
  inferInstanceAs (Decidable (_ = _))

theorem strncasecmpEq_iff :
    strncasecmpEq path inst.name.bytes inst.name.bytes.length = true ↔ StartsWith path inst := by
  rw [strncasecmpEq, List.take_length, beq_iff_eq]
  rfl

/-! ### `dm_device_id_from_name` -/

/-- What the loop finds: the longest name that the path starts with. -/
theorem matchLoop_spec (path : List UInt8) (dm : DmList W P) :
    ∀ i best, best.2 ≤ (matchLoop path dm i best).2 ∧
      (∀ inst ∈ dm, StartsWith path inst →
        inst.name.bytes.length ≤ (matchLoop path dm i best).2) ∧
      (matchLoop path dm i best = best ∨
        ∃ k inst, dm[k]? = some inst ∧ StartsWith path inst ∧
          matchLoop path dm i best = (i + k, inst.name.bytes.length)) := by
  -- on the devices, for every best one so far
  induction dm with
  | nil =>
    intro i best
    exact ⟨Nat.le_refl _, fun _ hmem => absurd hmem List.not_mem_nil, .inl rfl⟩
  | cons inst dm ih =>
    rintro i ⟨pos, matchlen⟩
    by_cases htake : strncasecmpEq path inst.name.bytes inst.name.bytes.length = true ∧
        matchlen < inst.name.bytes.length
    · -- this name is the best one so far
      have hloop : matchLoop path (inst :: dm) i (pos, matchlen) =
          matchLoop path dm (i + 1) (i, inst.name.bytes.length) := by
        rw [matchLoop, if_pos htake]
      obtain ⟨hge, hall, hres⟩ := ih (i + 1) (i, inst.name.bytes.length)
      rw [hloop]
      refine ⟨Nat.le_trans (Nat.le_of_lt htake.2) hge, ?_, .inr ?_⟩
      · intro d hmem hd
        obtain rfl | hmem := List.mem_cons.mp hmem
        · exact hge
        · exact hall d hmem hd
      · obtain heq | ⟨k, d, hk, hd, heq⟩ := hres
        · exact ⟨0, inst, rfl, strncasecmpEq_iff.mp htake.1, heq⟩
        · exact ⟨k + 1, d, hk, hd, by rw [heq, Nat.add_right_comm, Nat.add_assoc]⟩
    · -- the path does not start with it, or the best one is as long
      have hloop : matchLoop path (inst :: dm) i (pos, matchlen) =
          matchLoop path dm (i + 1) (pos, matchlen) := by
        rw [matchLoop, if_neg htake]
      obtain ⟨hge, hall, hres⟩ := ih (i + 1) (pos, matchlen)
      rw [hloop]
      refine ⟨hge, ?_, ?_⟩
      · intro d hmem hd
        obtain rfl | hmem := List.mem_cons.mp hmem
        · have hle := Nat.le_of_not_lt fun hlt => htake ⟨strncasecmpEq_iff.mpr hd, hlt⟩
          exact Nat.le_trans hle hge
        · exact hall d hmem hd
      · obtain heq | ⟨k, d, hk, hd, heq⟩ := hres
        · exact .inl heq
        · exact .inr ⟨k + 1, d, hk, hd, by rw [heq, Nat.add_right_comm, Nat.add_assoc]⟩

theorem TableOk.name_pos (h : TableOk dm) (hmem : inst ∈ dm) : 0 < inst.name.bytes.length := by
  have hhead := h.slash inst hmem
  cases hname : inst.name.bytes with
  | nil => rw [hname] at hhead; cases hhead
  | cons b bs => exact Nat.succ_pos _

/-- No device is found exactly if the path starts with no name. -/
theorem dmDeviceIdFromName_eq_none (h : TableOk dm) :
    dmDeviceIdFromName path dm = none ↔ ∀ inst ∈ dm, ¬ StartsWith path inst := by
  obtain ⟨-, hall, hres⟩ := matchLoop_spec path dm 0 (0, 0)
  constructor
  · intro hnone inst hmem hstart
    have hpos : 0 < (matchLoop path dm 0 (0, 0)).2 :=
      Nat.lt_of_lt_of_le (h.name_pos hmem) (hall inst hmem hstart)
    unfold dmDeviceIdFromName at hnone
    split at hnone
    · next heq => rw [heq] at hpos; exact absurd hpos (Nat.lt_irrefl 0)
    · cases hnone
  · intro hno
    obtain heq | ⟨k, inst, hk, hstart, -⟩ := hres
    · unfold dmDeviceIdFromName
      rw [heq]
      rfl
    · exact absurd hstart (hno inst (List.mem_of_getElem? hk))

/-- The device that is found has the longest name that the path starts with. -/
theorem dmDeviceIdFromName_eq_some {pos : Nat}
    (h : dmDeviceIdFromName path dm = some (pos, rest)) :
    ∃ inst, dm[pos]? = some inst ∧ StartsWith path inst ∧
      ∀ d ∈ dm, StartsWith path d → d.name.bytes.length ≤ inst.name.bytes.length := by
  obtain ⟨-, hall, hres⟩ := matchLoop_spec path dm 0 (0, 0)
  obtain heq | ⟨k, inst, hk, hstart, heq⟩ := hres
  · rw [dmDeviceIdFromName, heq] at h
    cases h
  · rw [heq] at hall
    refine ⟨inst, ?_, hstart, hall⟩
    unfold dmDeviceIdFromName at h
    rw [heq, Nat.zero_add] at h
    split at h
    · cases h
    · next hsplit =>
      obtain ⟨rfl, -⟩ := Prod.mk.inj hsplit
      obtain ⟨rfl, -⟩ := Prod.mk.inj (Option.some.inj h)
      exact hk

/-! ### `find_dm_entry` -/

/-- The path with the first component `comp`. -/
def pathOf (comp rest : List UInt8) : List UInt8 := SLASH :: comp ++ SLASH :: rest

theorem findIdx?_slash (h : SLASH ∉ comp) (rest : List UInt8) :
    (comp ++ SLASH :: rest).findIdx? (· = SLASH) = some comp.length := by
  induction comp with
  | nil => rfl
  | cons b bs ih =>
    obtain ⟨hb, hbs⟩ := not_or.mp (fun hmem => h (List.mem_cons.mpr hmem))
    rw [List.cons_append, List.findIdx?_cons, ih hbs]
    simp [Ne.symm hb]

/-- The device is looked up by the first component. -/
theorem findDmEntry_path {name : CStr} (hname : name.bytes = pathOf comp rest)
    (hcomp : SLASH ∉ comp) (hrest : rest ≠ []) (dm : DmList W P) :
    findDmEntry (some name) dm =
      if comp = [] ∨ DM_MAX_DEV_NAME < (SLASH :: comp).length then none
      else (dm.findIdx? fun inst => strcasecmpEq (SLASH :: comp) inst.name.bytes).map (·, rest) := by
  have htake : (SLASH :: (comp ++ SLASH :: rest)).take (comp.length + 1) = SLASH :: comp := by
    simp
  have hdrop : (SLASH :: (comp ++ SLASH :: rest)).drop (comp.length + 2) = rest := by
    simp
  have hshort : (DM_MAX_DEV_NAME < comp.length + 1 ∨ comp.length + 1 = 1) ↔
      (comp = [] ∨ DM_MAX_DEV_NAME < (SLASH :: comp).length) := by
    rw [or_comm, List.length_cons]
    simp
  simp only [findDmEntry, Option.map_some, hname, pathOf, List.cons_append, ne_eq,
    not_true_eq_false, if_false, findIdx?_slash hcomp]
  by_cases hbad : comp = [] ∨ DM_MAX_DEV_NAME < (SLASH :: comp).length
  · rw [if_pos hbad, if_pos (hshort.mpr hbad)]
    rfl
  · rw [if_neg hbad, if_neg (fun hb => hbad (hshort.mp hb)), Option.bind_some, htake, hdrop]
    simp only [if_neg hrest]
    cases dm.findIdx? fun inst => strcasecmpEq (SLASH :: comp) inst.name.bytes with
    | none => rfl
    | some i => rfl

/-! ### Agreement -/

/-- Both ways give the same device, and none when no name is the first component. -/
def OneDevice (name : CStr) (comp : List UInt8) (dm : DmList W P) : Prop :=
  (findDmEntry (some name) dm).map Prod.fst =
      (dmDeviceIdFromName name.bytes dm).map Prod.fst ∧
    ((∀ inst ∈ dm, lower inst.name.bytes ≠ lower (SLASH :: comp)) →
      findDmEntry (some name) dm = none ∧ dmDeviceIdFromName name.bytes dm = none)

/-- Devices with the same name are at the same place. -/
theorem TableOk.unique (h : TableOk dm) {i j : Nat} {a b : DmInstanceData W P}
    (ha : dm[i]? = some a) (hb : dm[j]? = some b)
    (hname : lower a.name.bytes = lower b.name.bytes) : i = j := by
  obtain ⟨hi, rfl⟩ := List.getElem?_eq_some_iff.mp ha
  obtain ⟨hj, rfl⟩ := List.getElem?_eq_some_iff.mp hb
  have hpair := List.pairwise_iff_getElem.mp h.distinct
  rcases Nat.lt_trichotomy i j with hlt | heq | hgt
  · exact absurd hname (hpair i j hi hj hlt)
  · exact heq
  · exact absurd hname.symm (hpair j i hj hi hgt)

theorem length_of_first (h : lower inst.name.bytes = lower (SLASH :: comp)) :
    inst.name.bytes.length = (SLASH :: comp).length := by
  simpa using congrArg List.length h

theorem startsWith_of_first (h : lower inst.name.bytes = lower (SLASH :: comp)) :
    StartsWith (pathOf comp rest) inst := by
  rw [StartsWith, length_of_first h, pathOf, List.take_left, h]

/-- No entry is found if no device has the first component as its name. -/
theorem findIdx_first_eq_none (hno : ∀ inst ∈ dm, lower inst.name.bytes ≠ lower (SLASH :: comp)) :
    dm.findIdx? (fun inst => strcasecmpEq (SLASH :: comp) inst.name.bytes) = none := by
  rw [List.findIdx?_eq_none_iff]
  intro inst hmem
  rw [Bool.eq_false_iff]
  intro heq
  exact hno inst hmem (strcasecmpEq_iff.mp heq).symm

/-- The two ways to find a device agree exactly if every name that the
path starts with is no longer than the first component, which is the
name of a device, and not empty. One of them looks for a prefix, and
the other one compares components. -/
theorem oneDevice_iff (dm : DmList W P) (htable : Registered dm) (name : CStr)
    (comp rest : List UInt8) (hname : name.bytes = pathOf comp rest) (hcomp : SLASH ∉ comp)
    (hrest : rest ≠ []) :
    OneDevice name comp dm ↔ ∀ inst ∈ dm, StartsWith name.bytes inst →
      comp ≠ [] ∧ inst.name.bytes.length ≤ (SLASH :: comp).length ∧
        ∃ e ∈ dm, lower e.name.bytes = lower (SLASH :: comp) := by
  have hok := tableOk_of_registered htable
  have hfind := findDmEntry_path hname hcomp hrest dm
  constructor
  · rintro ⟨hsame, -⟩ inst hmem hstart
    cases hid : dmDeviceIdFromName name.bytes dm with
    | none => exact absurd hstart ((dmDeviceIdFromName_eq_none hok).mp hid inst hmem)
    | some found =>
      obtain ⟨pos, tail⟩ := found
      obtain ⟨e, he, -, hlongest⟩ := dmDeviceIdFromName_eq_some hid
      rw [hid, hfind] at hsame
      split at hsame
      · cases hsame
      · next hgood =>
        rw [Option.map_map] at hsame
        obtain ⟨i, hi, rfl⟩ := Option.map_eq_some_iff.mp hsame
        obtain ⟨hlt, heq, -⟩ := List.findIdx?_eq_some_iff_getElem.mp hi
        obtain ⟨_, rfl⟩ := List.getElem?_eq_some_iff.mp he
        have hfirst := (strcasecmpEq_iff.mp heq).symm
        refine ⟨fun h => hgood (.inl h), ?_, _, List.getElem_mem hlt, hfirst⟩
        exact length_of_first hfirst ▸ hlongest inst hmem hstart
  · intro hcond
    refine ⟨?_, fun hno => ?_⟩
    · cases hid : dmDeviceIdFromName name.bytes dm with
      | none =>
        -- a device with the first component as its name would be found
        have hnone := (dmDeviceIdFromName_eq_none hok).mp hid
        rw [hfind]
        split
        · rfl
        · have hidx := findIdx_first_eq_none fun inst hmem heq =>
            hnone inst hmem (hname ▸ startsWith_of_first heq)
          rw [hidx]
          rfl
      | some found =>
        obtain ⟨pos, tail⟩ := found
        obtain ⟨d, hd, hstart, hlongest⟩ := dmDeviceIdFromName_eq_some hid
        obtain ⟨hne, hle, e, he, hfirst⟩ := hcond d (List.mem_of_getElem? hd) hstart
        have helen := length_of_first hfirst
        -- the longest name is as long as the first component, so it is the same name
        have hdlen : d.name.bytes.length = (SLASH :: comp).length := by
          have hge := hlongest e he (hname ▸ startsWith_of_first hfirst)
          omega
        have hdname : lower d.name.bytes = lower (SLASH :: comp) := by
          rw [StartsWith, hdlen, hname, pathOf, List.take_left] at hstart
          exact hstart.symm
        have hshort : ¬ (comp = [] ∨ DM_MAX_DEV_NAME < (SLASH :: comp).length) := by
          refine not_or.mpr ⟨hne, Nat.not_lt.mpr ?_⟩
          exact hdlen ▸ hok.name_le d (List.mem_of_getElem? hd)
        rw [hfind, if_neg hshort, Option.map_map]
        cases hidx : dm.findIdx? fun inst => strcasecmpEq (SLASH :: comp) inst.name.bytes with
        | none =>
          have hfalse := List.findIdx?_eq_none_iff.mp hidx d (List.mem_of_getElem? hd)
          rw [strcasecmpEq_iff.mpr hdname.symm] at hfalse
          cases hfalse
        | some i =>
          obtain ⟨hlt, heq, -⟩ := List.findIdx?_eq_some_iff_getElem.mp hidx
          have hi : i = pos := hok.unique (List.getElem?_eq_getElem hlt) hd
            ((strcasecmpEq_iff.mp heq).symm.trans hdname.symm)
          rw [hi]
          rfl
    · -- no name is the first component, so the path starts with none
      have hnone : ∀ inst ∈ dm, ¬ StartsWith name.bytes inst := by
        intro inst hmem hstart
        obtain ⟨-, -, e, he, hfirst⟩ := hcond inst hmem hstart
        exact hno e he hfirst
      refine ⟨?_, (dmDeviceIdFromName_eq_none hok).mpr hnone⟩
      rw [hfind]
      split
      · rfl
      · rw [findIdx_first_eq_none hno]
        rfl

/-! ### Paths of a board -/

/-- A device without functions. -/
def noDevice : DmDevice Unit Unit := {}

/-- The table with `/rom` only. -/
def romTable : DmList Unit Unit := [⟨⟨[47, 114, 111, 109], by decide⟩, (), noDevice⟩]

theorem romTable_registered : Registered romTable :=
  ⟨[.register (some ⟨[47, 114, 111, 109], by decide⟩) () (some noDevice)], rfl⟩

/-- The path `/rom/a`. -/
def romFile : CStr := ⟨[47, 114, 111, 109, 47, 97], by decide⟩

/-- The path `/romx/a`. -/
def otherFile : CStr := ⟨[47, 114, 111, 109, 120, 47, 97], by decide⟩

/-- The component `rom`. -/
def romComp : List UInt8 := [114, 111, 109]

/-- For a file of `/rom` both ways find the same device, if no other
name is in the way. -/
theorem oneDevice_rom : OneDevice romFile romComp romTable ↔
    ∀ inst ∈ romTable, StartsWith romFile.bytes inst →
      romComp ≠ [] ∧ inst.name.bytes.length ≤ (SLASH :: romComp).length ∧
        ∃ e ∈ romTable, lower e.name.bytes = lower (SLASH :: romComp) :=
  oneDevice_iff romTable romTable_registered romFile romComp [97] rfl (by decide) (by decide)

/-- With `/rom` only, the directory `/romx/a` is opened on `/rom`, and the file is not found. -/
theorem romx_differs : Registered romTable ∧ otherFile.bytes = pathOf [114, 111, 109, 120] [97] ∧
    findDmEntry (some otherFile) romTable = none ∧
    dmDeviceIdFromName otherFile.bytes romTable = some (0, [120, 47, 97]) ∧
    ¬ OneDevice otherFile [114, 111, 109, 120] romTable := by
  refine ⟨romTable_registered, rfl, by decide, by decide, ?_⟩
  rintro ⟨hsame, -⟩
  revert hsame
  decide

end Alcor.Proofs.Newlib
