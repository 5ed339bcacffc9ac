import Alcor.Newlib.Stubs
import Alcor.Proofs.Newlib.Descriptors

/-!
# `Alcor.Proofs.Newlib.Handles`: what keeps leading to its device

A handle leads to its device as long as the place in it is that of its
registration in the table.

* `kept_iff_placed`: a table in order is kept when every handle has the
  place of its registration.
* `placed_erase_iff` and `placed_obtain_iff`: the two events that can
  change this, the removal of a device and a new handle. `step_exact`
  says for each event when it stays so.
* `numbered_of_reachable`: the table itself is in order after every run.
* `kept_iff` is the result about whole runs.
-/

set_option autoImplicit false

namespace Alcor.Proofs.Newlib

open Lib (CStr lower)
open Lib.Run (run AllSteps)
open Alcor.Newlib

variable {i devid : Nat}
variable {W P : Type}
variable {s : Session W P} {dm : DmList W P} {r : Reent W}

/-! ### What is expected -/

/-- The calls on a directory go to the functions of `inst`. -/
structure ReachesDir (dm : DmList W P) (d : DmDir) (inst : DmInstanceData W P) : Prop where
  found : dm[d.devid]? = some inst
  readdir : ∀ r, dmReaddir d dm r = match inst.pdev.pReaddirR with
    | none   => (none, { r with errno := some .EBADF })
    | some f => f d.userdata inst.pdata r
  closedir : ∀ r, dmClosedir d dm r = match inst.pdev.pClosedirR with
    | none   => (-1, { r with errno := some .EBADF })
    | some f => f d.userdata inst.pdata r

/-- The calls on a handle go to the device. -/
def Leads (dm : DmList W P) (inst : DmInstanceData W P) : Handle → Prop
  | .desc file => Reaches dm file inst (dmGetFd file)
  | .dir d     => ReachesDir dm d inst

/-- The names are distinct, there are not too many of them, and every handle of a device that is
still registered leads to it. -/
structure Kept (s : Session W P) : Prop where
  distinct : s.dm.Pairwise fun a b => lower a.name.bytes ≠ lower b.name.bytes
  length_le : s.dm.length ≤ DM_MAX_DEVICES
  leads : ∀ h ∈ s.handles, ∀ (i : Nat) (inst : DmInstanceData W P),
    s.regs[i]? = some h.reg → s.dm[i]? = some inst → Leads s.dm inst h.handle

theorem leads_iff_found {inst : DmInstanceData W P} {h : Handle} :
    Leads dm inst h ↔ dm[h.devid]? = some inst := by
  cases h with
  | desc file =>
    rw [Leads, reaches_iff, dispatch, Handle.devid]
    cases dm[dmGetDevid file]? <;> simp
  | dir d =>
    refine ⟨ReachesDir.found, fun h => ?_⟩
    have h : dm[d.devid]? = some inst := h
    refine ⟨h, fun r => ?_, fun r => ?_⟩
    · cases hf : inst.pdev.pReaddirR <;> simp [dmReaddir, h, hf]
    · cases hf : inst.pdev.pClosedirR <;> simp [dmClosedir, h, hf]

/-! ### The table -/

/-- The registrations are those of the entries of the table. -/
structure Numbered (s : Session W P) : Prop where
  table : TableOk s.dm
  length_eq : s.regs.length = s.dm.length
  nodup : s.regs.Nodup
  old : ∀ n ∈ s.regs, n < s.next
  handles_old : ∀ h ∈ s.handles, h.reg < s.next

/-- Every handle of a registered device has the place of its registration. -/
def Placed (s : Session W P) : Prop :=
  ∀ h ∈ s.handles, ∀ i, s.regs[i]? = some h.reg → h.handle.devid = i

/-- No two places of the table have the same entry. -/
theorem TableOk.place_unique (h : TableOk dm) {j : Nat} {inst : DmInstanceData W P}
    (hi : dm[i]? = some inst) (hj : dm[j]? = some inst) : i = j := by
  obtain ⟨hilt, hi⟩ := List.getElem?_eq_some_iff.mp hi
  obtain ⟨hjlt, hj⟩ := List.getElem?_eq_some_iff.mp hj
  have hdistinct := List.pairwise_iff_getElem.mp h.distinct
  by_contra hne
  rcases Nat.lt_or_gt_of_ne hne with hlt | hlt
  · exact hdistinct i j hilt hjlt hlt (by rw [hi, hj])
  · exact hdistinct j i hjlt hilt hlt (by rw [hi, hj])

theorem Numbered.place_unique (h : Numbered s) {j reg : Nat} (hi : s.regs[i]? = some reg)
    (hj : s.regs[j]? = some reg) : i = j :=
  (List.getElem?_inj (List.getElem?_eq_some_iff.mp hi).1 h.nodup).mp (hi.trans hj.symm)

/-- A table in order is kept when every handle has the place of its registration. -/
theorem kept_iff_placed (hnum : Numbered s) : Kept s ↔ Placed s := by
  constructor
  · intro hkept h hmem i hreg
    have hlt : i < s.dm.length := hnum.length_eq ▸ (List.getElem?_eq_some_iff.mp hreg).1
    have hinst := List.getElem?_eq_getElem hlt
    exact hnum.table.place_unique
      (leads_iff_found.mp (hkept.leads h hmem i _ hreg hinst)) hinst
  · intro hplaced
    refine ⟨hnum.table.distinct, hnum.table.length_le, fun h hmem i inst hreg hinst => ?_⟩
    rw [leads_iff_found, hplaced h hmem i hreg]
    exact hinst

/-! ### The events -/

/-- In a table that is in order a name that is found is a valid one. -/
theorem dmUnregister_eq (name : Option CStr) (hdm : TableOk dm) :
    (∃ i, removed name dm = some i ∧ dmUnregister name dm = (.ok (), dm.eraseIdx i)) ∨
      removed name dm = none ∧ ∃ e, dmUnregister name dm = (.error e, dm) := by
  cases name with
  | none => exact .inr ⟨rfl, .invalidName, rfl⟩
  | some name =>
    have hremoved : removed (some name) dm =
        dm.findIdx? fun inst => strcasecmpEq name.bytes inst.name.bytes := rfl
    cases hfind : dm.findIdx? fun inst => strcasecmpEq name.bytes inst.name.bytes with
    | none =>
      refine .inr ⟨hremoved.trans hfind, ?_⟩
      rw [dmUnregister]
      split
      · exact ⟨.invalidName, rfl⟩
      · rw [hfind]
        exact ⟨.notRegistered, rfl⟩
    | some i =>
      refine .inl ⟨i, hremoved.trans hfind, ?_⟩
      obtain ⟨hlt, hsame, -⟩ := List.findIdx?_eq_some_iff_getElem.mp hfind
      have hmem := List.getElem_mem hlt
      rw [strcasecmpEq_iff] at hsame
      -- the checks of the source hold of a name that is in the table
      have hlen : name.bytes.length ≤ DM_MAX_DEV_NAME := by
        have hlower := congrArg List.length hsame
        rw [lower, lower, List.length_map, List.length_map] at hlower
        rw [hlower]
        exact hdm.name_le _ hmem
      have hslash : name.bytes.head? = some SLASH := by
        have hhead := congrArg List.head? hsame
        rw [lower, lower, List.head?_map, List.head?_map, hdm.slash _ hmem,
          Option.map_some, Option.map_eq_some_iff] at hhead
        obtain ⟨c, hc, hlower⟩ := hhead
        rw [hc, Lib.eq_of_tolower (by decide) hlower]
        rfl
      rw [dmUnregister, if_neg (by simp [hslash, hlen]), hfind]

/-- A registration does not move the devices that are there. -/
theorem numbered_append (hnum : Numbered s) (hdm : TableOk dm)
    (hlen : dm.length = s.dm.length + 1) :
    Numbered { s with dm, regs := s.regs ++ [s.next], next := s.next + 1 } := by
  refine ⟨hdm, ?_, ?_, ?_, fun h hmem => Nat.lt_succ_of_lt (hnum.handles_old h hmem)⟩
  · rw [List.length_append, List.length_singleton, hnum.length_eq, hlen]
  · refine List.nodup_append.mpr ⟨hnum.nodup, List.pairwise_singleton _ _, fun a ha b hb => ?_⟩
    rw [List.mem_singleton.mp hb]
    exact Nat.ne_of_lt (hnum.old a ha)
  · intro n hn
    obtain hn | hn := List.mem_append.mp hn
    · exact Nat.lt_succ_of_lt (hnum.old n hn)
    · rw [List.mem_singleton.mp hn]
      exact Nat.lt_succ_self _

theorem placed_append (hnum : Numbered s) (hplaced : Placed s) :
    Placed { s with dm, regs := s.regs ++ [s.next], next := s.next + 1 } := by
  intro h hmem i hreg
  have hreg : (s.regs ++ [s.next])[i]? = some h.reg := hreg
  refine hplaced h hmem i ?_
  rcases Nat.lt_or_ge i s.regs.length with hlt | hge
  · rwa [List.getElem?_append_left hlt] at hreg
  · -- the number of the new registration is in no handle
    rw [List.getElem?_append_right hge, List.getElem?_singleton] at hreg
    split at hreg
    · exact absurd (Option.some.inj hreg) (Nat.ne_of_gt (hnum.handles_old h hmem))
    · cases hreg

/-- The removal of a device keeps the handles of the others exactly if none of them has a place
behind it. -/
theorem placed_erase_iff (hplaced : Placed s) :
    Placed { s with dm, regs := s.regs.eraseIdx i } ↔
      ∀ h ∈ s.handles, ∀ j, s.regs[j]? = some h.reg → j ≤ i := by
  constructor
  · intro hafter h hmem j hreg
    by_contra hlt
    have hmoved : (s.regs.eraseIdx i)[j - 1]? = some h.reg := by
      rw [List.getElem?_eraseIdx_of_ge (by omega), show j - 1 + 1 = j by omega, hreg]
    have hnow := hafter h hmem (j - 1) hmoved
    have hbefore := hplaced h hmem j hreg
    omega
  · intro hbelow h hmem k hreg
    have hreg : (s.regs.eraseIdx i)[k]? = some h.reg := hreg
    rcases Nat.lt_or_ge k i with hlt | hge
    · rw [List.getElem?_eraseIdx_of_lt hlt] at hreg
      exact hplaced h hmem k hreg
    · rw [List.getElem?_eraseIdx_of_ge hge] at hreg
      have hle := hbelow h hmem (k + 1) hreg
      omega

theorem numbered_erase (hnum : Numbered s) (hdm : TableOk (s.dm.eraseIdx i)) :
    Numbered { s with dm := s.dm.eraseIdx i, regs := s.regs.eraseIdx i } := by
  have hsub := List.eraseIdx_sublist s.regs i
  refine ⟨hdm, ?_, hnum.nodup.sublist hsub, fun n hn => hnum.old n (hsub.mem hn),
    hnum.handles_old⟩
  rw [List.length_eraseIdx, List.length_eraseIdx, hnum.length_eq]

/-- A new handle has its place exactly if it contains that of its device. -/
theorem placed_obtain_iff (hnum : Numbered s) (hplaced : Placed s) (hdevid : devid < s.dm.length)
    {handle : Handle} : Placed (s.obtain devid handle) ↔ handle.devid = devid := by
  have hreg := List.getElem?_eq_getElem (hnum.length_eq ▸ hdevid : devid < s.regs.length)
  rw [Session.obtain, hreg]
  constructor
  · exact fun hafter => hafter _ (List.mem_append_right _ (List.mem_singleton_self _)) devid hreg
  · intro hhandle h hmem i hi
    obtain hmem | hmem := List.mem_append.mp hmem
    · exact hplaced h hmem i hi
    · rw [List.mem_singleton.mp hmem] at hi ⊢
      rw [hhandle]
      exact hnum.place_unique hreg hi

theorem numbered_obtain (hnum : Numbered s) (devid : Nat) (handle : Handle) :
    Numbered (s.obtain devid handle) := by
  unfold Session.obtain
  split
  · exact hnum
  · next reg hreg =>
      refine ⟨hnum.table, hnum.length_eq, hnum.nodup, hnum.old, fun h hmem => ?_⟩
      obtain hmem | hmem := List.mem_append.mp hmem
      · exact hnum.handles_old h hmem
      · rw [List.mem_singleton.mp hmem]
        exact hnum.old _ (List.mem_of_getElem? hreg)

/-! ### Opening -/

theorem openR_sys {name : Option CStr} {flags mode : Int} {r' : Reent W} {file : Nat}
    {actname : List UInt8} (h : openR name flags mode dm r = (.ofNat file, r'))
    (hfind : findDmEntry name dm = some (devid, actname)) :
    ∃ fd, deviceFd name flags mode dm r = some (devid, fd) ∧ file = dmMakeDesc devid fd := by
  simp only [openR, hfind] at h
  cases hf : (dm[devid]?.bind fun inst => inst.pdev.pOpenR.map fun f =>
      f actname flags mode inst.pdata) with
  | none => simp [hf] at h
  | some f =>
    obtain ⟨inst, hinst, hopen⟩ := Option.bind_eq_some_iff.mp hf
    obtain ⟨g, hg, rfl⟩ := Option.map_eq_some_iff.mp hopen
    simp only [hf] at h
    split at h
    · next fd r₁ hfd =>
        refine ⟨fd, ?_, (Int.ofNat.inj (congrArg Prod.fst h)).symm⟩
        simp [deviceFd, hfind, hinst, hg, hfd]
    · next res r₁ hneg hfd =>
        exact absurd (congrArg Prod.fst h) (hneg file)

/-- A file that the device opens gets a descriptor. -/
theorem openR_of_deviceFd {name : Option CStr} {flags mode : Int} {fd : Nat}
    (h : deviceFd name flags mode dm r = some (devid, fd)) :
    (∃ actname, findDmEntry name dm = some (devid, actname)) ∧ devid < dm.length ∧
      ∃ r', openR name flags mode dm r = (.ofNat (dmMakeDesc devid fd), r') := by
  simp only [deviceFd, Option.bind_eq_bind, Option.bind_eq_some_iff] at h
  obtain ⟨⟨devid', actname⟩, hfind, inst, hinst, f, hf, hfd⟩ := h
  split at hfd
  · next fd' hres =>
      simp only [Option.some.injEq, Prod.mk.injEq] at hfd
      obtain ⟨rfl, rfl⟩ := hfd
      exact ⟨⟨actname, hfind⟩, (List.getElem?_eq_some_iff.mp hinst).1, _,
        openR_eq hfind hinst hf (Prod.ext hres rfl)⟩
  · cases hfd

/-- A directory handle has the number of a device. -/
theorem dmOpendir_lt {dirname : List UInt8} {malloc : Bool} {r' : Reent W} {d : DmDir}
    (h : dmOpendir dirname malloc dm r = (some d, r')) : d.devid < dm.length := by
  unfold dmOpendir at h
  split at h
  · simp at h
  · next pos rest _ =>
      split at h
      · simp at h
      · next f hf =>
          obtain ⟨inst, hinst, -⟩ := Option.bind_eq_some_iff.mp hf
          split at h
          · simp at h
          · split at h
            · simp only [Prod.mk.injEq, Option.some.injEq] at h
              rw [← h.1]
              exact (List.getElem?_eq_some_iff.mp hinst).1
            · simp at h

/-! ### Steps -/

/-- Another state of the rest of the system changes nothing here. -/
theorem Numbered.other (h : Numbered s) (r : Reent W) : Numbered { s with r } :=
  ⟨h.table, h.length_eq, h.nodup, h.old, h.handles_old⟩

theorem Numbered.closed (h : Numbered s) (r : Reent W) (k : Nat) :
    Numbered { s with r, handles := s.handles.eraseIdx k } :=
  ⟨h.table, h.length_eq, h.nodup, h.old, fun o ho =>
    h.handles_old o ((List.eraseIdx_sublist _ _).mem ho)⟩

/-- The event keeps the numbers in order, and it keeps the handles in their places exactly when it
meets the condition. -/
def Exact (s : Session W P) (e : Event W P) : Prop :=
  (∀ s', sessionStep s e = some s' → Numbered s') ∧
    (Placed s → (Keeps s e ↔ ∀ s', sessionStep s e = some s' → Placed s'))

/-- It is enough to look at the one state that there is. -/
theorem exact_of_some {t : Session W P} {e : Event W P} (ht : sessionStep s e = some t)
    (hnumbered : Numbered t) (hexact : Placed s → (Keeps s e ↔ Placed t)) : Exact s e := by
  rw [Exact]
  simp only [ht, Option.some.injEq, forall_eq']
  exact ⟨hnumbered, hexact⟩

theorem register_exact (hnum : Numbered s) (name : Option CStr) (pdata : P)
    (pdev : Option (DmDevice W P)) : Exact s (.register name pdata pdev) := by
  have hok := hnum.table.step (.register name pdata pdev) rfl
  obtain ⟨e, hreg⟩ | ⟨n, d, hreg, -⟩ := dmRegister_cases name pdata pdev s.dm
  · -- the device was refused
    refine exact_of_some (t := s) (by rw [sessionStep, hreg]) hnum ?_
    exact fun hplaced => ⟨fun _ => hplaced, fun _ => trivial⟩
  · -- a new entry takes the place behind all others
    rw [hreg] at hok
    refine exact_of_some (by rw [sessionStep, hreg]) (numbered_append hnum hok (by simp)) ?_
    exact fun hplaced => ⟨fun _ => placed_append hnum hplaced, fun _ => trivial⟩

/-- A removal is the event that moves entries. -/
theorem unregister_exact (hnum : Numbered s) (name : Option CStr) : Exact s (.unregister name) := by
  have hok := hnum.table.step (.unregister name) rfl
  obtain ⟨i, hi, hres⟩ | ⟨hnone, e, hres⟩ := dmUnregister_eq name hnum.table
  · rw [hres] at hok
    refine exact_of_some (by rw [sessionStep, hres, hi]) (numbered_erase hnum hok) ?_
    intro hplaced
    rw [placed_erase_iff hplaced, Keeps]
    constructor
    · intro h
      exact h i hi
    · intro h i' hi'
      obtain rfl := Option.some.inj (hi.symm.trans hi')
      exact h
  · -- no such device: the table stays
    refine exact_of_some (t := s) (by rw [sessionStep, hres, hnone]) hnum ?_
    refine fun hplaced => ⟨fun _ => hplaced, fun _ i hi => ?_⟩
    rw [hnone] at hi
    cases hi

/-- An open keeps all handles exactly if the number it obtains fits. -/
theorem openFile_exact (hnum : Numbered s) (name : Option CStr) (flags mode : Int) :
    Exact s (.openFile name flags mode) := by
  cases hfd : deviceFd name flags mode s.dm s.r with
  | some opened =>
    obtain ⟨devid, fd⟩ := opened
    obtain ⟨⟨actname, hfind⟩, hlt, r, hopen⟩ := openR_of_deviceFd hfd
    refine exact_of_some (by rw [sessionStep, hopen, hfind])
      (numbered_obtain (hnum.other r) devid _) fun hplaced => ?_
    -- the descriptor holds the place unless the number of the device reaches its bits
    have hplaced : Placed { s with r } := hplaced
    rw [placed_obtain_iff (hnum.other r) hplaced hlt, Handle.devid, Keeps]
    simp only [hfd, Option.some.injEq, Prod.mk.injEq, and_imp, forall_apply_eq_imp_iff,
      forall_eq']
  | none =>
    -- nothing was opened, so no handle is obtained
    cases hopen : openR name flags mode s.dm s.r with
    | mk res r =>
      have hstep : sessionStep s (.openFile name flags mode) = some { s with r } := by
        rw [sessionStep, hopen]
        split
        · next file r' devid actname hres hfind =>
            obtain ⟨fd, hfd', -⟩ := openR_sys (hopen.trans hres) hfind
            rw [hfd] at hfd'
            cases hfd'
        · next hsame _ => rw [(Prod.mk.inj hsame).2]
      refine exact_of_some hstep (hnum.other r) fun hplaced => ?_
      refine ⟨fun _ => hplaced, fun _ devid fd hsome => ?_⟩
      rw [hfd] at hsome
      cases hsome

/-- So does the opening of a directory. -/
theorem opendir_exact (hnum : Numbered s) (dirname : List UInt8) (malloc : Bool) :
    Exact s (.opendir dirname malloc) := by
  cases hopen : dmOpendir dirname malloc s.dm s.r with
  | mk d r =>
    cases d with
    | none =>
      refine exact_of_some (by rw [sessionStep, hopen]) (hnum.other r) ?_
      exact fun hplaced => ⟨fun _ => hplaced, fun _ => trivial⟩
    | some d =>
      refine exact_of_some (by rw [sessionStep, hopen])
        (numbered_obtain (hnum.other r) d.devid _) fun hplaced => ?_
      -- a directory has the place in a field of its own
      have hplaced : Placed { s with r } := hplaced
      rw [placed_obtain_iff (hnum.other r) hplaced (dmOpendir_lt hopen)]
      exact ⟨fun _ => rfl, fun _ => trivial⟩

/-- To close a handle keeps the others. -/
theorem close_exact (hnum : Numbered s) (k : Nat) : Exact s (.close k) := by
  have hclosed : ∀ r, Placed s → Placed { s with r, handles := s.handles.eraseIdx k } :=
    fun r hplaced h hmem => hplaced h ((List.eraseIdx_sublist _ _).mem hmem)
  cases hk : s.handles[k]? with
  | none =>
    refine exact_of_some (by rw [sessionStep, hk]) hnum ?_
    exact fun hplaced => ⟨fun _ => hplaced, fun _ => trivial⟩
  | some o =>
    obtain ⟨handle, reg⟩ := o
    cases handle with
    | desc file =>
      -- the device's function may not return
      rw [Exact]
      simp only [sessionStep, hk]
      refine ⟨fun s' hs' => ?_, fun hplaced => ⟨fun _ s' hs' => ?_, fun _ => trivial⟩⟩
      · obtain ⟨res, -, rfl⟩ := Option.map_eq_some_iff.mp hs'
        exact hnum.closed res.2 k
      · obtain ⟨res, -, rfl⟩ := Option.map_eq_some_iff.mp hs'
        exact hclosed res.2 hplaced
    | dir d =>
      refine exact_of_some (by rw [sessionStep, hk]) (hnum.closed _ k) ?_
      exact fun hplaced => ⟨fun _ => hclosed _ hplaced, fun _ => trivial⟩

theorem step_exact (hnum : Numbered s) (e : Event W P) : Exact s e := by
  cases e with
  | register name pdata pdev => exact register_exact hnum name pdata pdev
  | unregister name => exact unregister_exact hnum name
  | openFile name flags mode => exact openFile_exact hnum name flags mode
  | opendir dirname malloc => exact opendir_exact hnum dirname malloc
  | close k => exact close_exact hnum k
  | other r =>
    refine exact_of_some (by rw [sessionStep]) (hnum.other r) ?_
    exact fun hplaced => ⟨fun _ => hplaced, fun _ => trivial⟩

/-! ### Runs -/

theorem numbered_start (r : Reent W) : Numbered (Session.start (P := P) r) :=
  ⟨⟨Nat.zero_le _, fun _ h => absurd h List.not_mem_nil, fun _ h => absurd h List.not_mem_nil,
    List.Pairwise.nil⟩, rfl, List.Pairwise.nil, fun _ h => absurd h List.not_mem_nil,
    fun _ h => absurd h List.not_mem_nil⟩

theorem placed_start (r : Reent W) : Placed (Session.start (P := P) r) :=
  fun _ h => absurd h List.not_mem_nil

/-- The registrations and the table are in order after every run. -/
theorem numbered_of_reachable (h : Lib.Run.Reachable sessionStep (Session.start r) s) :
    Numbered s :=
  Lib.Run.invariant_reachable (fun _ e s' hnum hstep => (step_exact hnum e).1 s' hstep)
    (numbered_start r) h

/-- The table has distinct names and is not too long after every run, and in a run every handle of a
registered device leads to it throughout exactly if no step of the run moves such a device or gives
a number that reaches the bits of the device. -/
theorem kept_iff (r : Reent W) :
    (∀ s : Session W P, Lib.Run.Reachable sessionStep (Session.start r) s →
      s.dm.Pairwise (fun a b => lower a.name.bytes ≠ lower b.name.bytes) ∧
        s.dm.length ≤ DM_MAX_DEVICES) ∧
    ∀ es : List (Event W P),
      (∀ xs ys s, es = xs ++ ys → run sessionStep (Session.start r) xs = some s → Kept s) ↔
        AllSteps sessionStep Keeps (Session.start r) es := by
  refine ⟨fun s hs => ?_, fun es => ?_⟩
  · have htable := (numbered_of_reachable hs).table
    exact ⟨htable.distinct, htable.length_le⟩
  · have hplaced := Lib.Run.invariant_run_iff (P := Keeps) (I := Placed) (J := Numbered)
      (fun _ e s' hnum hstep => (step_exact hnum e).1 s' hstep)
      (fun _ e hnum hplaced => (step_exact hnum e).2 hplaced) es _ (numbered_start r)
      (placed_start r)
    rw [← hplaced]
    refine forall_congr' fun xs => forall_congr' fun ys => forall_congr' fun s => ?_
    refine imp_congr_right fun _ => imp_congr_right fun hrun => ?_
    exact kept_iff_placed (numbered_of_reachable ⟨xs, hrun⟩)

/-- A device that opens every file with the number 0. -/
def zeroDevice : DmDevice Unit Unit where
  pOpenR := some fun _ _ _ _ r => (0, r)

/-- A name of a slash and one more character. -/
def shortName (c : UInt8) (h : c ≠ 0) : CStr :=
  ⟨[SLASH, c], by simpa [SLASH] using h.symm⟩

/-- Three devices, a file of the second one, and the first one is removed. -/
def shift : List (Event Unit Unit) :=
  [.register (some (shortName 97 (by decide))) () (some zeroDevice),
    .register (some (shortName 98 (by decide))) () (some zeroDevice),
    .register (some (shortName 99 (by decide))) () (some zeroDevice),
    .openFile (some ⟨[47, 98, 47, 120], by decide⟩) 0 0,
    .unregister (some (shortName 97 (by decide)))]

/-- The descriptor of a file of `/b` leads to `/c` once `/a` is gone. -/
theorem not_always_kept : ∃ s,
    run sessionStep (Session.start (P := Unit) ⟨none, ()⟩) shift = some s ∧
      s.handles = [⟨.desc 2048, 1⟩] ∧ s.regs = [1, 2] ∧
      (dispatch 2048 s.dm).map (fun found => found.1.name.bytes) = some [47, 99] ∧ ¬Kept s := by
  refine ⟨_, rfl, rfl, rfl, rfl, fun h => ?_⟩
  have hlead := leads_iff_found.mp (h.leads _ (List.mem_singleton_self _) 0 _ rfl rfl)
  have hname := congrArg (Option.map fun inst => inst.name.bytes) hlead
  exact absurd hname (by decide)

end Alcor.Proofs.Newlib
