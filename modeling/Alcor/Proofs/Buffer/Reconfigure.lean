import Alcor.Buffer.Buf
import Alcor.Proofs.Buffer.Fifo

/-!
# `Alcor.Proofs.Buffer.Reconfigure`: changing the size of a buffer

An enabled buffer is a queue with its read position at the first
element (`Ready`), a disabled one has nothing in it.

* `bufRead_cons` and `bufRead_nil` put the steps of a read together.
* `ready_resize_same`, `ready_resize_empty` and `ready_resize_linear`:
  where the old positions fit the new sizes, the elements stand in the
  same cells of the new block. This is the only thing to prove about
  `buf_set`.
* `Kept` is what every call keeps, and `usable` the result about every
  run; `not_usable` has a run for each of the two conditions.
-/

set_option autoImplicit false

namespace Alcor.Proofs.Buffer

open Lib (Mem Buf)
open Lib.Circular
open Alcor.Buffer

variable {s : Managed} {stored : List (List UInt8)}

/-- An enabled buffer between two calls. -/
def Ready (p : BufDesc) (stored : List (List UInt8)) : Prop :=
  ∃ r, Holding p r stored ∧ p.rptr = r % p.reach * p.realdsize

/-! ### A whole read -/

/-- The steps of a read from a phase of the copy on. -/
theorem readSteps_copying {p : BufDesc} {r : Nat} {x : List UInt8} {rest : List (List UInt8)}
    (h : Holding p r (x :: rest)) (hrptr : p.rptr = r % p.reach * p.realdsize) (m : Nat) :
    ∀ (k : Nat) (got : List UInt8), got = x.take got.length → got.length + k = p.realdsize →
      ∃ p', readSteps p (.copying got) (k + 2 + m) = some (some x, p') ∧ Ready p' rest := by
  intro k
  induction k with
  | zero =>
    intro got hgot hlen
    have hx : got = x := by
      rw [hgot, List.take_of_length_le (by rw [h.length_head]; omega)]
    subst hx
    have hcount := h.count_pred
    refine ⟨{ p with count := rest.length, rptr := p.modIncr p.rptr }, ?_, r + 1,
      (h.pop rfl).moveRptr _, ?_⟩
    · rw [Nat.zero_add, Nat.add_comm 2 m]
      simp only [readSteps, readStep, if_neg (show ¬ got.length < p.realdsize by omega), hcount,
        Option.bind_eq_bind, Option.bind_some]
      rfl
    · show p.modIncr p.rptr = _
      rw [hrptr]
      exact BufDesc.modIncr_cell h.logdsize_le h.logdsize_le_logsize r
  | succ k ih =>
    intro got hgot hlen
    have hlt : got.length < p.realdsize := by omega
    obtain ⟨b, hb, htake⟩ := h.byte hlt
    rw [← hgot] at htake
    obtain ⟨p', hrun, hready⟩ := ih (got ++ [b])
      (by rw [htake, List.length_take, Nat.min_eq_left (by rw [h.length_head]; exact hlt)])
      (by rw [List.length_append, List.length_singleton]; omega)
    refine ⟨p', ?_, hready⟩
    rw [show k + 1 + 2 + m = (k + 2 + m) + 1 by omega, readSteps]
    simp only [readStep, if_pos hlt, hrptr, hb, Option.bind_eq_bind, Option.bind_some]
    exact hrun

/-- A read of a buffer with elements returns the first, and stays inside the block. -/
theorem bufRead_cons {p : BufDesc} {x : List UInt8} {rest : List (List UInt8)}
    (h : Ready p (x :: rest)) : ∃ p', bufRead p = some (some x, p') ∧ Ready p' rest := by
  obtain ⟨r, hold, hrptr⟩ := h
  have hcount : p.count ≠ 0 := by rw [hold.count]; simp
  obtain ⟨p', hrun, hready⟩ := readSteps_copying hold hrptr 0 p.realdsize [] rfl (Nat.zero_add _)
  refine ⟨p', ?_, hready⟩
  rw [bufRead, readSteps]
  simp only [readStep, if_neg (not_or.mpr ⟨hold.enabled, hcount⟩), Option.bind_eq_bind,
    Option.bind_some]
  exact hrun

/-- A read of an empty or disabled buffer returns nothing and changes nothing. -/
theorem bufRead_nil {p : BufDesc} (h : p.logsize = BUF_SIZE_NONE ∨ p.count = 0) :
    bufRead p = some (none, p) := by
  rw [bufRead, readSteps]
  simp [readStep, h]

/-- What a queue holds can be read back. -/
theorem Ready.readsBack {p : BufDesc} (h : Ready p stored) : ReadsBack p stored := by
  induction stored generalizing p with
  | nil =>
    obtain ⟨r, hold, -⟩ := h
    exact ⟨p, bufRead_nil (.inr hold.count)⟩
  | cons x rest ih =>
    obtain ⟨p', hread, hready⟩ := bufRead_cons h
    exact ⟨p', hread, ih hready⟩

/-! ### New sizes -/

/-- The descriptor after a `buf_set` that gets memory `m`. -/
def reset (p : BufDesc) (sz : Size) (m : Mem) : BufDesc :=
  { p.resized sz with buf := reallocated p.buf (p.resized sz).bytesize m }

theorem bufSet_some (p : BufDesc) (sz : Size) (m : Mem) :
    bufSet p sz (some m) = (true, reset p sz m) := rfl

/-- A cell inside the old block stands in the new one as it was. -/
theorem cell_reallocated {old : Buf} {size w k : Nat} {m : Mem} (h : k * w + w ≤ old.size) :
    cell (reallocated old size m).mem w k = cell old.mem w k := by
  have hagree : Mem.Agree (reallocated old size m).mem old.mem 0 old.size :=
    fun i _ hi => if_pos hi
  exact hagree.read_eq _ _ (Nat.zero_le _) h

section Resize
variable {p : BufDesc} {sz : Size} (m : Mem) (hen : sz.logsize + sz.logdsize ≠ BUF_SIZE_NONE)

/-- The part of `Holding` that the sizes alone give. -/
theorem reset_sizes (p : BufDesc) (sz : Size) (m : Mem) :
    (reset p sz m).logdsize ≤ 2 ∧ (reset p sz m).logdsize ≤ (reset p sz m).logsize ∧
      (reset p sz m).logsize ≤ (reset p sz m).logdsize + 15 := by
  have h₁ := sz.logsize_le
  have h₂ := sz.logdsize_le
  refine ⟨h₂, Nat.le_add_left _ _, ?_⟩
  show sz.logsize + sz.logdsize ≤ sz.logdsize + 15
  omega

include hen in
/-- Nothing is stored, and the position is one of the new buffer. -/
theorem ready_resize_empty (hcount : p.count = 0) (hw : p.wptr = p.rptr)
    (hword : p.wptr < 2 ^ 16) (hmod : p.rptr % (p.resized sz).realdsize = 0)
    (hlt : p.rptr < (p.resized sz).bytesize) : Ready (reset p sz m) [] := by
  obtain ⟨hd, hle, hsize⟩ := reset_sizes p sz m
  have hpos : 0 < (reset p sz m).realdsize := BufDesc.realdsize_pos _
  -- the position is that of a cell
  have hcell : p.rptr = p.rptr / (reset p sz m).realdsize % (reset p sz m).reach *
      (reset p sz m).realdsize := by
    have hdvd : p.rptr / (reset p sz m).realdsize * (reset p sz m).realdsize = p.rptr :=
      Nat.div_mul_cancel (Nat.dvd_of_mod_eq_zero hmod)
    have hreach : p.rptr < (reset p sz m).reach * (reset p sz m).realdsize := by
      rw [BufDesc.reach_mul hd hle]
      obtain h | h := Nat.le_total (reset p sz m).logsize 16
      · rw [Nat.min_eq_left h, ← BufDesc.bytesize_eq]
        exact hlt
      · rw [Nat.min_eq_right h, ← hw]
        exact hword
    rw [Nat.mod_eq_of_lt ((Nat.div_lt_iff_lt_mul hpos).mpr hreach), hdvd]
  exact ⟨_, {
    enabled := hen
    logdsize_le := hd
    logdsize_le_logsize := hle
    logsize_le := hsize
    size := rfl
    wptr := hw.trans hcell
    count := hcount
    le := Nat.zero_le _
    contents := rfl }, hcell⟩

include hen in
/-- The sizes are the same. -/
theorem ready_resize_same (h : Ready p stored) (hlog : p.logsize = (p.resized sz).logsize)
    (hlogd : p.logdsize = sz.logdsize) : Ready (reset p sz m) stored := by
  obtain ⟨r, hold, hrptr⟩ := h
  obtain ⟨hd, hle, hsize⟩ := reset_sizes p sz m
  have hw : (reset p sz m).realdsize = p.realdsize := by
    rw [BufDesc.realdsize_eq, BufDesc.realdsize_eq, hlogd]
    rfl
  have hreach : (reset p sz m).reach = p.reach := by
    rw [BufDesc.reach, BufDesc.reach, hlog, hlogd]
    rfl
  refine ⟨r, {
    enabled := hen
    logdsize_le := hd
    logdsize_le_logsize := hle
    logsize_le := hsize
    size := rfl
    wptr := by rw [hreach, hw]; exact hold.wptr
    count := hold.count
    le := hreach ▸ hold.le
    contents := ?_ }, by rw [hreach, hw]; exact hrptr⟩
  rw [hreach]
  refine (contents_congr fun i _ => ?_).trans hold.contents
  rw [cells, hw]
  exact cell_reallocated (hold.cell_le _)

include hen in
/-- The elements do not wrap around and end inside the new buffer. -/
theorem ready_resize_linear (h : Ready p stored) (hlogd : p.logdsize = sz.logdsize)
    (hline : p.rptr + p.count * p.realdsize = p.wptr) (hlt : p.wptr < (p.resized sz).bytesize) :
    Ready (reset p sz m) stored := by
  obtain ⟨r, hold, hrptr⟩ := h
  obtain ⟨hd, hle, hsize⟩ := reset_sizes p sz m
  have hpos := BufDesc.realdsize_pos p
  have hw : (reset p sz m).realdsize = p.realdsize := by
    rw [BufDesc.realdsize_eq, BufDesc.realdsize_eq, hlogd]
    rfl
  -- the cells of the elements, without the wrap
  have hend : (r % p.reach + stored.length) * p.realdsize = p.wptr := by
    rw [← hline, hrptr, hold.count, Nat.add_mul]
  have hin : r % p.reach + stored.length < p.reach := by
    have hwptr := hold.wptr
    rw [← hend] at hwptr
    rw [Nat.eq_of_mul_eq_mul_right hpos hwptr]
    exact Nat.mod_lt _ (BufDesc.reach_pos p)
  have hin' : r % p.reach + stored.length < (reset p sz m).reach := by
    have hword : p.wptr < 2 ^ 16 := by
      have hmul := Nat.mul_lt_mul_of_pos_right hin hpos
      rw [hend, BufDesc.reach_mul hold.logdsize_le hold.logdsize_le_logsize] at hmul
      exact Nat.lt_of_lt_of_le hmul (Nat.pow_le_pow_right (by decide) (Nat.min_le_right _ _))
    refine Nat.lt_of_mul_lt_mul_right (a := (reset p sz m).realdsize) ?_
    rw [hw, hend, ← hw, BufDesc.reach_mul hd hle]
    obtain h | h := Nat.le_total (reset p sz m).logsize 16
    · rw [Nat.min_eq_left h, ← BufDesc.bytesize_eq]
      exact hlt
    · rw [Nat.min_eq_right h]
      exact hword
  refine ⟨r % p.reach, {
    enabled := hen
    logdsize_le := hd
    logdsize_le_logsize := hle
    logsize_le := hsize
    size := rfl
    wptr := by rw [Nat.mod_eq_of_lt hin', hw]; exact hend.symm
    count := hold.count
    le := Nat.le_of_lt (Nat.lt_of_le_of_lt (Nat.le_add_left _ _) hin')
    contents := ?_ }, ?_⟩
  · have hc := hold.contents
    rw [← contents_mod] at hc
    refine (contents_resize (Nat.le_of_lt hin') (Nat.le_of_lt hin) fun i hi => ?_).trans hc
    rw [cells, hw]
    have hcell := hold.cell_le (r % p.reach + i)
    rw [Nat.mod_eq_of_lt (by omega)] at hcell
    exact cell_reallocated hcell
  · rw [Nat.mod_eq_of_lt (Nat.lt_of_le_of_lt (Nat.le_add_right _ _) hin'), hw]
    exact hrptr

end Resize

/-! ### Runs -/

/-- The invariant: an enabled buffer holds its queue, a disabled one nothing, and the positions
are 16-bit values. -/
def Kept (s : Managed) : Prop :=
  (Ready s.desc s.stored ∨
    s.desc.logsize = BUF_SIZE_NONE ∧ s.stored = [] ∧ s.desc.count = 0) ∧
  s.desc.wptr < 2 ^ 16

/-- The positions of a queue are 16-bit values, inside the block. -/
theorem Ready.positions {p : BufDesc} (h : Ready p stored) :
    p.rptr < p.bytesize ∧ p.wptr < p.bytesize ∧ p.wptr < 2 ^ 16 := by
  obtain ⟨r, hold, hrptr⟩ := h
  have hcell : ∀ k, k % p.reach * p.realdsize < 2 ^ min p.logsize 16 := fun k => by
    rw [← BufDesc.reach_mul hold.logdsize_le hold.logdsize_le_logsize]
    exact Nat.mul_lt_mul_of_pos_right (Nat.mod_lt _ (BufDesc.reach_pos p))
      (BufDesc.realdsize_pos p)
  have hbytes : 2 ^ min p.logsize 16 ≤ p.bytesize := by
    rw [BufDesc.bytesize_eq]
    exact Nat.pow_le_pow_right (by decide) (Nat.min_le_left _ _)
  have hword : 2 ^ min p.logsize 16 ≤ 2 ^ 16 :=
    Nat.pow_le_pow_right (by decide) (Nat.min_le_right _ _)
  rw [hrptr, hold.wptr]
  exact ⟨Nat.lt_of_lt_of_le (hcell _) hbytes, Nat.lt_of_lt_of_le (hcell _) hbytes,
    Nat.lt_of_lt_of_le (hcell _) hword⟩

theorem kept_of_ready (h : Ready s.desc s.stored) : Kept s :=
  ⟨.inl h, h.positions.2.2⟩

/-- The invariant makes the descriptor usable. -/
theorem Kept.isUsable (h : Kept s) : s.Usable := by
  obtain ⟨hready | ⟨hdis, hnil, hcount⟩, -⟩ := h
  · obtain ⟨hr, hw, -⟩ := hready.positions
    obtain ⟨r, hold, -⟩ := id hready
    exact ⟨fun _ => ⟨hold.size, hr, hw⟩, hold.count, hready.readsBack⟩
  · refine ⟨fun hen => absurd hdis (of_decide_eq_true hen), ?_, ?_⟩
    · rw [hnil]
      exact hcount
    · rw [hnil]
      exact ⟨_, bufRead_nil (.inl hdis)⟩

/-- A change of the sizes that fits, or fails. -/
theorem kept_set (h : Kept s) {sz : Size} {alloc : Option Mem} (hok : s.CallOk (.set sz alloc)) :
    ∃ s', s.step (.set sz alloc) = some s' ∧ Kept s' := by
  refine ⟨_, rfl, ?_⟩
  cases alloc with
  | none => exact ⟨.inr ⟨rfl, rfl, rfl⟩, Nat.two_pow_pos 16⟩
  | some m =>
    have hfits : s.desc.Fits sz := hok.resolve_left (by simp)
    unfold BufDesc.Fits at hfits
    by_cases hdis : (s.desc.resized sz).logsize = BUF_SIZE_NONE
    · -- disabled with nothing in it
      rw [if_pos hdis] at hfits
      have hnot : bufIsEnabled (reset s.desc sz m) = false := decide_eq_false (not_not_intro hdis)
      refine ⟨.inr ⟨hdis, ?_, hfits⟩, h.2⟩
      rw [bufSet_some]
      simp [hnot]
    · rw [if_neg hdis] at hfits
      have hen : bufIsEnabled (reset s.desc sz m) = true := decide_eq_true hdis
      refine kept_of_ready ?_
      show Ready (reset s.desc sz m) (if bufIsEnabled (reset s.desc sz m) then s.stored else [])
      rw [hen, if_pos rfl]
      obtain ⟨hcount, hw, hmod, hlt⟩ | ⟨hlog, hlogd⟩ | ⟨hold, hlogd, hline, hlt⟩ := hfits
      · have hnil : s.stored = [] := by
          obtain ⟨⟨r, hhold, -⟩ | ⟨-, hnil, -⟩, -⟩ := h
          · exact List.eq_nil_of_length_eq_zero (hhold.count.symm.trans hcount)
          · exact hnil
        rw [hnil]
        exact ready_resize_empty m hdis hcount hw h.2 hmod hlt
      · have hready := h.1.resolve_right fun hd => hdis (hlog.symm.trans hd.1)
        exact ready_resize_same m hdis hready hlog hlogd
      · have hready := h.1.resolve_right fun hd => hold hd.1
        exact ready_resize_linear m hdis hready hlogd hline hlt

/-- A write, into a disabled buffer or one with room. -/
theorem kept_write (h : Kept s) {data : Mem} (hok : s.CallOk (.write data)) :
    ∃ s', s.step (.write data) = some s' ∧ Kept s' := by
  by_cases hdis : s.desc.logsize = BUF_SIZE_NONE
  · have hwrite : bufWrite s.desc data = some (false, s.desc) := if_pos hdis
    refine ⟨s, ?_, h⟩
    simp [Managed.step, hwrite]
  · obtain ⟨r, hold, hrptr⟩ := h.1.resolve_right fun hd => hdis hd.1
    have hroom : s.stored.length < s.desc.reach := hold.count ▸ hok.resolve_left hdis
    obtain ⟨hwrite, hold'⟩ := hold.write hroom data
    refine ⟨⟨written s.desc data, s.stored ++ [data.read 0 s.desc.realdsize]⟩, ?_,
      kept_of_ready ⟨r, hold', hrptr⟩⟩
    simp [Managed.step, hwrite]

/-- A read. -/
theorem kept_read (h : Kept s) : ∃ s', s.step .read = some s' ∧ Kept s' := by
  by_cases hempty : s.desc.logsize = BUF_SIZE_NONE ∨ s.desc.count = 0
  · refine ⟨s, ?_, h⟩
    simp [Managed.step, bufRead_nil hempty]
  · obtain ⟨hen, hcount⟩ := not_or.mp hempty
    have hready := h.1.resolve_right fun hd => hen hd.1
    cases hstored : s.stored with
    | nil =>
      obtain ⟨r, hold, -⟩ := hready
      exact absurd (by rw [hold.count, hstored]; rfl) hcount
    | cons x rest =>
      rw [hstored] at hready
      obtain ⟨p', hread, hready'⟩ := bufRead_cons hready
      refine ⟨⟨p', rest⟩, ?_, kept_of_ready hready'⟩
      simp [Managed.step, hread, hstored]

/-- A flush. -/
theorem kept_flush (h : Kept s) : ∃ s', s.step .flush = some s' ∧ Kept s' := by
  refine ⟨_, rfl, ?_⟩
  by_cases hdis : s.desc.logsize = BUF_SIZE_NONE
  · exact ⟨.inr ⟨hdis, rfl, rfl⟩, Nat.two_pow_pos 16⟩
  · obtain ⟨r, hold, -⟩ := h.1.resolve_right fun hd => hdis hd.1
    refine kept_of_ready ⟨0, ?_, ?_⟩
    · exact {
        enabled := hold.enabled
        logdsize_le := hold.logdsize_le
        logdsize_le_logsize := hold.logdsize_le_logsize
        logsize_le := hold.logsize_le
        size := hold.size
        wptr := by simp [bufFlush]
        count := rfl
        le := Nat.zero_le _
        contents := rfl }
    · simp [bufFlush]

/-- Any calls on a descriptor, with any allocations failing: if every new size that is allocated
fits the positions and the count, and no write comes when the buffer is full, then no access is
outside the block and the descriptor stays usable. -/
theorem usable {cs : List Call} (hok : Lib.Run.AllSteps Managed.step Managed.CallOk {} cs) :
    ∃ s, Lib.Run.run Managed.step {} cs = some s ∧ s.Usable := by
  have hstart : Kept {} := ⟨.inr ⟨rfl, rfl, rfl⟩, Nat.two_pow_pos 16⟩
  obtain ⟨s, hrun, hkept⟩ := Lib.Run.progress_run (P := Managed.CallOk) (I := Kept)
    (fun s c hs hc => by
      cases c with
      | set sz alloc => exact kept_set hs hc
      | write data => exact kept_write hs hc
      | read => exact kept_read hs
      | flush => exact kept_flush hs) cs {} hstart hok
  exact ⟨s, hrun, hkept.isUsable⟩

/-- A buffer of four one-byte elements. -/
def fourBytes : Size := { twoBytes with logsize := 2, logsize_le := by decide }

/-- An enabled buffer with an element is made larger, an allocation fails, and the buffer is
enabled again. -/
theorem usable_larger : ∃ s, Lib.Run.run Managed.step {}
    [.set twoBytes (some (byte 0)), .write (byte 1), .set fourBytes (some (byte 0)), .read,
      .set fourBytes none, .set twoBytes (some (byte 0)), .write (byte 2)] = some s ∧ s.Usable :=
  usable (by decide)

/-- (1) Three elements written and read leave both positions at 3: when the buffer is then made
smaller, the next write is outside its block. (2) A buffer with an element in it is disabled,
and still reports it. -/
theorem not_usable :
    Lib.Run.run Managed.step {}
      [.set fourBytes (some (byte 0)), .write (byte 1), .write (byte 2), .write (byte 3),
        .read, .read, .read, .set twoBytes (some (byte 0)), .write (byte 4)] = none ∧
    ∃ s, Lib.Run.run Managed.step {}
      [.set fourBytes (some (byte 0)), .write (byte 1),
        .set ⟨BUF_SIZE_NONE, 0, by decide, by decide⟩ (some (byte 0))] = some s ∧
      bufGetCount s.desc = 1 ∧ (∃ p, bufRead s.desc = some (none, p)) ∧ ¬ s.Usable := by
  refine ⟨by decide, ?_⟩
  obtain ⟨s, hs, heq⟩ := Option.map_eq_some_iff.mp
    (show (Lib.Run.run Managed.step {} [.set fourBytes (some (byte 0)), .write (byte 1),
      .set ⟨BUF_SIZE_NONE, 0, by decide, by decide⟩ (some (byte 0))]).map
        (fun s => (s.desc.logsize, s.desc.count, s.stored)) = some (0, 1, []) by decide)
  simp only [Prod.mk.injEq] at heq
  obtain ⟨hdis, hcount, hnil⟩ := heq
  refine ⟨s, hs, hcount, ⟨_, bufRead_nil (.inl hdis)⟩, fun husable => ?_⟩
  have := husable.count
  rw [bufGetCount, hcount, hnil] at this
  exact absurd this (by decide)

end Alcor.Proofs.Buffer
