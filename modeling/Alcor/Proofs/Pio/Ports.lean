import Alcor.Pio.Ports
import Mathlib.Data.Nat.Bitwise

/-!
# `Alcor.Proofs.Pio.Ports`: ports set from three languages

* `runLua_eq`: Lua writes the value of a port as a whole.
* `run_eq`: the helper for PicoC and picoLisp sets or clears the pins of
  a mask, with the value as the mask, so that the latch keeps its other
  bits, and `pio_port_setlow` clears none.
* `setsAsLua_iff`: for every port, latch and value, when both leave the
  same. The cases are those of the operation and of its value.
-/

set_option autoImplicit false

namespace Alcor.Proofs.Pio

open Alcor.Pio

variable {b : Board} {port : Nat} {l : Latches}

/-! ### The latch -/

theorem or_one_toNat (x : BitVec 32) : (x ||| 1).toNat = 2 * (x.toNat / 2) + 1 := by
  have hone : (1 : BitVec 32).toNat = 1 := rfl
  rw [BitVec.toNat_or, hone]
  refine Nat.eq_of_testBit_eq fun i => ?_
  cases i with
  | zero => simp
  | succ i =>
    rw [Nat.testBit_or, Nat.testBit_succ, Nat.testBit_succ, Nat.testBit_succ,
      show (2 * (x.toNat / 2) + 1) / 2 = x.toNat / 2 by omega]
    simp

theorem or_one_eq_one_iff (x : BitVec 32) : x ||| 1 = 1 ↔ x = 0 ∨ x = 1 := by
  rw [← BitVec.toNat_inj, or_one_toNat]
  have hone : (1 : BitVec 32).toNat = 1 := rfl
  have hzero : (0 : BitVec 32).toNat = 0 := rfl
  rw [← BitVec.toNat_inj, ← BitVec.toNat_inj, hone, hzero]
  omega

theorem or_one_eq_allOnes_iff (x : BitVec 32) :
    x ||| 1 = BitVec.allOnes 32 ↔ x = BitVec.allOnes 32 ∨ x = BitVec.allOnes 32 - 1 := by
  rw [← BitVec.toNat_inj, or_one_toNat, ← BitVec.toNat_inj, ← BitVec.toNat_inj]
  have hall : (BitVec.allOnes 32).toNat = 4294967295 := rfl
  have hbut : (BitVec.allOnes 32 - 1).toNat = 4294967294 := rfl
  rw [hall, hbut]
  omega

/-- Clearing the bits of a value leaves the value only if both are zero. -/
theorem and_not_eq_self_iff (x v : BitVec 32) : x &&& ~~~v = v ↔ v = 0 ∧ x = 0 := by
  constructor
  · intro h
    have hv : v = 0 := by
      calc v = v &&& v := (BitVec.and_self).symm
        _ = (x &&& ~~~v) &&& v := by rw [h]
        _ = 0 := by rw [BitVec.and_assoc, BitVec.and_comm (~~~v), BitVec.and_not_self]; simp
    subst hv
    have hones : ~~~(0 : BitVec 32) = BitVec.allOnes 32 := rfl
    rw [hones, BitVec.and_allOnes] at h
    exact ⟨rfl, h⟩
  · rintro ⟨rfl, rfl⟩
    rfl

/-! ### The code of a port -/

theorem getPort_encode :
    ∀ port < PLATFORM_IO_PORTS, platformIoGetPort (platformIoEncode port 0 true) = port := by
  decide

theorem isPort_encode :
    ∀ port < PLATFORM_IO_PORTS, platformIoIsPort (platformIoEncode port 0 true) = true := by
  decide

theorem encode_ne_zero :
    ∀ port < PLATFORM_IO_PORTS, platformIoEncode port 0 true ≠ 0 := by
  decide

theorem lt_ports (h : port < b.numPio) : port < PLATFORM_IO_PORTS :=
  Nat.lt_of_lt_of_le h b.numPio_le

/-! ### One port -/

/-- The helper for PicoC and picoLisp writes with the value as the mask. -/
theorem pioGenSetval_port (h : port < b.numPio) (val : BitVec 32) (l : Latches) :
    pioGenSetval b (platformIoEncode port 0 true) .port val l =
      .ok (Function.update l port (if val = 1 then l port ||| 1 else l port &&& ~~~val)) := by
  have hlt := lt_ports h
  rw [pioGenSetval, if_neg (by simp)]
  simp only [piohSetPort, getPort_encode port hlt, isPort_encode port hlt, platformPioHasPort, h,
    decide_true, Bool.not_true, Bool.or_self, Bool.false_eq_true, if_false, platformPioOp]
  by_cases hval : val = 1
  · simp only [hval, if_true]
  · simp only [hval, if_false]

/-- A fold over all ports that changes one. -/
theorem foldl_one (g : Latches → Latches) : ∀ (is : List Nat) (l : Latches), is.Nodup →
    is.foldl (fun l i => if i = port then g l else l) l = if port ∈ is then g l else l := by
  intro is
  induction is with
  | nil => exact fun l _ => rfl
  | cons i is ih =>
    intro l hnodup
    obtain ⟨hi, hnodup⟩ := List.nodup_cons.mp hnodup
    rw [List.foldl_cons, ih _ hnodup]
    by_cases heq : i = port
    · subst heq
      rw [if_neg hi, if_pos rfl, if_pos List.mem_cons_self]
    · simp [heq, Ne.symm heq]

/-- Lua writes the value as a whole. -/
theorem piohSetPorts_one (h : port < b.numPio) (mask : BitVec 32) (l : Latches) :
    Lua.piohSetPorts b [platformIoEncode port 0 true] .portSetValue mask l =
      .ok (Function.update l port mask) := by
  have hlt := lt_ports h
  have hmask : Lua.portMask b [platformIoEncode port 0 true] = .ok (1 <<< port ||| 0) := by
    simp only [Lua.portMask, getPort_encode port hlt, isPort_encode port hlt, platformPioHasPort,
      h, decide_true, Bool.not_true, Bool.or_self, Bool.false_eq_true, if_false]
    rfl
  -- of the bits of the port mask only that of this port is set, so one pass acts
  have hbit : ∀ i, (1 <<< port ||| 0).testBit i = decide (i = port) := by
    intro i
    rw [Nat.or_zero, Nat.one_shiftLeft, Nat.testBit_two_pow]
    simp [eq_comm]
  have hpass : (fun (l : Latches) i =>
      if (1 <<< port ||| 0).testBit i then platformPioOp i mask .portSetValue l else l) =
      fun l i => if i = port then platformPioOp port mask .portSetValue l else l := by
    funext l i
    rw [hbit]
    by_cases hi : i = port
    · simp [hi]
    · simp [hi]
  have hfold := @foldl_one port (fun l => platformPioOp port mask .portSetValue l)
    (List.range PLATFORM_IO_PORTS) l List.nodup_range
  rw [if_pos (List.mem_range.mpr hlt), ← hpass] at hfold
  rw [Lua.piohSetPorts, hmask]
  exact congrArg Except.ok hfold

/-! ### Both -/

/-- The value that PicoC and picoLisp leave. -/
def leaves (old : BitVec 32) : PortOp → BitVec 32
  | .setval v => if v = 1 then old ||| 1 else old &&& ~~~v
  | .sethigh  => old ||| 1
  | .setlow   => old

/-- What PicoC and picoLisp leave at the port; the other ports stay. -/
theorem run_eq (h : port < b.numPio) (op : PortOp) (l : Latches) :
    op.run b (platformIoEncode port 0 true) l =
      .ok (Function.update l port (leaves (l port) op)) := by
  have hcheck : pioCheck (platformIoEncode port 0 true) = .ok () :=
    if_neg (encode_ne_zero port (lt_ports h))
  cases op with
  | setval v =>
    rw [PortOp.run, pioPortSetval, hcheck]
    exact pioGenSetval_port h v l
  | sethigh =>
    rw [PortOp.run, pioPortSethigh, hcheck]
    exact pioGenSetval_port h 1 l
  | setlow =>
    -- the pins of an empty mask are cleared
    have hlow := pioGenSetval_port h 0 l
    have hkeep : l port &&& ~~~(0 : BitVec 32) = l port := BitVec.and_allOnes
    rw [if_neg (by decide), hkeep] at hlow
    rw [PortOp.run, pioPortSetlow, hcheck]
    exact hlow

theorem runLua_eq (h : port < b.numPio) (op : PortOp) (l : Latches) :
    op.runLua b (platformIoEncode port 0 true) l = .ok (Function.update l port op.value) := by
  cases op with
  | setval v => exact piohSetPorts_one h v l
  | sethigh => exact piohSetPorts_one h PLATFORM_IO_ALL_PINS l
  | setlow => exact piohSetPorts_one h 0 l

theorem leaves_eq_value_iff (old : BitVec 32) (op : PortOp) :
    leaves old op = op.value ↔ Settable old op := by
  cases op with
  | setval v =>
    rw [leaves, PortOp.value, Settable]
    by_cases hv : v = 1
    · subst hv
      rw [if_pos rfl, or_one_eq_one_iff]
      simp
    · rw [if_neg hv, and_not_eq_self_iff]
      exact (or_iff_left fun hone => hv hone.1).symm
  | sethigh => exact or_one_eq_allOnes_iff old
  | setlow => exact Iff.rfl

/-- PicoC and picoLisp leave the value that Lua leaves exactly if the value is 0 and the latch is,
or the value is 1 and the latch is 0 or 1; or, for all ones, every pin but the first is high before;
or, for all zeros, every pin is low before. -/
theorem setsAsLua_iff (b : Board) (port : Nat) (h : port < b.numPio) (op : PortOp)
    (l : Latches) : SetsAsLua b port op l ↔ Settable (l port) op := by
  rw [SetsAsLua, run_eq h, runLua_eq h, ← leaves_eq_value_iff]
  constructor
  · rintro ⟨heq, -⟩
    rw [Except.ok.injEq] at heq
    have hport := congrFun heq port
    rwa [Function.update_self, Function.update_self] at hport
  · intro heq
    exact ⟨by rw [heq], rfl⟩

/-- The value 1 on a port whose latch is 0. -/
theorem setsAsLua_iff_one :
    SetsAsLua ⟨4, fun _ => 32, by decide⟩ 2 (.setval 1) (fun _ => 0) ↔ Settable 0 (.setval 1) :=
  setsAsLua_iff ⟨4, fun _ => 32, by decide⟩ 2 (by decide) (.setval 1) fun _ => 0

/-- Setting a port to 5 leaves 0 there. -/
theorem not_always_setsAsLua :
    ¬ ∀ (b : Board) (port : Nat), port < b.numPio → ∀ op l, SetsAsLua b port op l := by
  intro h
  have hfive := h ⟨4, fun _ => 32, by decide⟩ 2 (by decide) (.setval 5) fun _ => 0
  rw [SetsAsLua, run_eq (by decide), runLua_eq (by decide)] at hfive
  have hvalue := congrFun (Except.ok.inj hfive.1) 2
  rw [Function.update_self, Function.update_self] at hvalue
  exact absurd hvalue (by decide)

end Alcor.Proofs.Pio
