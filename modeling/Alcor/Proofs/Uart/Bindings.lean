import Alcor.Uart.Handlers
import Mathlib.Logic.Function.Basic

/-!
# `Alcor.Proofs.Uart.Bindings`: the UART in three languages

The loops stop at the same byte, behind the number at the start of the
bytes (`numeral`), but PicoC and picoLisp return the byte where Lua
returns the number. The buffer of picoLisp is reallocated to one byte in
each pass, so it has room for the final zero only when nothing arrives.
When a buffer is set, PicoC and picoLisp pass the result of a comparison
as the size (`effect_enable` is what `platform_uart_set_buffer` does
with it).

* `readsAsLua_iff`: who reads the same number as Lua, and when.
* `not_always_readsAsLua`: two digits and a space.
* `staysInside_iff`: when picoLisp stays in its buffer.
* `not_always_staysInside`: a line of one letter.
* `setBuffer_sameAsLua_iff`: when the three set the same buffer.
* `not_always_setBuffer_sameAsLua`: a buffer of 64 bytes.
-/

set_option autoImplicit false

namespace Alcor.Proofs.Uart.Bindings

open Lib (Mem Buf)
open Alcor.Uart hiding platformUartSetBuffer bufSet
open Alcor.Uart.Bindings

variable {c : UInt8}
variable {conv : Conversion} {fmt : Format} {bytes : List UInt8} {m : Mem}

/-! ### Numbers -/

theorem ends_number (count : Nat) (c : UInt8) :
    ends .number count c = (!isdigit c && !(count == 1 && issign c)) := by
  have hline : ((Format.number == Format.line) : Bool) = false := rfl
  have hspace : ((Format.number == Format.space) : Bool) = false := rfl
  simp [ends, hline, hspace]

/-- The first byte of a number is a sign or a digit. -/
theorem ends_first_of_numeral (hc : (issign c || isdigit c) = true) :
    ends .number (0 + 1) c = false := by
  rw [ends_number]
  rcases Bool.or_eq_true _ _ ▸ hc with hc | hc <;> simp [hc]

theorem ends_first_of_not_numeral (hc : ¬ (issign c || isdigit c) = true) :
    ends .number (0 + 1) c = true := by
  rw [ends_number]
  simp_all

theorem luaReadLoop_digits (bytes : List UInt8) : ∀ (count : Nat) (b : List UInt8),
    luaReadLoop .number (count + 1) b bytes =
      (b ++ bytes.takeWhile isdigit, (recv (bytes.dropWhile isdigit)).2) := by
  induction bytes with
  | nil =>
    intro count b
    simp [luaReadLoop, recv]
  | cons c bytes ih =>
    intro count b
    rw [luaReadLoop]
    by_cases hc : isdigit c = true
    · simp [ends_number, hc, ih]
    · simp [ends_number, hc, recv]

theorem picocReadLoop_digits (bytes : List UInt8) : ∀ count : Nat,
    picocReadLoop (count + 1) bytes = recv (bytes.dropWhile isdigit) := by
  induction bytes with
  | nil => exact fun _ => rfl
  | cons c bytes ih =>
    intro count
    rw [picocReadLoop]
    by_cases hc : isdigit c = true
    · simp [ends_number, hc, ih]
    · simp [ends_number, hc, recv]

/-- What is behind the number. -/
def behind (bytes : List UInt8) : List UInt8 := bytes.drop (numeral bytes).length

theorem behind_cons (hc : (issign c || isdigit c) = true) (bytes : List UInt8) :
    behind (c :: bytes) = bytes.dropWhile isdigit := by
  rw [behind, numeral, if_pos hc, List.length_cons, List.drop_succ_cons]
  have hsplit := List.takeWhile_append_dropWhile (p := isdigit) (l := bytes)
  calc bytes.drop (bytes.takeWhile isdigit).length
      = (bytes.takeWhile isdigit ++ bytes.dropWhile isdigit).drop
          (bytes.takeWhile isdigit).length := by rw [hsplit]
    _ = bytes.dropWhile isdigit := List.drop_left

theorem luaReadLoop_number (bytes : List UInt8) :
    luaReadLoop .number 0 [] bytes = (numeral bytes, (recv (behind bytes)).2) := by
  cases bytes with
  | nil => rfl
  | cons c bytes =>
    rw [luaReadLoop]
    by_cases hc : (issign c || isdigit c) = true
    · have hgo := ends_first_of_numeral hc
      simp only [hgo, Bool.false_eq_true, if_false, reduceCtorEq, luaReadLoop_digits,
        behind_cons hc, numeral, if_pos hc]
      rfl
    · have hstop := ends_first_of_not_numeral hc
      simp [hstop, numeral, behind, recv, hc]

theorem picocReadLoop_number (bytes : List UInt8) :
    picocReadLoop 0 bytes = recv (behind bytes) := by
  cases bytes with
  | nil => rfl
  | cons c bytes =>
    rw [picocReadLoop]
    by_cases hc : (issign c || isdigit c) = true
    · have hgo := ends_first_of_numeral hc
      simp only [hgo, Bool.false_eq_true, if_false, picocReadLoop_digits, behind_cons hc]
    · have hstop := ends_first_of_not_numeral hc
      simp [hstop, numeral, behind, recv, hc]

/-! ### The buffer of picoLisp -/

/-- The count has the bytes that arrived, and the buffer one byte. -/
theorem plispReadLoop_count (bytes : List UInt8) : ∀ (count : Nat) (buffer : Buf)
    (r : (Int × Nat × Buf) × List UInt8), plispReadLoop fmt count buffer bytes = some r →
    r.1.2.2.size = 1 ∧ (bytes ≠ [] → count < r.1.2.1) := by
  induction bytes with
  | nil =>
    intro count buffer r h
    cases h
    exact ⟨rfl, fun hne => absurd rfl hne⟩
  | cons c bytes ih =>
    intro count buffer r h
    rw [plispReadLoop] at h
    by_cases hends : ends fmt (count + 1) c = true
    · simp only [hends, if_true, Option.some.injEq] at h
      subst h
      exact ⟨rfl, fun _ => Nat.lt_succ_self count⟩
    · simp only [hends, Bool.false_eq_true, if_false] at h
      obtain ⟨buffer', hput, h⟩ := Option.bind_eq_some_iff.mp h
      have hsize : buffer'.size = 1 := by
        unfold Buf.put? at hput
        split at hput
        · cases hput
          rfl
        · cases hput
      split at h
      · cases h
        exact ⟨hsize, fun _ => Nat.lt_succ_self count⟩
      · obtain ⟨hone, hlt⟩ := ih (count + 1) buffer' r h
        refine ⟨hone, fun _ => ?_⟩
        by_cases hbytes : bytes = []
        · subst hbytes
          cases h
          exact Nat.lt_succ_self count
        · exact Nat.lt_of_succ_lt (hlt hbytes)

/-- As soon as a byte arrives, there is a store behind the buffer: at the latest that of the final
zero. -/
theorem plispUartRead_cons (h : bytes ≠ []) : plispUartRead m fmt bytes = none := by
  rw [plispUartRead]
  cases hloop : plispReadLoop fmt 0 ⟨m, 0⟩ bytes with
  | none => rfl
  | some r =>
    obtain ⟨⟨res, count, buffer⟩, rest⟩ := r
    obtain ⟨hsize, hcount⟩ := plispReadLoop_count bytes 0 ⟨m, 0⟩ _ hloop
    have hwild : buffer.put? count [0] = none := by
      rw [Buf.put?_eq_none]
      have hpos := hcount h
      simp only at hsize hpos
      rw [hsize, List.length_singleton]
      omega
    simp only [Option.bind_eq_bind, Option.bind_some, hwild, Option.bind_none]

theorem plispUartRead_nil : plispUartRead m fmt [] =
    some (if fmt = .number then .num (-1) else .str [], []) := by
  have hput : (⟨m, 1⟩ : Buf).put? 0 [0] = some ⟨m.store 0 [0], 1⟩ :=
    Buf.put?_of_le (Nat.le_refl 1)
  have htext : cstr ⟨m.store 0 [0], 1⟩ = [] := by
    simp [cstr, Mem.read, Mem.store]
  rw [plispUartRead, plispReadLoop]
  simp only [Option.bind_eq_bind, Option.bind_some, hput, htext]
  rfl

/-- **The buffer of picoLisp**: it holds what is stored exactly if
nothing arrives. Each pass makes its room one byte, so the first byte
already leaves none for the final zero. -/
theorem staysInside_iff (fmt : Format) (m : Mem) (bytes : List UInt8) :
    StaysInside fmt m bytes ↔ bytes = [] := by
  constructor
  · rintro ⟨value, rest, hread, -⟩
    by_contra hne
    rw [plispUartRead_cons hne] at hread
    cases hread
  · rintro rfl
    refine ⟨_, _, plispUartRead_nil, fun text htext b hb => ?_⟩
    split at htext
    · cases htext
    · cases htext
      exact hb

/-- A line of one letter. -/
theorem not_always_staysInside : ¬ ∀ fmt m bytes, StaysInside fmt m bytes := by
  intro h
  obtain ⟨value, rest, hread, -⟩ := h .line (fun _ => 0) [97, 10]
  rw [plispUartRead_cons (by simp)] at hread
  cases hread

/-! ### Reading as Lua -/

theorem luaReadLoop_nil (count : Nat) (b : List UInt8) : luaReadLoop fmt count b [] = (b, []) := rfl

/-- picoLisp reads as Lua only if nothing arrives, and never a number: without one, the result of
`platform_uart_recv` is `-1` and the number is 0. -/
theorem picoLisp_readsAsLua_iff (conv : Conversion) (m : Mem) (fmt : Format)
    (bytes : List UInt8) :
    ReadsAsLua conv (.picoLisp m fmt) bytes ↔ fmt ≠ .number ∧ bytes = [] := by
  rw [ReadsAsLua, Reader.read, Reader.format]
  by_cases hbytes : bytes = []
  · subst hbytes
    rw [plispUartRead_nil, luaUartRead, luaReadLoop_nil]
    by_cases hfmt : fmt = .number
    · simp [hfmt, luaTointeger]
    · simp [hfmt]
  · rw [plispUartRead_cons hbytes]
    simp [hbytes]

theorem picoC_readsAsLua_iff (conv : Conversion) (bytes : List UInt8) :
    ReadsAsLua conv .picoC bytes ↔
      luaTointeger conv (numeral bytes) = numeralEnd bytes := by
  rw [ReadsAsLua, Reader.read, Reader.format, picocUartReadNum, luaUartRead,
    picocReadLoop_number, luaReadLoop_number, numeralEnd, behind]
  simp [eq_comm]

/-- **Numbers in three languages**: PicoC reads the same as Lua when
the number is the byte behind it. picoLisp does when nothing arrives,
and never for a number. -/
theorem readsAsLua_iff (conv : Conversion) (r : Reader) (bytes : List UInt8) :
    ReadsAsLua conv r bytes ↔ ReadsRight conv r bytes := by
  cases r with
  | picoLisp m fmt =>
    rw [picoLisp_readsAsLua_iff]
    cases fmt <;> simp [ReadsRight]
  | picoC => exact picoC_readsAsLua_iff conv bytes

/-- PicoC reads 32 from the digits of 12 and a space. -/
theorem not_always_readsAsLua : ¬ ∀ conv r bytes, ReadsAsLua conv r bytes := by
  intro h
  have htwelve := (picoC_readsAsLua_iff ⟨id, fun _ _ _ => rfl⟩ [49, 50, 32]).mp (h _ _ _)
  exact absurd htwelve (by decide)

/-! ### Setting a buffer -/

theorem intlog2_two_pow (k : Nat) : intlog2 (2 ^ k) = k := by
  induction k with
  | zero => rw [intlog2, if_pos (by decide)]
  | succ k ih =>
    have hhalf : 2 ^ (k + 1) / 2 = 2 ^ k := by rw [Nat.pow_succ]; omega
    have hpos : 0 < 2 ^ k := Nat.two_pow_pos k
    rw [intlog2, hhalf, if_neg (by omega), ih]

theorem intlog2_zero : intlog2 0 = 0 := by rw [intlog2, if_pos (by decide)]

variable {b : Board} {id size log2size : Nat} {w : World} {u : Uarts}

/-- What a call returns, and the sizes of the buffers after it. -/
def effect (r : Int × Uarts) : Int × (Nat → Nat) := (r.1, r.2.logsize)

/-- A call that is refused at once. -/
theorem effect_refused (h : id = b.sermuxPhysId ∨ b.bufEnableUart = false) :
    effect (platformUartSetBuffer b id log2size w u) = (PLATFORM_ERR, u.logsize) := by
  rw [platformUartSetBuffer]
  by_cases hphys : id = b.sermuxPhysId
  · rw [if_pos hphys]
    rfl
  · rw [if_neg hphys, if_pos (by simp [h.resolve_left hphys])]
    rfl

theorem effect_disable (hphys : id ≠ b.sermuxPhysId) (hbuf : b.bufEnableUart = true) :
    effect (platformUartSetBuffer b id 0 w u) =
      if id ≥ SERMUX_SERVICE_ID_FIRST then (PLATFORM_ERR, u.logsize)
      else (PLATFORM_OK, Function.update u.logsize id 0) := by
  rw [platformUartSetBuffer, if_neg hphys, if_neg (by simp [hbuf]), if_pos rfl]
  split
  · rfl
  · simp [effect, bufSet]

/-- A call that enables a buffer. -/
theorem effect_enable (hphys : id ≠ b.sermuxPhysId) (hbuf : b.bufEnableUart = true)
    (hpos : 0 < log2size) (hlt : log2size < 256) :
    effect (platformUartSetBuffer b id log2size w u) =
      if w.realloc (2 ^ log2size) then
        (if id ≥ SERMUX_SERVICE_ID_FIRST ∨ w.interruptOk then PLATFORM_OK else PLATFORM_ERR,
          Function.update u.logsize id log2size)
      else (PLATFORM_ERR, Function.update u.logsize id 0) := by
  have hne : log2size ≠ 0 := by omega
  have hok : PLATFORM_OK ≠ PLATFORM_ERR := by decide
  rw [platformUartSetBuffer, if_neg hphys, if_neg (by simp [hbuf]), if_neg hne]
  simp only [bufSet, Nat.mod_eq_of_lt hlt, hne, or_false]
  by_cases halloc : w.realloc (2 ^ log2size) = true
  · by_cases hvirtual : id ≥ SERMUX_SERVICE_ID_FIRST
    · simp [halloc, hok, hvirtual, effect]
    · simp [halloc, hok, hvirtual, effect]
  · simp [halloc, effect]

theorem bufSet_state (id log2size : Nat) (w : World) (u : Uarts) :
    Uart.bufSet u.state id log2size (w.realloc (2 ^ (log2size % 256))) =
      (decide ((bufSet id log2size w u).1 = PLATFORM_OK), (bufSet id log2size w u).2.state) := by
  have herr : ¬ PLATFORM_ERR = PLATFORM_OK := by decide
  by_cases halloc : w.realloc (2 ^ (log2size % 256)) = true
  · simp [bufSet, Uart.bufSet, halloc]
  · by_cases hnone : log2size % 256 = 0 <;> simp [bufSet, Uart.bufSet, halloc, hnone, herr]

theorem bufSet_result (id log2size : Nat) (w : World) (u : Uarts) :
    (bufSet id log2size w u).1 = PLATFORM_OK ∨ (bufSet id log2size w u).1 = PLATFORM_ERR := by
  simp only [bufSet]
  split
  · exact .inl rfl
  · exact .inr rfl

/-- The result is that of `Alcor.Uart.Handlers`, and so is what it does to the handlers. -/
theorem platformUartSetBuffer_state (hbuf : b.bufEnableUart = true) :
    let a : Answers := ⟨w.realloc (2 ^ (log2size % 256)), w.interruptOk⟩
    Uart.platformUartSetBuffer b.toConfig id log2size a u.state =
      (decide ((platformUartSetBuffer b id log2size w u).1 = PLATFORM_OK),
        (platformUartSetBuffer b id log2size w u).2.state) := by
  intro a
  have herr : ¬ PLATFORM_ERR = PLATFORM_OK := by decide
  have hok : ¬ PLATFORM_OK = PLATFORM_ERR := by decide
  rw [platformUartSetBuffer, Uart.platformUartSetBuffer]
  by_cases hphys : id = b.sermuxPhysId
  · simp [hphys, herr]
  by_cases hzero : log2size = 0
  · subst hzero
    -- a virtual UART cannot be without a buffer
    by_cases hvirtual : id ≥ SERMUX_SERVICE_ID_FIRST
    · simp [hphys, hbuf, hvirtual, herr]
    · simp [hphys, hbuf, hvirtual, bufSet, a]
  · rw [bufSet_state]
    rcases bufSet_result id log2size w u with hres | hres
    · by_cases hvirtual : id ≥ SERMUX_SERVICE_ID_FIRST
      · simp [hphys, hbuf, hzero, hvirtual, hres, hok]
      · cases hint : w.interruptOk <;> simp [hphys, hbuf, hzero, hvirtual, hres, hok, herr, hint, a]
    · simp [hphys, hbuf, hzero, hres, herr]

/-! ### The three bindings -/

/-- A size that the bindings accept. -/
theorem and_pred_eq_zero {size : Nat} (h : size = 0 ∨ ∃ k < 32, size = 2 ^ k) :
    ¬ (size ≠ 0 ∧ size &&& (size - 1) ≠ 0) := by
  rintro ⟨hpos, hand⟩
  obtain ⟨k, -, rfl⟩ := h.resolve_left hpos
  rw [Nat.and_two_pow_sub_one_eq_mod, Nat.mod_self] at hand
  exact hand rfl

/-- Two bindings mean the same if they do behind the checks. -/
theorem sameEffect_iff (hid : platformUartExists b.toConfig id = true)
    (hsize : size = 0 ∨ ∃ k < 32, size = 2 ^ k) (call call' : Uarts → Bool × Uarts) :
    SameEffect (setBufferBinding b id size call u) (setBufferBinding b id size call' u) ↔
      (size = 0 ∧ id ≥ SERMUX_SERVICE_ID_FIRST) ∨
        ((call u).1 = (call' u).1 ∧ (call u).2.logsize = (call' u).2.logsize) := by
  simp only [setBufferBinding, hid, Bool.not_true, Bool.false_eq_true, if_false,
    if_neg (and_pred_eq_zero hsize), SameEffect]
  by_cases hnone : size = 0 ∧ id ≥ SERMUX_SERVICE_ID_FIRST
  · simp [hnone]
  · rw [or_iff_right hnone]
    simp only [if_neg hnone]
    cases (call u).1 <;> cases (call' u).1 <;> simp

/-- The call that compares, in terms of its effect. -/
theorem comparedCall_eq (b : Board) (id size : Nat) (w : World) (u : Uarts) :
    let r := effect (platformUartSetBuffer b id (if intlog2 size = 0 then 1 else 0) w u)
    (comparedCall b id size w u).1 = decide (r.1 ≠ 0) ∧
      (comparedCall b id size w u).2.logsize = r.2 := by
  have hcompare : (intlog2 size : Int) = PLATFORM_ERR ↔ intlog2 size = 0 := by
    rw [PLATFORM_ERR]
    omega
  simp only [comparedCall, hcompare, effect]
  exact ⟨rfl, trivial⟩

theorem platformUartSetBuffer_result (b : Board) (id log2size : Nat) (w : World) (u : Uarts) :
    (effect (platformUartSetBuffer b id log2size w u)).1 = PLATFORM_OK ∨
      (effect (platformUartSetBuffer b id log2size w u)).1 = PLATFORM_ERR := by
  simp only [platformUartSetBuffer, effect]
  repeat' split
  all_goals simp

/-- A result that is not 0 is no error: `PLATFORM_ERR` is 0. -/
theorem decide_eq_decide_iff {x y : Int} (hx : x = PLATFORM_OK ∨ x = PLATFORM_ERR)
    (hy : y = PLATFORM_OK ∨ y = PLATFORM_ERR) :
    decide (x ≠ 0) = decide (y = PLATFORM_ERR) ↔ x ≠ y := by
  rcases hx with rfl | rfl <;> rcases hy with rfl | rfl <;> decide

/-- Where one call enables a buffer and one disables it: the results are different and the sizes
are the same exactly for a virtual UART with a buffer of this size, and for a physical one without
memory. -/
theorem opposite_iff {k : Nat} (hphys : id ≠ b.sermuxPhysId) (hbuf : b.bufEnableUart = true)
    (hpos : 0 < k) (hlt : k < 256) :
    ((effect (platformUartSetBuffer b id k w u)).1 ≠
          (effect (platformUartSetBuffer b id 0 w u)).1 ∧
        (effect (platformUartSetBuffer b id k w u)).2 =
          (effect (platformUartSetBuffer b id 0 w u)).2) ↔
      if id ≥ SERMUX_SERVICE_ID_FIRST then w.realloc (2 ^ k) ∧ u.logsize id = k
      else w.realloc (2 ^ k) = false := by
  have hok : PLATFORM_OK ≠ PLATFORM_ERR := by decide
  rw [effect_enable hphys hbuf hpos hlt, effect_disable hphys hbuf]
  by_cases hvirtual : id ≥ SERMUX_SERVICE_ID_FIRST
  · have hkeep : Function.update u.logsize id k = u.logsize ↔ u.logsize id = k := by
      rw [Function.update_eq_self_iff, eq_comm]
    cases halloc : w.realloc (2 ^ k) <;> simp [hvirtual, hok, hkeep]
  · cases halloc : w.realloc (2 ^ k)
    · simp [hvirtual, hok.symm]
    · refine iff_of_false ?_ (by simp [hvirtual])
      rintro ⟨-, hsizes⟩
      -- one has a buffer, and the other has none
      have hsize := congrFun hsizes id
      simp only [if_true, if_neg hvirtual, Function.update_self] at hsize
      omega

/-- Whether the two calls mean the same. -/
theorem comparedCall_same_iff (hsize : size = 0 ∨ ∃ k < 32, size = 2 ^ k) :
    let r := effect (platformUartSetBuffer b id (intlog2 size) w u)
    ((comparedCall b id size w u).1 = decide (r.1 = PLATFORM_ERR) ∧
        (comparedCall b id size w u).2.logsize = r.2) ↔
      (id ≠ b.sermuxPhysId ∧ b.bufEnableUart ∧
        if id ≥ SERMUX_SERVICE_ID_FIRST then
          w.realloc (max size 2) ∧ 2 ^ u.logsize id = max size 2
        else w.realloc (max size 2) = false) := by
  intro r
  obtain ⟨hfailed, hsizes⟩ := comparedCall_eq b id size w u
  rw [hfailed, hsizes, decide_eq_decide_iff (platformUartSetBuffer_result _ _ _ _ _)
    (platformUartSetBuffer_result _ _ _ _ _)]
  by_cases hrefused : id = b.sermuxPhysId ∨ b.bufEnableUart = false
  · refine iff_of_false ?_ fun hall => ?_
    · simp [r, effect_refused hrefused]
    · rcases hrefused with hphys | hbuf
      · exact hall.1 hphys
      · exact absurd hall.2.1 (by simp [hbuf])
  obtain ⟨hphys, hbuf⟩ := not_or.mp hrefused
  rw [Bool.not_eq_false] at hbuf
  have hpow : ∀ k, 2 ^ u.logsize id = 2 ^ k ↔ u.logsize id = k :=
    fun k => Nat.pow_right_inj (Nat.le_refl 2)
  by_cases hlog : intlog2 size = 0
  · -- the argument is 1, and Lua disables the buffer
    have hmax : max size 2 = 2 ^ 1 := by
      rcases hsize with rfl | ⟨k, -, rfl⟩
      · rfl
      · rw [intlog2_two_pow] at hlog
        subst hlog
        rfl
    simp only [r, hlog, if_true]
    rw [opposite_iff hphys hbuf Nat.one_pos (by omega), hmax, hpow]
    simp [hphys, hbuf]
  · -- the argument is 0, and Lua enables a buffer of this size
    obtain ⟨k, hk, rfl⟩ : ∃ k < 32, size = 2 ^ k :=
      hsize.resolve_left fun hzero => hlog (hzero ▸ intlog2_zero)
    rw [intlog2_two_pow] at hlog
    have hmax : max (2 ^ k) 2 = 2 ^ k := by
      have hle : 2 ^ 1 ≤ 2 ^ k := Nat.pow_le_pow_right (by omega) (by omega)
      omega
    simp only [r, intlog2_two_pow, hlog, if_false]
    have hpos : 0 < k := Nat.pos_of_ne_zero hlog
    rw [ne_comm, @eq_comm (Nat → Nat), opposite_iff hphys hbuf hpos (by omega), hmax, hpow]
    simp [hphys, hbuf]

/-- **Buffers in three languages**: they mean the same exactly for
size 0 on a virtual UART; on another virtual one with a buffer of the
size already; and on a physical one where the buffer is refused its
memory. -/
theorem setBuffer_sameAsLua_iff (b : Board) (id size : Nat) (w : World) (u : Uarts)
    (hid : platformUartExists b.toConfig id = true)
    (hsize : size = 0 ∨ ∃ k < 32, size = 2 ^ k) :
    SetsAsLua b id size w u ↔ SetsRight b id size w u := by
  rw [SetsAsLua, plispUartSetBuffer, picocUartSetBuffer, and_self, luaUartSetBuffer,
    sameEffect_iff hid hsize, SetsRight]
  by_cases hnone : size = 0 ∧ id ≥ SERMUX_SERVICE_ID_FIRST
  · exact iff_of_true (.inl hnone) (.inl hnone)
  · rw [or_iff_right hnone, or_iff_right hnone]
    exact comparedCall_same_iff hsize

/-- A board with two UARTs and no multiplexer. -/
def twoUarts : Board := ⟨⟨2, 0xFFFF, 0, Nat.le_of_ble_eq_true rfl⟩, true⟩

/-- A buffer of 64 bytes for the first of two UARTs. -/
theorem setBuffer_sameAsLua_iff_64 :
    SetsAsLua twoUarts 0 64 ⟨fun _ => true, true⟩ ⟨fun _ => 0, {}⟩ ↔
      SetsRight twoUarts 0 64 ⟨fun _ => true, true⟩ ⟨fun _ => 0, {}⟩ :=
  setBuffer_sameAsLua_iff twoUarts 0 64 _ _ (by decide) (.inr ⟨6, by omega, rfl⟩)

/-- There, Lua has a buffer, and the other two have none and report an error. -/
theorem not_always_setBuffer_sameAsLua :
    ¬ ∀ b id size w u, platformUartExists b.toConfig id = true →
      (size = 0 ∨ ∃ k < 32, size = 2 ^ k) → SetsAsLua b id size w u := by
  intro h
  have hsize : (64 : Nat) = 0 ∨ ∃ k < 32, (64 : Nat) = 2 ^ k := .inr ⟨6, by omega, rfl⟩
  have hsame := (h twoUarts 0 64 ⟨fun _ => true, true⟩ ⟨fun _ => 0, {}⟩ (by decide) hsize).1
  rw [plispUartSetBuffer, luaUartSetBuffer, sameEffect_iff (by decide) hsize] at hsame
  have hcond := (comparedCall_same_iff hsize).mp (hsame.resolve_left (by decide))
  exact absurd hcond.2.2 (by decide)

end Alcor.Proofs.Uart.Bindings
