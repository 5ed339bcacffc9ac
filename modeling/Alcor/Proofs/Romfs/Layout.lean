import Alcor.Proofs.Romfs.Descriptors
import Alcor.Romfs.System

/-!
# `Alcor.Proofs.Romfs.Layout`: the bytes of a WOFS

`Layout pfs rs k pend` says how a WOFS is laid out: the records of `rs`
up to offset `k`, the bytes `pend` of the file that is being written,
and blank bytes up to the end of the medium.

The operations write to the medium in four ways, and each has one
lemma. No other proof looks at the bytes of a record.

* `Layout.mark`: the deletion mark, on a record of the chain.
* `Layout.create`: the name of a new file, behind the records.
* `Layout.append`: bytes behind the contents so far.
* `Layout.close`: the size of a finished file.
-/

set_option autoImplicit false

namespace Alcor.Proofs.Romfs

open Lib
open Alcor.Romfs

variable {pfs : FSDATA} {k : Nat} {rs : List FileRec} {pend : List UInt8} {r : FileRec}
  {path : CStr}

/-- The records of `rs` fill the medium up to `k`, then come the bytes `pend`, then blank bytes. -/
structure Layout (pfs : FSDATA) (rs : List FileRec) (k : Nat) (pend : List UInt8) : Prop where
  wo : pfs.flags.wo = true
  chain : Chain pfs 0 rs k
  pending : pfs.medium.bytes.Holds k pend
  blank : ∀ x, k + pend.length ≤ x → x < pfs.maxSize → pfs.medium.bytes x = 0xFF
  /-- There is room for the end marker behind the padding of the contents. -/
  fits : alignUp (k + pend.length) < pfs.maxSize

/-! ### What a layout implies -/

theorem Layout.aligned (h : Layout pfs rs k pend) : k % 4 = 0 :=
  h.chain.aligned h.wo rfl

theorem Layout.end_lt (h : Layout pfs rs k pend) :
    k + pend.length + 3 < 2 ^ 32 ∧ k + pend.length < pfs.maxSize := by
  have hfits := h.fits
  have hmax := pfs.maxSize_lt
  unfold alignUp at hfits
  omega

/-- The layout depends on the bytes, the size and the kind of the instance only. -/
theorem Layout.of_eq {pfs' : FSDATA} (h : Layout pfs rs k pend)
    (hbytes : pfs'.medium.bytes = pfs.medium.bytes) (hwo : pfs'.flags.wo = pfs.flags.wo)
    (hmax : pfs'.maxSize = pfs.maxSize) : Layout pfs' rs k pend :=
  ⟨hwo.trans h.wo, h.chain.frame hwo fun x _ _ => by rw [hbytes], hbytes ▸ h.pending,
    by rw [hbytes, hmax]; exact h.blank, hmax ▸ h.fits⟩

/-- Without pending bytes, the end marker stands behind the records. -/
theorem Layout.end_marker (h : Layout pfs rs k []) : romfshRead8 k pfs = WOFS_END_MARKER_CHAR := by
  have hlt := h.end_lt.2
  exact h.blank k (Nat.le_refl k) (by simpa using hlt)

/-- Pending bytes that are blank are no different from the blank bytes behind them. -/
theorem Layout.drop_pending (h : Layout pfs rs k pend) (hblank : ∀ b ∈ pend, b = 0xFF) :
    Layout pfs rs k [] := by
  refine ⟨h.wo, h.chain, rfl, ?_, ?_⟩
  · intro x hx hlt
    by_cases hin : x < k + pend.length
    · have hat := (Mem.holds_iff_getElem _ _ _).mp h.pending (x - k) (by simp at hx; omega)
      rw [show k + (x - k) = x by simp at hx; omega] at hat
      rw [hat]
      exact hblank _ (List.get_mem _ _)
    · exact h.blank x (by omega) hlt
  · have hfits := h.fits
    unfold alignUp at hfits ⊢
    simp only [List.length_nil]
    omega

/-- A record whose size is open says nothing about the contents of its file. -/
theorem Layout.set_data (h : Layout pfs (rs ++ [r]) k pend) (hopen : r.closed = false)
    (data : List UInt8) : Layout pfs (rs ++ [{ r with data := data }]) k pend := by
  obtain ⟨j, hrs, hlast⟩ := h.chain.split
  refine ⟨h.wo, hrs.append ?_, h.pending, h.blank, h.fits⟩
  have hspan : FileRec.span { r with data := data } = r.span := by
    unfold FileRec.span
    simp only [hopen, Bool.false_eq_true, if_false]
  have hsize : FileRec.sizeField { r with data := data } = r.sizeField := by
    unfold FileRec.sizeField
    simp only [hopen, Bool.false_eq_true, if_false]
  cases hlast with
  | cons head room tail =>
    have hnext : FileRec.next pfs.flags.wo { r with data := data } = r.next pfs.flags.wo := by
      unfold FileRec.next
      rw [hspan]
    refine .cons ⟨head.nameLen, head.nulFree, head.head, head.name, head.base, head.mark,
      hsize ▸ head.size, ?_, head.base_lt, hsize ▸ head.sizeField_lt⟩ ?_ (hnext ▸ tail)
    · intro hc
      rw [show FileRec.closed { r with data := data } = false from hopen] at hc
      cases hc
    · unfold FileRec.Room at room ⊢
      rw [hspan]
      exact room

/-! ### The deletion mark -/

/-- The deletion mark on one record of the chain. Its bytes behind the first may be cut off. -/
theorem Layout.mark {as bs : List FileRec} {tail : List UInt8}
    (h : Layout pfs (as ++ r :: bs) k pend) (hlen : tail.length ≤ 3) :
    Layout (pfs.writef (WOFS_FILE_DELETED :: tail) (r.base - 8))
      (as ++ { r with deleted := true } :: bs) k pend := by
  obtain ⟨j, has, hrest⟩ := h.chain.split
  cases hrest with
  | cons head room tail' =>
    have hwo := h.wo
    have hpos := head.name_lt_base.1
    rw [hwo, if_pos rfl] at hpos
    have hnext := r.base_le_next pfs.flags.wo
    have hend := tail'.le
    -- The store changes nothing before the deletion field of `r` nor behind it.
    have hbelow := Mem.agree_store_below pfs.medium.bytes (r.base - 8) (WOFS_FILE_DELETED :: tail)
    have habove : ∀ hi, Mem.Agree pfs.medium.bytes
        (pfs.medium.bytes.store (r.base - 8) (WOFS_FILE_DELETED :: tail)) (r.base - 4) hi :=
      fun hi => (Mem.agree_store_above pfs.medium.bytes (r.base - 8) hi _).mono
        (by rw [List.length_cons]; omega) (Nat.le_refl hi)
    have hmarked : RecordAt (pfs.writef (WOFS_FILE_DELETED :: tail) (r.base - 8)) j
        { r with deleted := true } := by
      refine ⟨head.nameLen, head.nulFree, head.head, ?_, head.base, ?_, ?_, ?_, head.base_lt,
        head.sizeField_lt⟩
      · refine (hbelow.mono (Nat.zero_le j) (Nat.le_refl _)).holds (Nat.le_refl j) ?_ head.name
        rw [List.length_append, List.length_singleton]
        show j + (r.name.length + 1) ≤ r.base - 8
        omega
      · show if pfs.flags.wo then _ else _
        rw [hwo, if_pos rfl]
        have hself := Mem.holds_store_self pfs.medium.bytes (r.base - 8)
          (WOFS_FILE_DELETED :: tail)
        rw [Mem.holds_cons] at hself
        exact ⟨fun _ => rfl, fun _ => hself.1⟩
      · refine (habove r.base).holds (Nat.le_refl _) ?_ head.size
        rw [length_leBytes]
        show r.base - 4 + 4 ≤ r.base
        omega
      · intro hc
        exact (habove (r.base + r.data.length)).holds (Nat.sub_le r.base 4) (Nat.le_refl _)
          (head.contents hc)
    refine ⟨hwo, ?_, ?_, ?_, h.fits⟩
    · refine Chain.append (has.frame rfl (hbelow.mono (Nat.le_refl 0) (by omega))) ?_
      exact .cons hmarked room (tail'.frame rfl ((habove k).mono (by omega) (Nat.le_refl k)))
    · exact (habove (k + pend.length)).holds (by omega) (Nat.le_refl _) h.pending
    · intro x hx hlt
      exact (habove (x + 1) x (by omega) (by omega)).symm.trans (h.blank x hx hlt)

/-! ### A new file -/

/-- The space check of `romfs_open_r`, without the wrap-around. -/
theorem noSpace_eq_false (hk : k < pfs.maxSize) (h : noSpace path k pfs = false) :
    k + path.bytes.length + 15 ≤ pfs.maxSize := by
  have hmax := pfs.maxSize_lt
  unfold noSpace WOFS_MIN_NEEDED_SIZE WOFS_DEL_FIELD_SIZE ROMFS_ALIGN at h
  rw [sub32_of_le (Nat.le_of_lt hk) hmax, decide_eq_false_iff_not] at h
  unfold u32 at h
  omega

/-- Where the contents of a new file start. -/
theorem romfsNewBase_eq (hk : k < pfs.maxSize) (h : noSpace path k pfs = false) :
    romfsNewBase path k = contentsAt true k path.bytes.length := by
  have hroom := noSpace_eq_false hk h
  have hmax := pfs.maxSize_lt
  unfold romfsNewBase contentsAt ROMFS_SIZE_LEN WOFS_DEL_FIELD_SIZE ROMFS_ALIGN
  rw [u32_of_lt (show k + (path.bytes.length + 1) < 2 ^ 32 by omega), romfsAlign_eq (by omega),
    ← Nat.add_assoc]
  refine u32_of_lt ?_
  unfold alignUp
  omega

/-- The name of a new file at the end of the directory makes a record whose size is open. -/
theorem Layout.create (h : Layout pfs rs k []) (hlen : path.bytes.length ≤ DM_MAX_FNAME_LENGTH)
    (hhead : path.bytes.head? ≠ some WOFS_END_MARKER_CHAR) (hspace : noSpace path k pfs = false) :
    Layout (romfsWriteName path k pfs)
      (rs ++ [.new path.bytes (romfsNewBase path k)]) (romfsNewBase path k) [] := by
  have hk : k < pfs.maxSize := by simpa using h.end_lt.2
  have hroom := noSpace_eq_false hk hspace
  have hmax := pfs.maxSize_lt
  rw [romfsNewBase_eq hk hspace]
  have hbase : contentsAt true k path.bytes.length = alignUp (k + path.bytes.length + 1) + 8 := rfl
  have hup : k + path.bytes.length + 1 ≤ alignUp (k + path.bytes.length + 1) ∧
      alignUp (k + path.bytes.length + 1) ≤ k + path.bytes.length + 4 ∧
      alignUp (k + path.bytes.length + 1) % 4 = 0 := by
    unfold alignUp
    omega
  rw [hbase]
  generalize alignUp (k + path.bytes.length + 1) = f at *
  have hbelow := Mem.agree_store_below pfs.medium.bytes k (path.bytes ++ [0])
  have hlen1 : (path.bytes ++ [0]).length = path.bytes.length + 1 := by simp
  -- Behind the name the medium is still blank.
  have hblank : ∀ x, f ≤ x → x < pfs.maxSize →
      pfs.medium.bytes.store k (path.bytes ++ [0]) x = 0xFF := by
    intro x hx hlt
    rw [Mem.store_of_ge _ _ _ (by rw [hlen1]; omega)]
    exact h.blank x (by simp; omega) hlt
  have hsize : leBytes ROMFS_SIZE_LEN NO_SIZE = [0xFF, 0xFF, 0xFF, 0xFF] := by decide
  have hrec : RecordAt (romfsWriteName path k pfs) k (.new path.bytes (f + 8)) := by
    refine ⟨hlen, path.nulFree, hhead, Mem.holds_store_self _ _ _, ?_, ?_, ?_, ?_, ?_, ?_⟩
    · show f + 8 = contentsAt pfs.flags.wo k path.bytes.length
      rw [h.wo, hbase]
    · show if pfs.flags.wo then _ else _
      rw [h.wo, if_pos rfl]
      have hdel : pfs.medium.bytes.store k (path.bytes ++ [0]) f ≠ WOFS_FILE_DELETED := by
        rw [hblank f (Nat.le_refl f) (by omega)]
        decide
      exact ⟨fun hmark => absurd hmark hdel, fun hdel => by cases hdel⟩
    · show (pfs.medium.bytes.store k (path.bytes ++ [0])).Holds (f + 8 - 4)
        (leBytes ROMFS_SIZE_LEN NO_SIZE)
      rw [hsize]
      simp only [Mem.holds_cons, Mem.holds_nil, and_true]
      exact ⟨hblank _ (by omega) (by omega), hblank _ (by omega) (by omega),
        hblank _ (by omega) (by omega), hblank _ (by omega) (by omega)⟩
    · intro hc
      cases hc
    · show f + 8 < 2 ^ 32
      omega
    · exact (by decide : NO_SIZE < 2 ^ 32)
  have hnext : (FileRec.new path.bytes (f + 8)).next pfs.flags.wo = f + 8 := by
    rw [h.wo]
    show alignUp (f + 8 + 0) = f + 8
    unfold alignUp
    omega
  have hroom : (FileRec.new path.bytes (f + 8)).Room pfs.flags.wo := by
    rw [h.wo]
    show f + 8 + 0 + 3 < 2 ^ 32
    omega
  refine ⟨h.wo, ?_, rfl, ?_, ?_⟩
  · refine Chain.append (h.chain.frame rfl hbelow) (.cons hrec hroom ?_)
    rw [show (romfsWriteName path k pfs).flags.wo = pfs.flags.wo from rfl, hnext]
    exact .nil _
  · intro x hx hlt
    exact hblank x (by simp at hx; omega) hlt
  · show alignUp (f + 8 + 0) < pfs.maxSize
    unfold alignUp
    omega

/-! ### Bytes behind the contents -/

/-- Bytes stored behind the pending ones are pending. -/
theorem Layout.append (h : Layout pfs rs k pend) (bs : List UInt8)
    (hfits : k + pend.length + bs.length + ROMFS_ALIGN ≤ pfs.maxSize) :
    Layout (pfs.writef bs (k + pend.length)) rs k (pend ++ bs) := by
  have hbelow := Mem.agree_store_below pfs.medium.bytes (k + pend.length) bs
  refine ⟨h.wo, h.chain.frame rfl (hbelow.mono (Nat.le_refl 0) (by omega)), ?_, ?_, ?_⟩
  · rw [Mem.holds_append]
    exact ⟨hbelow.holds (Nat.zero_le k) (Nat.le_refl _) h.pending, Mem.holds_store_self _ _ _⟩
  · intro x hx hlt
    rw [List.length_append] at hx
    exact (Mem.store_of_ge _ _ _ (by omega)).trans (h.blank x (by omega) hlt)
  · rw [List.length_append]
    show alignUp (k + (pend.length + bs.length)) < pfs.maxSize
    unfold ROMFS_ALIGN at hfits
    unfold alignUp
    omega

/-! ### The size of a finished file -/

/-- The size stored in a record, when `data` stands behind it. -/
theorem recordAt_close {i : Nat} {data : List UInt8} (h : RecordAt pfs i r)
    (hwo : pfs.flags.wo = true) (hdata : pfs.medium.bytes.Holds r.base data)
    (hlen : data.length < 2 ^ 32) :
    RecordAt (pfs.writef (leBytes ROMFS_SIZE_LEN data.length) (r.base - 4)) i
      { r with data := data, closed := true } := by
  have hpos := h.name_lt_base.1
  rw [hwo, if_pos rfl] at hpos
  have hbelow := Mem.agree_store_below pfs.medium.bytes (r.base - 4)
    (leBytes ROMFS_SIZE_LEN data.length)
  have habove := Mem.agree_store_above pfs.medium.bytes (r.base - 4) (r.base + data.length)
    (leBytes ROMFS_SIZE_LEN data.length)
  refine ⟨h.nameLen, h.nulFree, h.head, ?_, h.base, ?_, Mem.holds_store_self _ _ _, ?_,
    h.base_lt, hlen⟩
  · refine (hbelow.mono (Nat.zero_le i) (Nat.le_refl _)).holds (Nat.le_refl i) ?_ h.name
    rw [List.length_append, List.length_singleton]
    show i + (r.name.length + 1) ≤ r.base - 4
    omega
  · have hmark := h.mark
    show if pfs.flags.wo then _ else _
    rw [hwo, if_pos rfl] at hmark ⊢
    rw [hbelow (r.base - 8) (Nat.zero_le _) (by omega)] at hmark
    exact hmark
  · intro _
    refine habove.holds ?_ (Nat.le_refl _) hdata
    rw [length_leBytes]
    show r.base - 4 + 4 ≤ r.base
    omega

/-- The size stored before the contents turns the pending bytes into the contents of the last
record. -/
theorem Layout.close (h : Layout pfs (rs ++ [r]) r.base r.data) :
    Layout (pfs.writef (leBytes ROMFS_SIZE_LEN r.data.length) (r.base - 4))
      (rs ++ [{ r with closed := true }]) (alignUp (r.base + r.data.length)) [] := by
  obtain ⟨j, hrs, hrest⟩ := h.chain.split
  cases hrest with
  | cons head room tail =>
    have hwo := h.wo
    have hend := h.end_lt
    have hpos := head.name_lt_base.1
    rw [hwo, if_pos rfl] at hpos
    have hbelow := Mem.agree_store_below pfs.medium.bytes (r.base - 4)
      (leBytes ROMFS_SIZE_LEN r.data.length)
    have hrec := recordAt_close head hwo h.pending (by omega)
    have hroom : FileRec.Room pfs.flags.wo { r with closed := true } := by
      rw [hwo]
      show r.base + r.data.length + 3 < 2 ^ 32
      omega
    have hnext : FileRec.next pfs.flags.wo { r with closed := true }
        = alignUp (r.base + r.data.length) := by
      rw [hwo]
      rfl
    refine ⟨hwo, ?_, rfl, ?_, ?_⟩
    · refine Chain.append (hrs.frame rfl (hbelow.mono (Nat.le_refl 0) (by omega))) ?_
      refine .cons hrec hroom ?_
      show Chain _ (FileRec.next pfs.flags.wo { r with closed := true }) [] _
      rw [hnext]
      exact .nil _
    · intro x hx hlt
      have hup : r.base + r.data.length ≤ alignUp (r.base + r.data.length) := by
        unfold alignUp
        omega
      have hx' : alignUp (r.base + r.data.length) ≤ x := hx
      refine (Mem.store_of_ge _ _ _ ?_).trans (h.blank x (by omega) hlt)
      rw [length_leBytes]
      show r.base - 4 + 4 ≤ x
      omega
    · have hfits := h.fits
      show alignUp (alignUp (r.base + r.data.length) + 0) < pfs.maxSize
      unfold alignUp at hfits ⊢
      omega

end Alcor.Proofs.Romfs
