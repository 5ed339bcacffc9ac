import Alcor.Proofs.Rfs.Refinement
import Alcor.Rfs.Remote

/-!
# `Alcor.Proofs.Rfs.Chunks`: transfers in chunks are as good as one

`rfs_write_r` and `rfs_read_r` are followed pass by pass.

* `rfsWriteRBody_eq` and `rfsReadRBody_eq`: a pass asks the operating
  system of the server for the next chunk.
* `run_write` and `run_read`: what the passes leave in its record is put
  together to one transfer.
* `readsSucceed_of_run`: the response to a read that fails makes the
  client leave its packet, so a loop that has returned has met none.
* `chunks_iff`: writes are always as good as one, and reads if and only
  if no read fails.
-/

set_option autoImplicit false

namespace Alcor.Proofs.Rfs

open Lib (Mem Buf CStr Loop.run)
open Alcor.Eluarpc Alcor.Rfs
open Alcor.Proofs.Eluarpc

variable {t : Transfer} {ts : List Transfer} {len : Nat}

/-! ### Numbers -/

/-- A result that counts up to `n` bytes is not the error, and is compared as a number. -/
theorem result_lt_iff {res : Int32} {n : Nat} (hres : 0 ≤ res.toInt) (hn : n < 2 ^ 31) :
    res ≠ -1 ∧ (res.toUInt32 < UInt32.ofNat n ↔ res.toInt.toNat < n) := by
  constructor
  · rintro rfl
    exact absurd hres (by decide)
  · have hle : (0 : Int32) ≤ res := Int32.le_iff_toInt_le.mpr hres
    rw [UInt32.lt_iff_toNat_lt, Int32.toNat_toUInt32_of_le hle,
      UInt32.toNat_ofNat_of_lt' (show n < 2 ^ 32 by omega)]
    rfl

/-- A result that is a small number. -/
theorem eq_ofNat {res : Int32} {n : Nat} (h : res.toInt = n) (hn : n < 2 ^ 31) :
    res = Int32.ofNat n := by
  apply Int32.toInt.inj
  rw [h, Int32.toInt_ofNat_of_lt hn]

/-- The sizes of the RFS buffer that leave room for data, up to the server's packets. -/
structure BufferSize (k : Nat) : Prop where
  ge : 5 ≤ k
  le : k ≤ 12

theorem BufferSize.bounds {k : Nat} (h : BufferSize k) : 32 ≤ 2 ^ k ∧ 2 ^ k ≤ 4096 :=
  ⟨Nat.pow_le_pow_right (n := 2) (by decide) h.ge, Nat.pow_le_pow_right (n := 2) (by decide) h.le⟩

theorem chunk_eq {k : Nat} (h : BufferSize k) (len : Nat) : chunk k len = min len (2 ^ k - 29) := by
  obtain ⟨hge, hle⟩ := h.bounds
  have hreal : realBufferSize k = 2 ^ k - 29 := by
    unfold realBufferSize Lib.sub32 Lib.u32
    rw [show ELUARPC_WRITE_REQUEST_EXTRA = 29 from rfl]
    omega
  rw [chunk, hreal]
  split <;> omega

/-! ### Records -/

theorem OneTransfer.nil (fd : Int32) : OneTransfer fd 0 [] [] :=
  ⟨by simp, rfl, by simp, .inl rfl⟩

/-- A transfer that ends short. -/
theorem OneTransfer.short (len : Nat) (h : t.moved.length < t.asked) :
    OneTransfer t.fd len t.moved [t] :=
  ⟨by simp, by simp, by simp, .inr ⟨t, rfl, h⟩⟩

/-- A chunk in full, and the rest of the transfer. -/
theorem OneTransfer.cons {bytes : List UInt8} (hfull : t.moved.length = t.asked)
    (h : OneTransfer t.fd len bytes ts) :
    OneTransfer t.fd (t.asked + len) (t.moved ++ bytes) (t :: ts) := by
  refine ⟨?_, ?_, ?_, ?_⟩
  · exact List.forall_mem_cons.mpr ⟨rfl, h.same⟩
  · rw [List.map_cons, List.flatten_cons, h.order]
  · intro u hu
    cases ts with
    | nil => simp at hu
    | cons v vs =>
      rw [List.dropLast_cons_cons] at hu
      rcases List.mem_cons.mp hu with rfl | hu
      · exact hfull
      · exact h.full u hu
  · rcases h.ends with hall | ⟨u, hu, hshort⟩
    · left
      rw [List.length_append, hfull, hall]
    · right
      refine ⟨u, ?_, hshort⟩
      cases ts with
      | nil => simp at hu
      | cons v vs => rwa [List.getLast?_cons_cons]

/-- The packets of a transfer fit into the RFS buffer. -/
def WritePacketsFit (k : Nat) (t : Transfer) : Prop :=
  packetSize (writeRequest t.fd t.data (UInt32.ofNat t.data.length)) ≤ 2 ^ k ∧
    packetSize (writeResponse t.result.toUInt32) ≤ 2 ^ k

def ReadPacketsFit (k : Nat) (t : Transfer) : Prop :=
  packetSize (readRequest t.fd (UInt32.ofNat t.asked)) ≤ 2 ^ k ∧
    packetSize (readResponse t.result.toUInt32) ≤ 2 ^ k

theorem writePacketsFit {k : Nat} (h : BufferSize k) (hdata : t.data.length + 29 ≤ 2 ^ k) :
    WritePacketsFit k t := by
  obtain ⟨hge, hle⟩ := h.bounds
  have hlen : (UInt32.ofNat t.data.length).toNat = t.data.length :=
    UInt32.toNat_ofNat_of_lt' (show t.data.length < 2 ^ 32 by omega)
  constructor
  · simp only [packetSize_eq, writeRequest, List.map_cons, List.map_nil, List.sum_cons,
      List.sum_nil, Item.size, hlen, ELUARPC_PTR_HEADER_SIZE]
    omega
  · simp only [packetSize_eq, writeResponse, List.map_cons, List.map_nil, List.sum_cons,
      List.sum_nil, Item.size]
    omega

theorem readPacketsFit {k : Nat} (h : BufferSize k)
    (hresult : t.result.toUInt32.toNat + 29 ≤ 2 ^ k) : ReadPacketsFit k t := by
  obtain ⟨hge, hle⟩ := h.bounds
  constructor
  · simp only [packetSize_eq, readRequest, List.map_cons, List.map_nil, List.sum_cons,
      List.sum_nil, Item.size]
    omega
  · simp only [packetSize_eq, readResponse, List.map_cons, List.map_nil, List.sum_cons,
      List.sum_nil, Item.size, ELUARPC_PTR_HEADER_SIZE]
    omega

section Passes
variable {σ : Type} {os : Os σ} {k : Nat} {basedir : CStr} {fd : Int32}

/-! ### Writing -/

/-- A write of these bytes, as it is recorded. -/
def writeTransfer (os : Os σ) (fd : Int32) (data : List UInt8) (s : σ) : Transfer :=
  ⟨fd, data.length, (os.write fd data s).1, data⟩

/-- A pass that writes the next chunk. -/
theorem rfsWriteRBody_eq (hk : BufferSize k) (hwrite : WriteResult os)
    {w : Client.Writing (Remote (σ × List Transfer))} {s : σ}
    (hready : Ready w.client basedir (s, ts)) (hsize : w.client.buf.size = 2 ^ k)
    (hpos : w.rest.length ≠ 0)
    (ht : t = writeTransfer os fd (w.rest.take (chunk k w.rest.length)) s) :
    ∃ c', Ready c' basedir
        ((os.write fd (w.rest.take (chunk k w.rest.length)) s).2, ts ++ [t]) ∧
      c'.buf.size = 2 ^ k ∧ t.asked = chunk k w.rest.length ∧ t.moved = w.rest.take t.moved.length ∧
      t.moved.length = t.result.toInt.toNat ∧ t.moved.length ≤ t.asked ∧
      (t.result ≠ -1 → t.result = Int32.ofNat t.moved.length) ∧ WritePacketsFit k t ∧
      Client.rfsWriteRBody (remoteLink os.recorded) k fd w =
        if t.result = -1 then .inl (some (w.total, c'))
        else if t.moved.length < t.asked then .inl (some (w.total + t.result, c'))
        else .inr ⟨w.rest.drop t.asked, w.total + t.result, c'⟩ := by
  obtain ⟨hge, hle⟩ := hk.bounds
  have hchunk := chunk_eq hk w.rest.length
  obtain ⟨n, hn⟩ : ∃ n, n = chunk k w.rest.length := ⟨_, rfl⟩
  rw [← hn] at hchunk ht ⊢
  obtain ⟨data, hdata⟩ : ∃ data, data = w.rest.take n := ⟨_, rfl⟩
  rw [← hdata] at ht ⊢
  have hlen : data.length = n := by
    rw [hdata, List.length_take]
    omega
  have hfits : Fits w.client (.write fd data) :=
    ⟨by rw [hsize]; exact (show data.length + 29 ≤ 2 ^ k by omega),
      show data.length + 29 ≤ 4125 by omega, by omega⟩
  -- what the client gets is the result of the operating system
  obtain ⟨c', hready', hsize', hrun⟩ := remote_write hready hfits
  rw [hlen] at hrun
  obtain ⟨res, hres⟩ : ∃ res, res = (os.write fd data s).1 := ⟨_, rfl⟩
  have hcall : (os.recorded.write fd data (s, ts)).1 = res := hres.symm
  rw [hcall] at hrun
  have hresult : res = -1 ∨ 0 ≤ res.toInt ∧ res.toInt ≤ n := by
    have := hwrite fd data s
    rwa [← hres, hlen] at this
  have hmoved : (data.take res.toInt.toNat).length = res.toInt.toNat := by
    rw [List.length_take]
    rcases hresult with rfl | ⟨h0, hle'⟩
    · exact Nat.min_eq_left (Nat.zero_le _)
    · omega
  have ht : t = ⟨fd, data.length, res, data⟩ := by rw [ht, hres]; rfl
  subst ht
  refine ⟨c', ?_, hsize'.trans hsize, hlen, ?_, hmoved, ?_, ?_,
    writePacketsFit hk (by simp only; omega), ?_⟩
  · rw [hres]
    exact hready'
  · show data.take res.toInt.toNat = w.rest.take (data.take res.toInt.toNat).length
    rw [hmoved, hdata, List.take_take, Nat.min_eq_left]
    rcases hresult with rfl | ⟨h0, hle'⟩
    · exact Nat.zero_le n
    · omega
  · show (data.take res.toInt.toNat).length ≤ data.length
    rw [List.length_take]
    omega
  · intro hne
    obtain ⟨h0, hle'⟩ := hresult.resolve_left hne
    show res = Int32.ofNat (data.take res.toInt.toNat).length
    rw [hmoved]
    exact eq_ofNat (by omega) (by omega)
  · show _ = if res = -1 then _
      else if (data.take res.toInt.toNat).length < data.length then _ else _
    rw [hmoved, hlen, Client.rfsWriteRBody, if_neg hpos]
    simp only [← hn, ← hdata, hrun]
    rcases hresult with rfl | ⟨h0, -⟩
    · rfl
    · obtain ⟨hne, hlt⟩ := result_lt_iff h0 (show n < 2 ^ 31 by omega)
      simp only [if_neg hne, hlt]

/-- The loop of `rfs_write_r`, from any state. -/
theorem run_write (fd : Int32) (hk : BufferSize k) (hwrite : WriteResult os) (n : Nat) :
    ∀ (w : Client.Writing (Remote (σ × List Transfer))) (s : σ) (ts : List Transfer),
      Ready w.client basedir (s, ts) → w.client.buf.size = 2 ^ k → w.rest.length < n →
      ∃ res c' s' ts' m, Lib.Loop.run (Client.rfsWriteRBody (remoteLink os.recorded) k fd) n w =
          some (some (res, c')) ∧
        Ready c' basedir (s', ts ++ ts') ∧ m ≤ w.rest.length ∧ res = w.total + Int32.ofNat m ∧
        OneTransfer fd w.rest.length (w.rest.take m) ts' ∧ ∀ t ∈ ts', WritePacketsFit k t := by
  induction n with
  | zero =>
    intro w s ts _ _ hn
    omega
  | succ n ih =>
    intro w s ts hready hsize hn
    by_cases hpos : w.rest.length = 0
    · have hdone : Client.rfsWriteRBody (remoteLink os.recorded) k fd w =
          .inl (some (w.total, w.client)) := by
        rw [Client.rfsWriteRBody, if_pos hpos]
      refine ⟨w.total, w.client, s, [], 0, Lib.Loop.run_succ_of_inl hdone n, ?_, Nat.zero_le _,
        by simp, ?_, by simp⟩
      · rw [List.append_nil]
        exact hready
      · rw [hpos, List.take_zero]
        exact OneTransfer.nil fd
    · have hchunk := chunk_eq hk w.rest.length
      have hbounds := hk.bounds
      obtain ⟨t, ht⟩ : ∃ t,
          t = writeTransfer os fd (w.rest.take (chunk k w.rest.length)) s := ⟨_, rfl⟩
      obtain ⟨c', hready', hsize', hasked, hmoved, hlen, hle, hres, hfits, hbody⟩ :=
        rfsWriteRBody_eq hk hwrite hready hsize hpos ht
      obtain rfl : t.fd = fd := by rw [ht]; rfl
      by_cases hfail : t.result = -1
      · -- nothing is written, and the loop is left
        have hzero : t.moved.length = 0 := by
          rw [hlen, hfail]
          rfl
        rw [if_pos hfail] at hbody
        refine ⟨w.total, c', _, [t], 0, Lib.Loop.run_succ_of_inl hbody n, hready', Nat.zero_le _,
          by simp, ?_, by simpa using hfits⟩
        have hshort := OneTransfer.short (t := t) w.rest.length (by omega)
        rwa [hmoved, hzero] at hshort
      · have hres := hres hfail
        rw [if_neg hfail] at hbody
        by_cases hshort : t.moved.length < t.asked
        · rw [if_pos hshort] at hbody
          refine ⟨w.total + t.result, c', _, [t], t.moved.length,
            Lib.Loop.run_succ_of_inl hbody n, hready', by omega, by rw [← hres], ?_,
            by simpa using hfits⟩
          rw [← hmoved]
          exact OneTransfer.short _ hshort
        · -- a chunk in full, and the rest by induction
          rw [if_neg hshort] at hbody
          have hfull : t.moved.length = t.asked := by omega
          obtain ⟨res, c₁, s₁, ts', m, hrun, hready₁, hm, hval, hone, hall⟩ :=
            ih ⟨w.rest.drop t.asked, w.total + t.result, c'⟩ _ (ts ++ [t]) hready' hsize'
              (by simp only [List.length_drop]; omega)
          simp only [List.length_drop] at hm hone
          refine ⟨res, c₁, s₁, t :: ts', t.asked + m, ?_, ?_, by omega, ?_, ?_, ?_⟩
          · rw [Lib.Loop.run_succ_of_inr hbody, hrun]
          · rw [List.append_assoc] at hready₁
            exact hready₁
          · rw [hval, hres, hfull, Int32.ofNat_add, Int32.add_assoc]
          · have hcons := OneTransfer.cons hfull hone
            -- the bytes of the chunk and those behind it are the first ones of all
            rw [show t.asked + (w.rest.length - t.asked) = w.rest.length by omega, hmoved, hfull,
              ← List.take_add] at hcons
            exact hcons
          · exact List.forall_mem_cons.mpr ⟨hfits, hall⟩

/-! ### Reading -/

/-- What is read to the address `p` is stored there. -/
theorem replaceFrom_store (mem : Mem) (p : Nat) (data : List UInt8) :
    Client.replaceFrom mem p (Mem.store (fun x => mem (p + x)) 0 data) = mem.store p data := by
  funext x
  rw [Client.replaceFrom]
  by_cases hx : x < p
  · rw [if_pos hx, Mem.store_of_lt _ _ _ hx]
  · obtain ⟨j, rfl⟩ := Nat.exists_eq_add_of_le (show p ≤ x by omega)
    rw [if_neg hx, Nat.add_sub_cancel_left]
    by_cases hj : j < data.length
    · have hfirst := Mem.store_of_mem (fun x => mem (p + x)) 0 data hj
      rw [Nat.zero_add] at hfirst
      rw [hfirst, Mem.store_of_mem mem p data hj]
    · rw [Mem.store_of_ge _ _ _ (by omega), Mem.store_of_ge _ _ _ (by omega)]

/-- A read of a chunk of `n` bytes, as it is recorded. -/
def readTransfer (os : Os σ) (fd : Int32) (n : Nat) (s : σ) : Transfer :=
  ⟨fd, n, (os.read fd (UInt32.ofNat n) s).1.1, (os.read fd (UInt32.ofNat n) s).1.2⟩

/-- No read that the transfer of `len` bytes makes fails. -/
inductive ReadsSucceed (os : Os σ) (k : Nat) (fd : Int32) : Nat → σ → Prop where
  | done (s : σ) : ReadsSucceed os k fd 0 s
  /-- The transfer ends with a short read. -/
  | short {len : Nat} {s : σ} (pos : len ≠ 0)
      (result : (readTransfer os fd (chunk k len) s).result ≠ -1)
      (last : (readTransfer os fd (chunk k len) s).data.length < chunk k len) :
      ReadsSucceed os k fd len s
  /-- It goes on after a read in full. -/
  | next {len : Nat} {s : σ} (pos : len ≠ 0)
      (result : (readTransfer os fd (chunk k len) s).result ≠ -1)
      (full : (readTransfer os fd (chunk k len) s).data.length = chunk k len)
      (rest : ReadsSucceed os k fd (len - chunk k len)
        (os.read fd (UInt32.ofNat (chunk k len)) s).2) :
      ReadsSucceed os k fd len s

/-- The next read does not fail, and ends the transfer or is followed by others that do not. -/
theorem ReadsSucceed.first {s : σ} (h : ReadsSucceed os k fd len s) (hpos : len ≠ 0) :
    (readTransfer os fd (chunk k len) s).result ≠ -1 ∧
      ((readTransfer os fd (chunk k len) s).data.length < chunk k len ∨
        ReadsSucceed os k fd (len - chunk k len)
          (os.read fd (UInt32.ofNat (chunk k len)) s).2) := by
  cases h with
  | done => exact absurd rfl hpos
  | short _ result last => exact ⟨result, .inl last⟩
  | next _ result _ rest => exact ⟨result, .inr rest⟩

theorem fits_read (hk : BufferSize k) {c : Client (Remote (σ × List Transfer))}
    (hsize : c.buf.size = 2 ^ k) (fd : Int32) (buf : Mem) (len : Nat) :
    Fits c (.read fd buf (UInt32.ofNat (chunk k len))) := by
  obtain ⟨hge, hle⟩ := hk.bounds
  have hchunk := chunk_eq hk len
  have hn : (UInt32.ofNat (chunk k len)).toNat = chunk k len :=
    UInt32.toNat_ofNat_of_lt' (show chunk k len < 2 ^ 32 by omega)
  refine ⟨?_, ?_, by omega⟩
  · rw [hsize, Call.room, hn]
    omega
  · rw [Call.room, hn, show RFS_BUFFER_BYTES = 4125 from rfl]
    omega

/-- A read that does not fail: its result is the number of its bytes. -/
theorem readTransfer_spec (hk : BufferSize k) (hread : ReadResult os) {s : σ}
    (ht : t = readTransfer os fd (chunk k len) s) (hok : t.result ≠ -1) :
    t.result = (UInt32.ofNat t.data.length).toInt32 ∧ t.data.length ≤ t.asked ∧
      t.result.toInt = t.data.length ∧ t.moved = t.data ∧ ReadPacketsFit k t := by
  obtain ⟨hge, hle⟩ := hk.bounds
  have hchunk := chunk_eq hk len
  have hn : (UInt32.ofNat (chunk k len)).toNat = chunk k len :=
    UInt32.toNat_ofNat_of_lt' (show chunk k len < 2 ^ 32 by omega)
  have hle' : t.data.length ≤ chunk k len := by
    have := os.read_le fd (UInt32.ofNat (chunk k len)) s
    rw [hn] at this
    rw [ht]
    exact this
  have hasked : t.asked = chunk k len := by rw [ht]; rfl
  have hresult : t.result = (UInt32.ofNat t.data.length).toInt32 := by
    have := hread fd (UInt32.ofNat (chunk k len)) s
    rw [ht] at hok ⊢
    exact (this.resolve_left hok).1
  have hint : t.result.toInt = t.data.length := by
    rw [hresult, UInt32.toInt32_ofNat', Int32.toInt_ofNat_of_lt (by omega)]
  refine ⟨hresult, hasked ▸ hle', hint, ?_, readPacketsFit hk ?_⟩
  · rw [Transfer.moved, hint, Int.toNat_natCast, List.take_length]
  · rw [hresult, show (UInt32.ofNat t.data.length).toInt32.toUInt32 = UInt32.ofNat t.data.length
      from rfl, UInt32.toNat_ofNat_of_lt' (show t.data.length < 2 ^ 32 by omega)]
    omega

/-- A pass that reads the next chunk. -/
theorem rfsReadRBody_eq (hk : BufferSize k) (hread : ReadResult os)
    {r : Client.Reading (Remote (σ × List Transfer))} {s : σ}
    (hready : Ready r.client basedir (s, ts)) (hsize : r.client.buf.size = 2 ^ k)
    (hpos : r.len ≠ 0) (ht : t = readTransfer os fd (chunk k r.len) s) (hok : t.result ≠ -1) :
    ∃ c', Ready c' basedir ((os.read fd (UInt32.ofNat (chunk k r.len)) s).2, ts ++ [t]) ∧
      c'.buf.size = 2 ^ k ∧
      Client.rfsReadRBody (remoteLink os.recorded) k fd r =
        if t.data.length < t.asked then
          .inl (some (r.total + t.result, r.mem.store r.p t.data, c'))
        else .inr
          ⟨r.mem.store r.p t.data, r.p + t.asked, r.len - t.asked, r.total + t.result, c'⟩ := by
  obtain ⟨hge, hle⟩ := hk.bounds
  have hchunk := chunk_eq hk r.len
  have hn : (UInt32.ofNat (chunk k r.len)).toNat = chunk k r.len :=
    UInt32.toNat_ofNat_of_lt' (show chunk k r.len < 2 ^ 32 by omega)
  obtain ⟨hresult, hlen, hint, hmoved, -⟩ := readTransfer_spec hk hread ht hok
  have hasked : t.asked = chunk k r.len := by rw [ht]; rfl
  have hres : (os.recorded.read fd (UInt32.ofNat (chunk k r.len)) (s, ts)).1.1 =
      (UInt32.ofNat
        (os.recorded.read fd (UInt32.ofNat (chunk k r.len)) (s, ts)).1.2.length).toInt32 := by
    rw [ht] at hresult
    exact hresult
  obtain ⟨c', hready', hsize', hrun⟩ := remote_read hready
    (fits_read hk hsize fd (fun x => r.mem (r.p + x)) r.len) hres
  have hcall : os.recorded.read fd (UInt32.ofNat (chunk k r.len)) (s, ts) =
      ((t.result, t.data), (os.read fd (UInt32.ofNat (chunk k r.len)) s).2, ts ++ [t]) := by
    rw [ht]
    show (_, _, ts ++ [_]) = _
    rw [hn]
    rfl
  rw [hcall] at hready' hrun
  refine ⟨c', hready', hsize'.trans hsize, ?_⟩
  -- both comparisons of the loop are about the length of the data
  obtain ⟨hne, hlt⟩ := result_lt_iff (show 0 ≤ t.result.toInt by omega)
    (show chunk k r.len < 2 ^ 31 by omega)
  rw [Client.rfsReadRBody, if_neg hpos]
  simp only [hrun, if_neg hne, hlt, hint, Int.toNat_natCast, hasked, replaceFrom_store]

/-- A pass whose read fails. -/
theorem rfsReadRBody_failed (hk : BufferSize k) {r : Client.Reading (Remote (σ × List Transfer))}
    {s : σ} (hready : Ready r.client basedir (s, ts)) (hsize : r.client.buf.size = 2 ^ k)
    (hpos : r.len ≠ 0) (hfail : (readTransfer os fd (chunk k r.len) s).result = -1) :
    Client.rfsReadRBody (remoteLink os.recorded) k fd r = .inl none := by
  have hcall : (os.recorded.read fd (UInt32.ofNat (chunk k r.len)) (s, ts)).1.1 = -1 := hfail
  have hrun := read_failed hready (fits_read hk hsize fd (fun x => r.mem (r.p + x)) r.len) hcall
  rw [Client.rfsReadRBody, if_neg hpos]
  simp only [hrun]

/-- The loop of `rfs_read_r`, from any state, when no read fails. -/
theorem run_read (hk : BufferSize k) (hread : ReadResult os) (n : Nat) :
    ∀ (r : Client.Reading (Remote (σ × List Transfer))) (s : σ) (ts : List Transfer),
      Ready r.client basedir (s, ts) → r.client.buf.size = 2 ^ k → r.len < n →
      ReadsSucceed os k fd r.len s →
      ∃ res c' s' ts' bytes, Lib.Loop.run (Client.rfsReadRBody (remoteLink os.recorded) k fd) n r =
          some (some (res, r.mem.store r.p bytes, c')) ∧
        Ready c' basedir (s', ts ++ ts') ∧ res = r.total + Int32.ofNat bytes.length ∧
        OneTransfer fd r.len bytes ts' ∧ ∀ t ∈ ts', ReadPacketsFit k t := by
  induction n with
  | zero =>
    intro r s ts _ _ hn
    omega
  | succ n ih =>
    intro r s ts hready hsize hn hsucceed
    by_cases hpos : r.len = 0
    · have hdone : Client.rfsReadRBody (remoteLink os.recorded) k fd r =
          .inl (some (r.total, r.mem.store r.p [], r.client)) := by
        rw [Client.rfsReadRBody, if_pos hpos, Mem.store_nil]
      refine ⟨r.total, r.client, s, [], [], Lib.Loop.run_succ_of_inl hdone n, ?_, by simp, ?_,
        by simp⟩
      · rw [List.append_nil]
        exact hready
      · rw [hpos]
        exact OneTransfer.nil fd
    · obtain ⟨t, ht⟩ : ∃ t, t = readTransfer os fd (chunk k r.len) s := ⟨_, rfl⟩
      have hfd : t.fd = fd := by rw [ht]; rfl
      have hasked : t.asked = chunk k r.len := by rw [ht]; rfl
      have hchunk := chunk_eq hk r.len
      have hbounds := hk.bounds
      obtain ⟨hok, hnext⟩ := hsucceed.first hpos
      rw [← ht] at hok hnext
      obtain ⟨-, hlen, hint, hmoved, hfits⟩ := readTransfer_spec hk hread ht hok
      obtain ⟨c', hready', hsize', hbody⟩ := rfsReadRBody_eq hk hread hready hsize hpos ht hok
      have hres := eq_ofNat hint (by omega)
      by_cases hshort : t.data.length < t.asked
      · rw [if_pos hshort] at hbody
        refine ⟨r.total + t.result, c', _, [t], t.data, Lib.Loop.run_succ_of_inl hbody n, hready',
          by rw [← hres], ?_, by simpa using hfits⟩
        rw [← hmoved, ← hfd]
        exact OneTransfer.short _ (by rw [hmoved]; exact hshort)
      · rw [if_neg hshort] at hbody
        have hrest : ReadsSucceed os k fd (r.len - t.asked)
            (os.read fd (UInt32.ofNat (chunk k r.len)) s).2 := by
          rw [← hasked] at hnext ⊢
          exact hnext.resolve_left hshort
        obtain ⟨res, c₁, s₁, ts', bytes, hrun, hready₁, hval, hone, hall⟩ :=
          ih ⟨r.mem.store r.p t.data, r.p + t.asked, r.len - t.asked, r.total + t.result, c'⟩ _
            (ts ++ [t]) hready' hsize' (by simp only; omega) hrest
        have hfull : t.data.length = t.asked := by omega
        refine ⟨res, c₁, s₁, t :: ts', t.data ++ bytes, ?_, ?_, ?_, ?_, ?_⟩
        · -- the rest is stored right behind the chunk
          rw [Lib.Loop.run_succ_of_inr hbody, hrun, ← hfull, Mem.store_append]
        · rw [List.append_assoc] at hready₁
          exact hready₁
        · rw [hval, hres, List.length_append, Int32.ofNat_add, Int32.add_assoc]
        · have hcons := OneTransfer.cons (t := t) (by rw [hmoved]; exact hfull) (hfd ▸ hone)
          rw [hfd, hmoved, show t.asked + (r.len - t.asked) = r.len by omega] at hcons
          exact hcons
        · exact List.forall_mem_cons.mpr ⟨hfits, hall⟩

/-- When the loop of `rfs_read_r` stays inside its buffers, no read has failed. -/
theorem readsSucceed_of_run (hk : BufferSize k) (hread : ReadResult os) (n : Nat) :
    ∀ (r : Client.Reading (Remote (σ × List Transfer))) (s : σ) (ts : List Transfer)
      (out : Int32 × Mem × Client (Remote (σ × List Transfer))),
      Ready r.client basedir (s, ts) → r.client.buf.size = 2 ^ k →
      Lib.Loop.run (Client.rfsReadRBody (remoteLink os.recorded) k fd) n r = some (some out) →
      ReadsSucceed os k fd r.len s := by
  induction n with
  | zero =>
    intro r s ts out _ _ hrun
    simp at hrun
  | succ n ih =>
    intro r s ts out hready hsize hrun
    by_cases hpos : r.len = 0
    · rw [hpos]
      exact .done s
    · obtain ⟨t, ht⟩ : ∃ t, t = readTransfer os fd (chunk k r.len) s := ⟨_, rfl⟩
      by_cases hfail : t.result = -1
      · -- the client would have left its packet
        rw [Lib.Loop.run_succ_of_inl
          (rfsReadRBody_failed hk hready hsize hpos (ht ▸ hfail))] at hrun
        simp at hrun
      · have hasked : t.asked = chunk k r.len := by rw [ht]; rfl
        obtain ⟨-, hlen, -⟩ := readTransfer_spec hk hread ht hfail
        obtain ⟨c', hready', hsize', hbody⟩ :=
          rfsReadRBody_eq hk hread hready hsize hpos ht hfail
        by_cases hshort : t.data.length < t.asked
        · refine .short hpos (ht ▸ hfail) ?_
          rw [← ht, ← hasked]
          exact hshort
        · rw [if_neg hshort] at hbody
          rw [Lib.Loop.run_succ_of_inr hbody] at hrun
          refine .next hpos (ht ▸ hfail) ?_ ?_
          · rw [← ht, ← hasked]
            omega
          · rw [← hasked]
            have hrest := ih ⟨r.mem.store r.p t.data, r.p + t.asked, r.len - t.asked,
              r.total + t.result, c'⟩ _ _ out hready' hsize' hrun
            rw [hasked] at hrest ⊢
            exact hrest

/-! ### Transfers -/

/-- `rfs_write_r` does not leave its buffers, and what the operating system has written is as good
as one write of the bytes, or of so many of them as the total that is returned, an `s32`. -/
def WritesWhole (os : Os σ) (k : Nat) (basedir : CStr) (c : Client (Remote (σ × List Transfer)))
    (fd : Int32) (ptr : List UInt8) : Prop :=
  ∃ res c' s' ts m, Client.rfsWriteR (remoteLink os.recorded) k fd ptr c = some (res, c') ∧
    Ready c' basedir (s', ts) ∧ m ≤ ptr.length ∧ res = Int32.ofNat m ∧
    (m < 2 ^ 31 → res.toInt = m) ∧
    OneTransfer fd ptr.length (ptr.take m) ts ∧ ∀ t ∈ ts, WritePacketsFit k t

/-- `rfs_read_r` does not leave its buffers, and what the operating system has read is as good as
one read, whose bytes are in the memory of the caller and whose length is returned as an `s32`. -/
def ReadsWhole (os : Os σ) (k : Nat) (basedir : CStr) (c : Client (Remote (σ × List Transfer)))
    (fd : Int32) (mem : Mem) (ptr len : Nat) : Prop :=
  ∃ res c' s' ts bytes, Client.rfsReadR (remoteLink os.recorded) k fd mem ptr len c =
      some (res, mem.store ptr bytes, c') ∧
    Ready c' basedir (s', ts) ∧ res = Int32.ofNat bytes.length ∧
    (bytes.length < 2 ^ 31 → res.toInt = bytes.length) ∧
    OneTransfer fd len bytes ts ∧ ∀ t ∈ ts, ReadPacketsFit k t

variable {c : Client (Remote (σ × List Transfer))} {s : σ}

theorem writesWhole (hk : BufferSize k) (hwrite : WriteResult os) (hready : Ready c basedir (s, []))
    (hsize : c.buf.size = 2 ^ k) (ptr : List UInt8) : WritesWhole os k basedir c fd ptr := by
  obtain ⟨res, c', s', ts, m, hrun, hready', hm, hres, hone, hfits⟩ :=
    run_write fd hk hwrite (ptr.length + 1) ⟨ptr, 0, c⟩ s [] hready hsize
      (Nat.lt_succ_self _)
  have hres : res = Int32.ofNat m := hres.trans (Int32.zero_add _)
  refine ⟨res, c', s', ts, m, ?_, hready', hm, hres, ?_, hone, hfits⟩
  · rw [Client.rfsWriteR, hrun]
    rfl
  · intro hlt
    rw [hres, Int32.toInt_ofNat_of_lt hlt]

theorem readsWhole_iff (hk : BufferSize k) (hread : ReadResult os)
    (hready : Ready c basedir (s, [])) (hsize : c.buf.size = 2 ^ k) (mem : Mem) (ptr len : Nat) :
    ReadsWhole os k basedir c fd mem ptr len ↔ ReadsSucceed os k fd len s := by
  constructor
  · rintro ⟨res, c', s', ts, bytes, hrun, -⟩
    exact readsSucceed_of_run hk hread (len + 1) ⟨mem, ptr, len, 0, c⟩ s [] _ hready hsize
      (Option.join_eq_some_iff.mp hrun)
  · intro hsucceed
    obtain ⟨res, c', s', ts, bytes, hrun, hready', hres, hone, hfits⟩ :=
      run_read hk hread (len + 1) ⟨mem, ptr, len, 0, c⟩ s [] hready hsize (Nat.lt_succ_self _)
        hsucceed
    have hres : res = Int32.ofNat bytes.length := hres.trans (Int32.zero_add _)
    refine ⟨res, c', s', ts, bytes, ?_, hready', hres, ?_, hone, hfits⟩
    · rw [Client.rfsReadR, hrun]
      rfl
    · intro hlt
      rw [hres, Int32.toInt_ofNat_of_lt hlt]

/-- **Large transfers**: writes in chunks are as good as one write,
whatever the operating system of the server does. Reads in chunks are
as good as one read if and only if no read of the operating system
fails. By induction on the chunks. -/
theorem chunks_iff (hk : BufferSize k) (hwrite : WriteResult os) (hread : ReadResult os)
    (hready : Ready c basedir (s, [])) (hsize : c.buf.size = 2 ^ k) (fd : Int32) :
    (∀ ptr, WritesWhole os k basedir c fd ptr) ∧
    ∀ mem ptr len, ReadsWhole os k basedir c fd mem ptr len ↔ ReadsSucceed os k fd len s :=
  ⟨writesWhole hk hwrite hready hsize, readsWhole_iff hk hread hready hsize⟩

end Passes

/-! ### Two servers -/

/-- A client with a buffer of 512 bytes, and a server at rest. -/
def twoBytesClient : Client (Remote (Unit × List Transfer)) :=
  { buf := ⟨fun _ => 0, 512⟩
    line := ⟨some ⟨.ofByte 0x2F, fun _ => 0, 0, ((), [])⟩, []⟩ }

theorem twoBytesClient_ready : Ready twoBytesClient (.ofByte 0x2F) ((), []) := ⟨_, rfl, rfl, rfl⟩

/-- A server that writes and reads two bytes at a time. -/
def twoBytesOs : Os Unit :=
  { plainOs with write := fun _ bs s => ((UInt32.ofNat (min 2 bs.length)).toInt32, s) }

theorem twoBytesOs_writeResult : WriteResult twoBytesOs := by
  intro fd bs s
  right
  show 0 ≤ (Int32.ofNat (min 2 bs.length)).toInt ∧ (Int32.ofNat (min 2 bs.length)).toInt ≤ _
  rw [Int32.toInt_ofNat_of_lt (by omega)]
  omega

/-- Of three bytes, two are written, and of five, two are read. -/
theorem chunks_two_bytes :
    WritesWhole twoBytesOs 9 (.ofByte 0x2F) twoBytesClient 3 [1, 2, 3] ∧
      ReadsWhole twoBytesOs 9 (.ofByte 0x2F) twoBytesClient 3 (fun _ => 0) 0 5 := by
  have hchunk : chunk 9 5 = 5 := by decide
  obtain ⟨hwrites, hreads⟩ := chunks_iff (⟨by decide, by decide⟩ : BufferSize 9)
    twoBytesOs_writeResult plainOs_readResult twoBytesClient_ready (by decide) 3
  refine ⟨hwrites _, (hreads _ _ _).mpr (.short (by decide) ?_ ?_)⟩
  · rw [hchunk]
    decide
  · rw [hchunk]
    decide

/-- A server whose reads fail. -/
def failingOs : Os Unit :=
  { twoBytesOs with
    read := fun _ _ s => ((-1, []), s)
    read_le := fun _ _ _ => Nat.zero_le _ }

/-- A read of one byte that fails is not as good as one read. -/
theorem not_always_whole : WriteResult failingOs ∧ ReadResult failingOs ∧
    ¬ ReadsWhole failingOs 9 (.ofByte 0x2F) twoBytesClient 3 (fun _ => 0) 0 1 := by
  have hread : ReadResult failingOs := fun _ _ _ => .inl rfl
  refine ⟨twoBytesOs_writeResult, hread, ?_⟩
  rw [readsWhole_iff ⟨by decide, by decide⟩ hread twoBytesClient_ready (by decide)]
  intro h
  exact (h.first (by decide)).1 rfl

end Alcor.Proofs.Rfs
