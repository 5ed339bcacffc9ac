import Alcor.Proofs.Rfs.Chunks
import Alcor.Rfs.Remote

/-!
# `Alcor.Proofs.Rfs.FileServer`: remote files behind the packets

`Alcor.Rfs.Remote` has the loops of `rfs_read_r` and `rfs_write_r`
over files of the server, without packets. Here they are connected to
the loops over the client: with a server that has these files and whose
responses arrive, the packets make no difference (`rfsReadR_files`,
`rfsWriteR_files`).

Both proofs go pass by pass. `rfsReadRBody_eq` and `rfsWriteRBody_eq`
say what a pass does over packets, `hdevice` what it does without them.
-/

set_option autoImplicit false

namespace Alcor.Proofs.Rfs

open Lib (Mem CStr)
open Alcor.Eluarpc Alcor.Rfs

/-- The calls of the client get their responses, and the disk has so much room in each write. -/
def answered (room : Nat → Nat) : Fates where
  read _ := .done
  write i := .done (room i)

/-- The operating system of a server with some open files, and nothing else. A write that is longer
than a result can say is an error. -/
def filesOs (room : Nat → Nat) : Os Remotes where
  «open» _ _ _ s := (-1, s)
  write fd bs s :=
    if bs.length < 2 ^ 31 then
      ((UInt32.ofNat (bs.take (room s.writes)).length).toInt32,
        (rfscWriteCall (answered room) fd.toUInt32.toNat bs s).2)
    else (-1, s)
  read fd count s :=
    (((UInt32.ofNat ((s.files fd.toUInt32.toNat).next count.toNat).length).toInt32,
        (s.files fd.toUInt32.toNat).next count.toNat),
      (rfscReadCall (answered room) fd.toUInt32.toNat count.toNat s).2)
  read_le _ _ _ := List.length_take_le _ _
  close _ s := (-1, s)
  lseek _ _ _ s := (-1, s)
  opendir _ s := (0, s)
  readdir _ s := (none, s)
  closedir _ s := (-1, s)

/-- A write that is short enough for its result. -/
theorem filesOs_write {room : Nat → Nat} {bs : List UInt8} (h : bs.length < 2 ^ 31) (fd : Int32)
    (s : Remotes) :
    (filesOs room).write fd bs s =
      ((UInt32.ofNat (bs.take (room s.writes)).length).toInt32,
        (rfscWriteCall (answered room) fd.toUInt32.toNat bs s).2) :=
  if_pos h

theorem filesOs_writeResult (room : Nat → Nat) : WriteResult (filesOs room) := by
  intro fd bs s
  by_cases hlen : bs.length < 2 ^ 31
  · right
    have hres : ((filesOs room).write fd bs s).1 =
        Int32.ofNat (bs.take (room s.writes)).length := by
      rw [filesOs_write hlen]
      rfl
    rw [hres, Int32.toInt_ofNat_of_lt (by simp only [List.length_take]; omega)]
    simp only [List.length_take]
    omega
  · left
    simp only [filesOs, if_neg hlen]

theorem filesOs_readResult (room : Nat → Nat) : ReadResult (filesOs room) := by
  intro fd count s
  by_cases h : ((filesOs room).read fd count s).1.1 = -1
  · exact .inl h
  · exact .inr ⟨rfl, h⟩

section Files
variable (room : Nat → Nat) {k : Nat} {basedir : CStr} (fd : Int32)

/-- The loop of `rfs_read_r` over a server with files. -/
theorem run_read_files (hk : BufferSize k) (n : Nat) :
    ∀ (r : Client.Reading (Remote (Remotes × List Transfer))) (s : Remotes) (ts : List Transfer),
      Ready r.client basedir (s, ts) → r.client.buf.size = 2 ^ k → r.len < n →
      ∃ c' ts', Lib.Loop.run (Client.rfsReadRBody (remoteLink (filesOs room).recorded) k fd) n r =
          some (some (r.total + Int32.ofNat
              (rfsReadR (answered room) k fd.toUInt32.toNat n r.len s).1.length,
            r.mem.store r.p (rfsReadR (answered room) k fd.toUInt32.toNat n r.len s).1, c')) ∧
        Ready c' basedir ((rfsReadR (answered room) k fd.toUInt32.toNat n r.len s).2, ts') := by
  induction n with
  | zero =>
    -- more passes than bytes, so that some are left at the end
    intro r s ts _ _ hn
    omega
  | succ n ih =>
    intro r s ts hready hsize hn
    by_cases hpos : r.len = 0
    · refine ⟨r.client, ts, ?_, ?_⟩
      · rw [Lib.Loop.run_succ_of_inl (by rw [Client.rfsReadRBody, if_pos hpos]), rfsReadR,
          if_pos hpos, List.length_nil, Mem.store_nil]
        exact congrArg (fun x => some (some (x, r.mem, r.client))) (Int32.add_zero _).symm
      · rw [rfsReadR, if_pos hpos]
        exact hready
    · obtain ⟨t, ht⟩ : ∃ t, t = readTransfer (filesOs room) fd (chunk k r.len) s := ⟨_, rfl⟩
      have hbounds := hk.bounds
      have hchunk := chunk_eq hk r.len
      have hreal : RFS_REAL_BUFFER_SIZE k = 2 ^ k - 29 := rfl
      have hn' : (UInt32.ofNat (chunk k r.len)).toNat = chunk k r.len :=
        UInt32.toNat_ofNat_of_lt' (show chunk k r.len < 2 ^ 32 by omega)
      have hasked : t.asked = chunk k r.len := by rw [ht]; rfl
      have hdata : t.data = (s.files fd.toUInt32.toNat).next (chunk k r.len) := by
        rw [ht]
        show (s.files fd.toUInt32.toNat).next (UInt32.ofNat (chunk k r.len)).toNat = _
        rw [hn']
      have hle : t.data.length ≤ chunk k r.len := by
        rw [hdata]
        exact List.length_take_le _ _
      have hres : t.result = Int32.ofNat t.data.length := by rw [ht]; rfl
      have hok : t.result ≠ -1 := by
        rw [hres]
        exact (result_lt_iff (n := 0) (by rw [Int32.toInt_ofNat_of_lt (by omega)]; omega)
          (by decide)).1
      obtain ⟨c', hready', hsize', hbody⟩ :=
        rfsReadRBody_eq hk (filesOs_readResult room) hready hsize hpos ht hok
      -- what the loop without packets does in the same pass
      have hdevice : rfsReadR (answered room) k fd.toUInt32.toNat (n + 1) r.len s =
          if t.data.length < chunk k r.len then
            (t.data, ((filesOs room).read fd (UInt32.ofNat (chunk k r.len)) s).2)
          else
            let rest := rfsReadR (answered room) k fd.toUInt32.toNat n (r.len - chunk k r.len)
              ((filesOs room).read fd (UInt32.ofNat (chunk k r.len)) s).2
            (t.data ++ rest.1, rest.2) := by
        rw [rfsReadR, if_neg hpos, hreal, ← hchunk, hdata]
        simp only [filesOs, hn']
        rfl
      by_cases hshort : t.data.length < chunk k r.len
      · rw [hasked, if_pos hshort] at hbody
        rw [hdevice, if_pos hshort]
        refine ⟨c', ts ++ [t], ?_, hready'⟩
        rw [Lib.Loop.run_succ_of_inl hbody, hres]
      · rw [hasked, if_neg hshort] at hbody
        rw [hdevice, if_neg hshort]
        obtain ⟨c₁, ts₁, hrun, hready₁⟩ := ih
          ⟨r.mem.store r.p t.data, r.p + chunk k r.len, r.len - chunk k r.len,
            r.total + t.result, c'⟩ _ _ hready' hsize' (by simp only; omega)
        refine ⟨c₁, ts₁, ?_, hready₁⟩
        have hfull : t.data.length = chunk k r.len := by omega
        rw [Lib.Loop.run_succ_of_inr hbody, hrun]
        simp only
        rw [← hfull, Mem.store_append, hres, List.length_append, Int32.ofNat_add, Int32.add_assoc]

/-- The loop of `rfs_write_r` over a server with files. -/
theorem run_write_files (hk : BufferSize k) (n : Nat) :
    ∀ (w : Client.Writing (Remote (Remotes × List Transfer))) (s : Remotes) (ts : List Transfer),
      Ready w.client basedir (s, ts) → w.client.buf.size = 2 ^ k → w.rest.length < n →
      ∃ c' ts', Lib.Loop.run (Client.rfsWriteRBody (remoteLink (filesOs room).recorded) k fd) n w =
          some (some (w.total + Int32.ofNat
            (rfsWriteR (answered room) k fd.toUInt32.toNat n w.rest s).1, c')) ∧
        Ready c' basedir ((rfsWriteR (answered room) k fd.toUInt32.toNat n w.rest s).2, ts') := by
  induction n with
  | zero =>
    intro w s ts _ _ hn
    omega
  | succ n ih =>
    intro w s ts hready hsize hn
    by_cases hpos : w.rest.length = 0
    · have hnil : w.rest = [] := List.length_eq_zero_iff.mp hpos
      refine ⟨w.client, ts, ?_, ?_⟩
      · rw [Lib.Loop.run_succ_of_inl (by rw [Client.rfsWriteRBody, if_pos hpos]), rfsWriteR,
          if_pos hnil]
        exact congrArg (fun x => some (some (x, w.client))) (Int32.add_zero _).symm
      · rw [rfsWriteR, if_pos hnil]
        exact hready
    · obtain ⟨t, ht⟩ : ∃ t, t =
          writeTransfer (filesOs room) fd (w.rest.take (chunk k w.rest.length)) s := ⟨_, rfl⟩
      have hnil : w.rest ≠ [] := fun h => hpos (by rw [h]; rfl)
      have hbounds := hk.bounds
      have hchunk := chunk_eq hk w.rest.length
      have hreal : RFS_REAL_BUFFER_SIZE k = 2 ^ k - 29 := rfl
      obtain ⟨data, hdata⟩ : ∃ data, data = w.rest.take (chunk k w.rest.length) := ⟨_, rfl⟩
      have hlen : data.length = chunk k w.rest.length := by
        rw [hdata, List.length_take]
        omega
      have hwrite : (filesOs room).write fd data s =
          ((UInt32.ofNat (data.take (room s.writes)).length).toInt32,
            (rfscWriteCall (answered room) fd.toUInt32.toNat data s).2) :=
        filesOs_write (by omega) fd s
      have hle : (data.take (room s.writes)).length ≤ data.length := List.length_take_le' _ _
      have hres : t.result = Int32.ofNat (data.take (room s.writes)).length := by
        rw [ht, ← hdata, writeTransfer, hwrite]
        rfl
      have hint : t.result.toInt = ((data.take (room s.writes)).length : Int) := by
        rw [hres, Int32.toInt_ofNat_of_lt (by omega)]
      have hok : t.result ≠ -1 :=
        (result_lt_iff (n := 0) (by rw [hint]; omega) (by decide)).1
      obtain ⟨c', hready', hsize', hasked, -, hmoved, -, -, -, hbody⟩ :=
        rfsWriteRBody_eq hk (filesOs_writeResult room) hready hsize hpos ht
      rw [if_neg hok] at hbody
      rw [← hdata, hwrite] at hready'
      have hmoved : t.moved.length = (data.take (room s.writes)).length := by
        rw [hmoved, hint, Int.toNat_natCast]
      -- what the loop without packets does in the same pass
      have hdevice : rfsWriteR (answered room) k fd.toUInt32.toNat (n + 1) w.rest s =
          if t.moved.length < chunk k w.rest.length then
            (t.moved.length, (rfscWriteCall (answered room) fd.toUInt32.toNat data s).2)
          else
            let rest := rfsWriteR (answered room) k fd.toUInt32.toNat n
              (w.rest.drop (chunk k w.rest.length))
              (rfscWriteCall (answered room) fd.toUInt32.toNat data s).2
            (t.moved.length + rest.1, rest.2) := by
        rw [rfsWriteR, if_neg hnil, hreal, ← hchunk, hmoved, hdata]
        rfl
      rw [← hmoved] at hres
      by_cases hshort : t.moved.length < chunk k w.rest.length
      · rw [hasked, if_pos hshort] at hbody
        rw [hdevice, if_pos hshort]
        refine ⟨c', ts ++ [t], ?_, hready'⟩
        rw [Lib.Loop.run_succ_of_inl hbody, hres]
      · rw [hasked, if_neg hshort] at hbody
        rw [hdevice, if_neg hshort]
        obtain ⟨c₁, ts₁, hrun, hready₁⟩ := ih ⟨w.rest.drop (chunk k w.rest.length),
          w.total + t.result, c'⟩ _ _ hready' hsize' (by simp only [List.length_drop]; omega)
        refine ⟨c₁, ts₁, ?_, hready₁⟩
        rw [Lib.Loop.run_succ_of_inr hbody, hrun]
        simp only
        rw [hres, Int32.ofNat_add, Int32.add_assoc]

/-! ### The two calls -/

variable {c : Client (Remote (Remotes × List Transfer))} {s : Remotes}

/-- `rfs_read_r` over packets does what it does over the files: the
same result, the same bytes in the buffer of the caller, and the same
files behind it. -/
theorem rfsReadR_files (hk : BufferSize k) (hready : Ready c basedir (s, []))
    (hsize : c.buf.size = 2 ^ k) (mem : Mem) (ptr len : Nat) {bytes : List UInt8} {s' : Remotes}
    (h : rfsReadR (answered room) k fd.toUInt32.toNat (len + 1) len s = (bytes, s')) :
    ∃ c' ts, Client.rfsReadR (remoteLink (filesOs room).recorded) k fd mem ptr len c =
        some (Int32.ofNat bytes.length, mem.store ptr bytes, c') ∧
      Ready c' basedir (s', ts) := by
  have hfiles := run_read_files room fd hk (len + 1) ⟨mem, ptr, len, 0, c⟩ s [] hready hsize
    (Nat.lt_succ_self _)
  simp only [h] at hfiles
  obtain ⟨c', ts, hrun, hready'⟩ := hfiles
  refine ⟨c', ts, ?_, hready'⟩
  rw [Client.rfsReadR, hrun, Int32.zero_add]
  rfl

/-- `rfs_write_r` over packets does what it does over the files: the
same result, and the same files behind it. -/
theorem rfsWriteR_files (hk : BufferSize k) (hready : Ready c basedir (s, []))
    (hsize : c.buf.size = 2 ^ k) (ptr : List UInt8) {total : Nat} {s' : Remotes}
    (h : rfsWriteR (answered room) k fd.toUInt32.toNat (ptr.length + 1) ptr s = (total, s')) :
    ∃ c' ts, Client.rfsWriteR (remoteLink (filesOs room).recorded) k fd ptr c =
        some (Int32.ofNat total, c') ∧
      Ready c' basedir (s', ts) := by
  have hfiles := run_write_files room fd hk (ptr.length + 1) ⟨ptr, 0, c⟩ s [] hready hsize
    (Nat.lt_succ_self _)
  simp only [h] at hfiles
  obtain ⟨c', ts, hrun, hready'⟩ := hfiles
  refine ⟨c', ts, ?_, hready'⟩
  rw [Client.rfsWriteR, hrun, Int32.zero_add]
  rfl

end Files

end Alcor.Proofs.Rfs
