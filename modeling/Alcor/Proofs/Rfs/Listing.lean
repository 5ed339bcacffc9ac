import Alcor.Proofs.Rfs.RemoteCall
import Alcor.Rfs.Remote

/-!
# `Alcor.Proofs.Rfs.Listing`: listing a directory of the server

`server_readdir` gets a name from the directory and its size by
opening the file, but it looks for the name in the base directory. So
a listing is right as long as every name that `os_readdir` returns is
found there at once, and is the name of the file of the directory
(`Findable`).

* `remote_opendir` and `remote_readdir`: the calls of a listing, each of
  which gives the client what the server finds.
* `listDir_of_findable`: then every call gives the next regular file.
* `directory_listing`: the listing is the regular files of the directory.
* `subdirectory_size` and `not_listed`: in a subdirectory the names are
  not found. `os_open` gives −1, which `server_readdir` takes for a
  descriptor, and the size is −1 as well.
-/

set_option autoImplicit false

namespace Alcor.Proofs.Rfs

open Lib (Mem Buf CStr)
open Alcor.Eluarpc Alcor.Rfs
open Alcor.Proofs.Eluarpc

/-! ### Strings -/

/-- A string that stands in an object with its terminator. -/
theorem stringAt_of_holds {b : Buf} {a : Nat} {s : CStr} (h : b.mem.Holds a (s.bytes ++ [0]))
    (hsize : a + (s.bytes.length + 1) ≤ b.size) : stringAt b a = some s.bytes := by
  have hread : b.mem.read a (s.bytes.length + 1) = s.bytes ++ [0] := by
    rw [Mem.Holds, List.length_append] at h
    exact h
  have hsplit := Mem.read_add b.mem a (s.bytes.length + 1) (b.size - a - (s.bytes.length + 1))
  rw [Nat.add_sub_of_le (by omega), hread] at hsplit
  have htext : (b.mem.read a (b.size - a)).takeWhile (· ≠ 0) = s.bytes := by
    rw [hsplit, List.append_assoc, List.takeWhile_append_of_pos]
    · rw [List.singleton_append, List.takeWhile_cons_of_neg (by simp), List.append_nil]
    · intro x hx
      simp only [ne_eq, decide_not, Bool.not_eq_eq_eq_not, Bool.not_true, decide_eq_false_iff_not]
      intro hzero
      exact s.nulFree (hzero ▸ hx)
  rw [stringAt]
  simp only [htext]
  rw [if_pos (by omega)]

/-- What is stored for a string is the string. -/
theorem stringAt_of_delivered {m : Mem} {lim : Nat} {s : CStr} {p : Option Nat × UInt32}
    (hlen : s.bytes.length + 1 < 2 ^ 32) (h : Delivered m lim (stringItem s) p) {size : Nat}
    (hsize : lim ≤ size) :
    ∃ a, p.1 = some a ∧ stringAt ⟨m, size⟩ a = some s.bytes := by
  have hnat : (UInt32.ofNat (s.bytes.length + 1)).toNat = s.bytes.length + 1 :=
    UInt32.toNat_ofNat_of_lt' hlen
  obtain ⟨-, hdata⟩ := h
  rw [DataDelivered, hnat, if_neg (Nat.succ_ne_zero _)] at hdata
  obtain ⟨a, ha, hlim, hread⟩ := hdata
  have hbytes := hread _ rfl
  rw [List.take_of_length_le (Nat.le_of_eq (by simp))] at hbytes
  refine ⟨a, ha, stringAt_of_holds ?_ (by simp only; omega)⟩
  rw [Mem.Holds, List.length_append]
  exact hbytes

/-! ### One call -/

section Calls
variable {σ : Type} (os : Os σ)
variable {c : Client (Remote σ)} {basedir : CStr} {s : σ}

/-- A directory is opened. -/
theorem remote_opendir (hready : Ready c basedir s) (hlow : 65 ≤ c.buf.size)
    (hhigh : c.buf.size < 65536) {name : CStr} {path : List UInt8}
    (hroom : name.bytes.length + 25 ≤ c.buf.size)
    (hlong : name.bytes.length + 25 ≤ RFS_BUFFER_BYTES)
    (hpath : serverFullname basedir.bytes name.bytes = some path) :
    ∃ c', rfscOpendir (remoteLink os) c name = some (.word (os.opendir path s).1, c') ∧
      Ready c' basedir (os.opendir path s).2 ∧ c'.buf.size = c.buf.size := by
  have hlen : (UInt32.ofNat (name.bytes.length + 1)).toNat = name.bytes.length + 1 :=
    UInt32.toNat_ofNat_of_lt' (show name.bytes.length + 1 < 2 ^ 32 by omega)
  have hsize : packetSize (opendirRequest name) = name.bytes.length + 25 := by
    simp only [packetSize_eq, opendirRequest, stringItem, List.map_cons, List.map_nil,
      List.sum_cons, List.sum_nil, Item.size, hlen, ELUARPC_PTR_HEADER_SIZE]
    omega
  have hback : packetSize (opendirResponse (os.opendir path s).1) = 22 := by
    simp [packetSize_eq, opendirResponse, Item.size]
  rw [← hsize] at hroom hlong
  obtain ⟨c', vs, heq, hready', hsize', -, -, hvalue, -⟩ := remote_call os (.opendir name)
    (opendirResponse (os.opendir path s).1) (os.opendir path s).2
    (fun srv => by rw [Call.handler, serverOpendir]; rfl) hready hroom hlong hhigh
    (by rintro it (_ | ⟨_, _ | ⟨_, ⟨⟩⟩⟩) <;> trivial) (by rw [hback]; decide) (by omega)
    (fun srv hbase hos hreceived => ⟨srv.mem, fun vs hvs => by
      obtain ⟨-, hname, -⟩ := hvs
      obtain ⟨a, ha, htext⟩ := stringAt_of_delivered (by omega) hname (Nat.le_refl _)
      rw [Server.request, hreceived, ha, nameAt, htext, Option.bind_some, hbase, hpath, ← hos]
      rfl⟩)
  refine ⟨c', ?_, hready', hsize'⟩
  have hvalue : vs.2.1 = (os.opendir path s).1 := hvalue
  rw [← hvalue]
  exact rfsc_of_exchange heq _ _

/-- What the server finds at the next entry: the end of the directory, or a name and the size of the
file that it opens. -/
inductive Next (basedir : CStr) (d : UInt32) (s : σ) : Option (CStr × UInt32) → σ → Prop where
  | ended {s' : σ} : os.readdir d s = (none, s') → Next basedir d s none s'
  | file {s₁ s' : σ} {name : CStr} {path : List UInt8} {size : UInt32} :
      os.readdir d s = (some name, s₁) → name.bytes.length ≤ RFS_MAX_FNAME_SIZE →
      serverFullname basedir.bytes name.bytes = some path →
      fileSize os s₁ path = (some size, s') → Next basedir d s (some (name, size)) s'

/-- The response for what the server finds. -/
def nextResponse : Option (CStr × UInt32) → List Item
  | none              => readdirResponse none 0 0
  | some (name, size) => readdirResponse (some name) size 0

theorem nextResponse_fits {d : UInt32} {ent : Option (CStr × UInt32)} {s' : σ}
    (h : Next os basedir d s ent s') :
    packetSize (nextResponse ent) ≤ 65 := by
  cases h with
  | ended _ => decide
  | @file _ _ name _ _ _ hshort _ _ =>
    rw [RFS_MAX_FNAME_SIZE] at hshort
    have hlen : (UInt32.ofNat (name.bytes.length + 1)).toNat = name.bytes.length + 1 :=
      UInt32.toNat_ofNat_of_lt' (show name.bytes.length + 1 < 2 ^ 32 by omega)
    simp only [packetSize_eq, nextResponse, readdirResponse, stringItem, Option.map_some,
      Option.getD_some, List.map_cons, List.map_nil, List.sum_cons, List.sum_nil, Item.size, hlen,
      ELUARPC_PTR_HEADER_SIZE]
    omega

/-- Its items have their data. -/
theorem nextResponse_sourced (ent : Option (CStr × UInt32)) :
    ∀ it ∈ nextResponse ent, it.Sourced := by
  cases ent with
  | none =>
    rintro it (_ | ⟨_, _ | ⟨_, _ | ⟨_, _ | ⟨_, ⟨⟩⟩⟩⟩⟩)
    · trivial
    · exact fun bs hbs => absurd hbs (Option.not_mem_none bs)
    · trivial
    · trivial
  | some ent =>
    rintro it (_ | ⟨_, _ | ⟨_, _ | ⟨_, _ | ⟨_, ⟨⟩⟩⟩⟩⟩)
    · trivial
    · exact stringItem_sourced ent.1
    · trivial
    · trivial

theorem entry_congr {a a' : Option Nat} {n n' t t' : UInt32} (ha : a = a') (hn : n = n')
    (ht : t = t') : Value.entry a n t = .entry a' n' t' := by rw [ha, hn, ht]

/-- The client gets what the server finds. -/
theorem remote_readdir (hready : Ready c basedir s) (hlow : 65 ≤ c.buf.size)
    (hhigh : c.buf.size < 65536) {d : UInt32} {ent : Option (CStr × UInt32)} {s' : σ}
    (hnext : Next os basedir d s ent s') :
    ∃ c', Ready c' basedir s' ∧ c'.buf.size = c.buf.size ∧
      match ent with
      | none              => rfscReaddir (remoteLink os) c d = some (.entry none 0 0, c')
      | some (name, size) => ∃ a,
          rfscReaddir (remoteLink os) c d = some (.entry (some a) size 0, c') ∧
          stringAt c'.buf a = some name.bytes := by
  have hfits := nextResponse_fits os hnext
  obtain ⟨c', vs, heq, hready', hsize', -, hvalue⟩ := remote_call os (.readdir d)
    (nextResponse ent) s' (fun srv => by rw [Call.handler, serverReaddir]; rfl) hready
    (show 23 ≤ c.buf.size by omega) (show 23 ≤ RFS_BUFFER_BYTES by decide) hhigh
    (nextResponse_sourced ent) (Nat.le_trans hfits (by decide)) (Nat.le_trans hfits hlow)
    (fun srv hbase hos _ => ⟨srv.mem, fun vs hvs => by
      obtain ⟨-, hd, -⟩ := hvs
      have hd : vs.2.1 = d := hd
      rw [hd, hos, hbase]
      cases hnext with
      | ended hread => rw [hread]; rfl
      | file hread hshort hpath hsize =>
        rw [hread]
        simp only [hpath, hsize, Option.map_some]
        rfl⟩)
  refine ⟨c', hready', hsize', ?_⟩
  cases hnext with
  | ended _ =>
    obtain ⟨-, ⟨-, hname⟩, hsize, htime, -⟩ := hvalue
    have hentry : Value.entry vs.2.1.1 vs.2.2.1 vs.2.2.2.1 = .entry none 0 0 :=
      entry_congr hname hsize htime
    exact (rfsc_of_exchange heq _ _).trans (congrArg (fun v => some (v, c')) hentry)
  | @file _ _ name _ size _ hshort _ _ =>
    rw [RFS_MAX_FNAME_SIZE] at hshort
    obtain ⟨-, hname, hsize, htime, -⟩ := hvalue
    obtain ⟨a, ha, htext⟩ := stringAt_of_delivered (by omega) hname
      (Nat.le_trans hfits (hsize' ▸ hlow))
    have hentry : Value.entry vs.2.1.1 vs.2.2.1 vs.2.2.2.1 = .entry (some a) size 0 :=
      entry_congr ha hsize htime
    exact ⟨a, (rfsc_of_exchange heq _ _).trans (congrArg (fun v => some (v, c')) hentry), htext⟩

end Calls

/-! ### A directory on a disk -/

section Directories
variable (disk : Disk) (basedir : CStr)

/-- From some `open` call on, every entry that `os_readdir` takes is a regular file with a name that
it does not cut, and the name is found in the base directory, as that very file. The entries that it
leaves out are no regular files. -/
def Findable : Nat → List Dirent → Prop
  | _, []          => True
  | t, ent :: rest =>
    if ent.type &&& DT_REG = 0 then ent.file = none ∧ Findable t rest
    else (∃ path fd size, ent.file = some size ∧ size < 2 ^ 32 ∧
        ent.name.bytes.length ≤ RFS_MAX_FNAME_SIZE ∧
        serverFullname basedir.bytes ent.name.bytes = some path ∧
        disk.open t path RFS_OPEN_FLAG_RDONLY 0 = some (fd, size) ∧ fd ≠ 0) ∧
      Findable (t + 1) rest

/-- What `os_readdir` takes of such a directory. -/
inductive Taken (t : Nat) (entries : List Dirent) : Option CStr × List Dirent → Prop where
  | ended {rest : List Dirent} : regularFiles entries = [] → Taken t entries (none, rest)
  | file {name : CStr} {rest : List Dirent} {path : List UInt8} {fd : Int32} {size : Nat} :
      name.bytes.length ≤ RFS_MAX_FNAME_SIZE →
      serverFullname basedir.bytes name.bytes = some path →
      disk.open t path RFS_OPEN_FLAG_RDONLY 0 = some (fd, size) → fd ≠ 0 → size < 2 ^ 32 →
      regularFiles entries = (name.bytes, size) :: regularFiles rest →
      Findable disk basedir (t + 1) rest → rest.length < entries.length →
      Taken t entries (some name, rest)

variable {disk basedir}

/-- What is found at once is what the directory has. -/
theorem taken_of_findable {t : Nat} {entries : List Dirent} (h : Findable disk basedir t entries) :
    Taken disk basedir t entries (osReaddir entries) := by
  induction entries with
  | nil => exact .ended rfl
  | cons ent rest ih =>
    rw [Findable] at h
    rw [osReaddir]
    split at h
    · -- the entry is left out
      rename_i htype
      obtain ⟨hfile, hrest⟩ := h
      have hfiles : regularFiles (ent :: rest) = regularFiles rest := by
        rw [regularFiles, List.filterMap_cons, hfile]
        rfl
      rw [if_neg (not_not_intro htype)]
      rcases hnext : osReaddir rest with ⟨_ | name, left⟩
      · have htaken := ih hrest
        rw [hnext] at htaken
        cases htaken with
        | ended hnone => exact .ended (hfiles.trans hnone)
      · have htaken := ih hrest
        rw [hnext] at htaken
        cases htaken with
        | file hshort hpath hopen hfd hlt hnext hfind hless =>
          exact .file hshort hpath hopen hfd hlt (hfiles.trans hnext) hfind
            (Nat.lt_succ_of_lt hless)
    · rename_i htype
      obtain ⟨⟨path, fd, size, hfile, hlt, hshort, hpath, hopen, hfd⟩, hrest⟩ := h
      rw [if_pos htype]
      have hname : ent.name.bytes.take RFS_MAX_FNAME_SIZE = ent.name.bytes :=
        List.take_of_length_le hshort
      refine .file (by simp only [hname]; exact hshort) (by simp only [hname]; exact hpath) hopen
        hfd hlt ?_ hrest (Nat.lt_succ_self _)
      rw [regularFiles, List.filterMap_cons, hfile]
      simp only [Option.map_some, hname]
      rfl

theorem osClose_keeps (fd : Int32) (s : Posix) :
    (osClose fd s).2.time = s.time ∧ (osClose fd s).2.streams = s.streams := by
  rw [osClose]
  split <;> exact ⟨rfl, rfl⟩

/-- The size of a file that is found. -/
theorem fileSize_posix {s : Posix} {path : List UInt8} {fd : Int32} {size : Nat}
    (hopen : disk.open s.time path RFS_OPEN_FLAG_RDONLY 0 = some (fd, size)) (hfd : fd ≠ 0) :
    ∃ s', fileSize (posix disk) s path = (some (UInt32.ofNat size), s') ∧
      s'.time = s.time + 1 ∧ s'.streams = s.streams := by
  have hopened : osOpen disk path RFS_OPEN_FLAG_RDONLY 0 s = (fd, { s with
      time := s.time + 1, files := fun x => if x = fd then some (size, 0) else s.files x }) := by
    rw [osOpen, hopen]
  -- the end of the file, then the descriptor is given back
  have hseek : seekTo (size, 0) 0 RFS_LSEEK_END = some (size : Int) := by
    rw [seekTo]
    simp [RFS_LSEEK_SET, RFS_LSEEK_CUR, RFS_LSEEK_END]
  have hlseek : ∀ s : Posix, s.files fd = some (size, 0) →
      osLseek s fd 0 RFS_LSEEK_END = (Int32.ofInt size, { s with
        files := fun x => if x = fd then some (size, (size : Int)) else s.files x }) := by
    intro s hfile
    rw [osLseek, hfile]
    simp only [hseek]
  have hsize : fileSize (posix disk) s path = (some (UInt32.ofNat size), (osClose fd { s with
      time := s.time + 1,
      files := fun x => if x = fd then some (size, (size : Int))
        else if x = fd then some (size, 0) else s.files x }).2) := by
    rw [fileSize]
    simp only [posix, hopened, ne_eq, hfd, not_false_eq_true, if_true]
    rw [hlseek _ (if_pos rfl)]
    rfl
  obtain ⟨htime, hstreams⟩ := osClose_keeps fd { s with
    time := s.time + 1,
    files := fun x => if x = fd then some (size, (size : Int))
      else if x = fd then some (size, 0) else s.files x }
  exact ⟨_, hsize, htime, hstreams⟩

/-- Listing what is left of a directory. -/
theorem listDir_of_findable (d : UInt32) (n : Nat) :
    ∀ (c : Client (Remote Posix)) (s : Posix), Ready c basedir s → 65 ≤ c.buf.size →
      c.buf.size < 65536 → Findable disk basedir s.time (s.streams d) →
      (s.streams d).length < n →
      ∃ c', listDir (remoteLink (posix disk)) d n c = some (regularFiles (s.streams d), c') := by
  induction n with
  | zero => exact fun c s _ _ _ _ hless => absurd hless (Nat.not_lt_zero _)
  | succ n ih =>
    intro c s hready hlow hhigh hfind hless
    rcases hnext : osReaddir (s.streams d) with ⟨ent, left⟩
    have htaken := taken_of_findable hfind
    rw [hnext] at htaken
    have hread : (posix disk).readdir d s =
        (ent, { s with streams := fun x => if x = d then left else s.streams x }) := by
      simp only [posix, hnext]
    cases htaken with
    | ended hnone =>
      obtain ⟨c', -, -, hcall⟩ := remote_readdir (posix disk) hready hlow hhigh (.ended hread)
      refine ⟨c', ?_⟩
      rw [listDir, hcall, hnone]
      rfl
    | @file name _ path fd size hshort hpath hopen hfd hlt hfiles hrest hleft =>
      obtain ⟨s', hsize, htime, hstreams⟩ := fileSize_posix
        (s := { s with streams := fun x => if x = d then left else s.streams x }) hopen hfd
      obtain ⟨c', hready', hsize', a, hcall, htext⟩ := remote_readdir (posix disk) hready hlow
        hhigh (.file hread hshort hpath hsize)
      have hleft' : s'.streams d = left := by
        rw [hstreams]
        exact if_pos rfl
      obtain ⟨c'', hlist⟩ := ih c' s' hready' (by omega) (by omega)
        (by rw [hleft', htime]; exact hrest) (by rw [hleft']; omega)
      refine ⟨c'', ?_⟩
      rw [listDir, hcall, Option.bind_some]
      simp only [htext, Option.bind_some, hlist, Option.map_some, hleft', hfiles]
      rw [UInt32.toNat_ofNat_of_lt' hlt]

/-- A directory is opened by its name, and calls until there is no name give its regular files. -/
def Lists (disk : Disk) (c : Client (Remote Posix)) (name : CStr) (d : UInt32)
    (entries : List Dirent) : Prop :=
  ∃ c₁, rfscOpendir (remoteLink (posix disk)) c name = some (.word d, c₁) ∧
    ∀ n, entries.length < n →
      ∃ c₂, listDir (remoteLink (posix disk)) d n c₁ = some (regularFiles entries, c₂)

/-- A directory is listed right while its files are found in the base
directory: the calls of `rfsc_readdir` give the entries in order, and
then the end. By induction on the entries. -/
theorem directory_listing {c : Client (Remote Posix)} {s : Posix} (hready : Ready c basedir s)
    (hlow : 65 ≤ c.buf.size) (hhigh : c.buf.size < 65536) {name : CStr}
    (hroom : name.bytes.length + 25 ≤ c.buf.size)
    (hlong : name.bytes.length + 25 ≤ RFS_BUFFER_BYTES) {path : List UInt8}
    (hpath : serverFullname basedir.bytes name.bytes = some path) {d : UInt32}
    {entries : List Dirent} (hopen : disk.opendir path = (d, entries))
    (hfind : Findable disk basedir s.time entries) : Lists disk c name d entries := by
  obtain ⟨c₁, hcall, hready₁, hsize⟩ :=
    remote_opendir (posix disk) hready hlow hhigh hroom hlong hpath
  have hopened : (posix disk).opendir path s =
      (d, { s with streams := fun x => if x = d then entries else s.streams x }) := by
    simp only [posix, hopen]
  rw [hopened] at hcall hready₁
  refine ⟨c₁, hcall, fun n hless => ?_⟩
  have hstream : (fun x => if x = d then entries else s.streams x) d = entries := if_pos rfl
  obtain ⟨c₂, hlist⟩ := listDir_of_findable d n c₁ _ hready₁ (by omega) (by omega)
    (by simp only [if_true]; exact hfind) (by simp only [if_true]; exact hless)
  refine ⟨c₂, ?_⟩
  rw [hlist]
  simp only [if_true]

end Directories

/-! ### A directory and a subdirectory -/

def rootDir : CStr := .ofByte 0x2F
def dirD : CStr := .ofByte 0x64
def fileA : CStr := .ofByte 0x61
def fileB : CStr := .ofByte 0x62

/-- The base directory is `/` with a file `a` of 7 bytes and a directory `d`, which has a file `b` of
5 bytes. -/
def twoDirs : Disk where
  opendir path :=
    if path = [0x2F] then (1, [⟨fileA, DT_REG, some 7⟩, ⟨dirD, 4, none⟩])
    else if path = [0x2F, 0x64] then (2, [⟨fileB, DT_REG, some 5⟩])
    else (0, [])
  «open» _ path _ _ :=
    if path = [0x2F, 0x61] then some (3, 7)
    else if path = [0x2F, 0x64, 0x2F, 0x62] then some (3, 5)
    else none
  read _ _ _ := (0, [])
  read_le _ _ _ := Nat.zero_le _
  write _ _ _ := 0
  closedir _ := 0

/-- A client with a packet buffer of 512 bytes. -/
def smallClient : Client (Remote Posix) where
  buf := ⟨fun _ => 0, 512⟩
  line := ⟨some ⟨rootDir, fun _ => 0, 0, {}⟩, []⟩

theorem smallClient_ready : Ready smallClient rootDir {} := ⟨_, rfl, rfl, rfl⟩

/-- The file of the base directory is found. -/
theorem directory_listing_root : Lists twoDirs smallClient ⟨[], by decide⟩ 1
    [⟨fileA, DT_REG, some 7⟩, ⟨dirD, 4, none⟩] := by
  have hpath : serverFullname rootDir.bytes [] = some [0x2F] := by decide
  exact directory_listing smallClient_ready (by decide) (by decide) (by decide) (by decide) hpath
    rfl ⟨⟨[0x2F, 0x61], 3, 7, rfl, by decide, by decide, by decide, by decide, by decide⟩, rfl,
      trivial⟩

/-- The file of the subdirectory is not, and its size is −1. -/
theorem subdirectory_size :
    ∃ c₁ c₂, rfscOpendir (remoteLink (posix twoDirs)) smallClient dirD =
        some (.word 2, c₁) ∧
      listDir (remoteLink (posix twoDirs)) 2 2 c₁ = some ([([0x62], 4294967295)], c₂) := by
  have hpath : serverFullname rootDir.bytes dirD.bytes = some [0x2F, 0x64] := by decide
  obtain ⟨c₁, hcall, hready, hsize⟩ := remote_opendir (posix twoDirs) smallClient_ready
    (by decide) (by decide) (by decide) (by decide) hpath
  have hsize : c₁.buf.size = 512 := hsize
  have hentry : (posix twoDirs).readdir 2 ((posix twoDirs).opendir [0x2F, 0x64] {}).2 =
      (some fileB, _) := rfl
  have hfile : serverFullname rootDir.bytes fileB.bytes = some [0x2F, 0x62] := by decide
  -- `/b` is opened, and −1 is taken for its descriptor
  obtain ⟨c₂, hready₂, hsize₂, a, hread, htext⟩ := remote_readdir (posix twoDirs) hready (by omega)
    (by omega) (.file hentry (by decide) hfile rfl)
  obtain ⟨c₃, -, -, hover⟩ := remote_readdir (posix twoDirs) hready₂ (by omega) (by omega)
    (d := 2) (.ended rfl)
  refine ⟨c₁, c₃, hcall, ?_⟩
  rw [listDir, hread, Option.bind_some]
  simp only [htext, Option.bind_some]
  rw [listDir, hover]
  rfl

/-- So a listing has a size that is no file's. -/
theorem not_listed :
    ¬ ∀ (disk : Disk) (c : Client (Remote Posix)) (basedir name : CStr) (s : Posix)
      (path : List UInt8) (d : UInt32) (entries : List Dirent),
      Ready c basedir s → 65 ≤ c.buf.size → c.buf.size < 65536 →
      name.bytes.length + 25 ≤ c.buf.size → name.bytes.length + 25 ≤ RFS_BUFFER_BYTES →
      serverFullname basedir.bytes name.bytes = some path → disk.opendir path = (d, entries) →
      d ≠ 0 → Lists disk c name d entries := by
  intro hall
  obtain ⟨c₁, hopen, hlist⟩ := hall twoDirs smallClient rootDir dirD {}
    [0x2F, 0x64] 2 [⟨fileB, DT_REG, some 5⟩] smallClient_ready (by decide)
    (by decide) (by decide) (by decide) (by decide) rfl (by decide)
  obtain ⟨c₂, hfiles⟩ := hlist 2 (by decide)
  obtain ⟨c₁', c₂', hopen', hsizes⟩ := subdirectory_size
  rw [hopen, Option.some.injEq, Prod.mk.injEq] at hopen'
  rw [← hopen'.2, hfiles, Option.some.injEq, Prod.mk.injEq] at hsizes
  exact absurd hsizes.1 (by decide)

end Alcor.Proofs.Rfs
