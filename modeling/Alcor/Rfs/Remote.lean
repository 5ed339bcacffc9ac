import Mathlib.Logic.Function.Basic
import Alcor.Eluarpc.Codec
import Alcor.Rfs.Client
import Alcor.Rfs.Server
import Alcor.Lib.Memory
import Alcor.Lib.Run

/-!
# `Alcor.Rfs.Remote`: both ends of the remote file system

The device with the loops of its driver, and the client with a server
at the other end of the line.

* `remoteLink`: a line that brings each request to a server and its
  response back; on `delayedLink` responses may be late.
* `Posix`: an operating system below the server, with its descriptors
  and directory streams.
* `rfsReadR`, `rfsWriteR`: the loops of the driver over the calls of the
  client, in chunks that fit into a packet.
* `Transfer`, `OneTransfer`: what a call is to do for the caller.
-/

set_option autoImplicit false

/-!
## Remote files as files of the system

`rfs_read_r` and `rfs_write_r` of `src/remotefs/elua_rfs.c` split a
transfer into calls of the client. A call that fails ends the transfer,
and the result is what was transferred before.

A file of the server is its contents and a position. Whether a call of
the client gets its response is up to the line, and how much the
server can write to the disk.
-/

namespace Alcor.Rfs

open Alcor.Eluarpc (ELUARPC_WRITE_REQUEST_EXTRA)

/-- `RFS_REAL_BUFFER_SIZE`, for an `RFS_BUFFER_SIZE`. -/
def RFS_REAL_BUFFER_SIZE (rfsBufferSize : Nat) : Nat :=
  2 ^ rfsBufferSize - ELUARPC_WRITE_REQUEST_EXTRA

/-- An open file of the server. -/
structure RemoteFile where
  /-- The contents. -/
  content : List UInt8
  /-- The position. -/
  pos : Nat := 0

/-- What comes of a call of `rfsc_read`. -/
inductive ReadFate where
  /-- The client gets the response of the server. -/
  | done
  /-- It does not, and the server may have got the request or not. -/
  | failed (moved : Bool)
  deriving DecidableEq

/-- What comes of a call of `rfsc_write`. -/
inductive WriteFate where
  /-- The client gets the response of a server that writes so many bytes at most. -/
  | done (room : Nat)
  /-- It does not, and the server has written so many bytes at most. -/
  | failed (room : Nat)
  deriving DecidableEq

/-- What comes of each call, by its number. -/
structure Fates where
  read : Nat → ReadFate
  write : Nat → WriteFate

/-- The open files of the server, and the number of calls so far. -/
structure Remotes where
  files : Nat → RemoteFile
  reads : Nat := 0
  writes : Nat := 0

section Calls
variable (fates : Fates)

/-- The bytes that `os_read` gives. -/
def RemoteFile.next (f : RemoteFile) (count : Nat) : List UInt8 :=
  (f.content.drop f.pos).take count

/-- `os_read` moves the position. -/
def RemoteFile.moved (f : RemoteFile) (count : Nat) : RemoteFile :=
  { f with pos := f.pos + (f.next count).length }

/-- `os_write` of these bytes at the position. -/
def RemoteFile.put (f : RemoteFile) (bs : List UInt8) : RemoteFile :=
  { content := f.content.take f.pos ++ bs ++ f.content.drop (f.pos + bs.length)
    pos := f.pos + bs.length }

/-- `rfsc_read`; `none` is the result −1. -/
def rfscReadCall (fd count : Nat) (s : Remotes) : Option (List UInt8) × Remotes :=
  let s' := { s with reads := s.reads + 1 }
  let after := { s' with files := Function.update s.files fd ((s.files fd).moved count) }
  match fates.read s.reads with
  | .done         => (some ((s.files fd).next count), after)
  | .failed moved => (none, if moved then after else s')

/-- `rfsc_write`; `none` is the result −1. -/
def rfscWriteCall (fd : Nat) (ptr : List UInt8) (s : Remotes) : Option Nat × Remotes :=
  let after (room : Nat) : Remotes := { s with
    writes := s.writes + 1
    files := Function.update s.files fd ((s.files fd).put (ptr.take room)) }
  match fates.write s.writes with
  | .done room   => (some (ptr.take room).length, after room)
  | .failed room => (none, after room)

variable (rfsBufferSize : Nat)

/-- The loop of `rfs_read_r`, at most `n` passes: what is read. -/
def rfsReadR (fd : Nat) : Nat → Nat → Remotes → List UInt8 × Remotes
  | 0,     _,   s => ([], s)
  | n + 1, len, s =>
    if len = 0 then ([], s)
    else
      let toread := min len (RFS_REAL_BUFFER_SIZE rfsBufferSize)
      match rfscReadCall fates fd toread s with
      | (none, s)     => ([], s)
      | (some res, s) =>
        if res.length < toread then (res, s)
        else
          let rest := rfsReadR fd n (len - toread) s
          (res ++ rest.1, rest.2)

/-- The loop of `rfs_write_r`, at most `n` passes: how many bytes are written. -/
def rfsWriteR (fd : Nat) : Nat → List UInt8 → Remotes → Nat × Remotes
  | 0,     _,   s => (0, s)
  | n + 1, ptr, s =>
    if ptr = [] then (0, s)
    else
      let towrite := min ptr.length (RFS_REAL_BUFFER_SIZE rfsBufferSize)
      match rfscWriteCall fates fd (ptr.take towrite) s with
      | (none, s)     => (0, s)
      | (some res, s) =>
        if res < towrite then (res, s)
        else
          let rest := rfsWriteR fd n (ptr.drop towrite) s
          (res + rest.1, rest.2)

end Calls

end Alcor.Rfs

/-!
## A client and a server on a reliable line

The client of `Alcor.Rfs.Client` with the server of
`Alcor.Rfs.Server` at the other end. The server gets what the client
sends as one request and answers at once, and every byte of the answer
arrives.
-/

namespace Alcor.Rfs

open Lib (Mem Buf CStr)

/-- The other end of the line, and the bytes under way to the client. -/
structure Remote (σ : Type) where
  /-- The server; `none` after it has left one of its objects. -/
  server : Option (Server σ)
  /-- The bytes under way. -/
  queue : List UInt8 := []

/-- The server gets a request. -/
def Remote.answer {σ : Type} (os : Os σ) (r : Remote σ) (request : List UInt8) : Remote σ :=
  match r.server.bind fun srv => serve os srv request with
  | none         => ⟨none, r.queue⟩
  | some (bs, s) => ⟨some s, r.queue ++ bs⟩

/-- The reliable line. -/
def remoteLink {σ : Type} (os : Os σ) : Link (Remote σ) where
  pending r := (r.queue, { r with queue := [] })
  send bs r := (UInt32.ofNat bs.length, r.answer os bs)
  recv size r := (r.queue.take size, { r with queue := r.queue.drop size })
  recv_le size r := List.length_take_le size r.queue

/-! ### A line with delays

The client of `Alcor.Rfs.Client` with the server of
`Alcor.Rfs.Server` at the other end of a line that keeps the order of
the bytes and the bytes themselves, and nothing else: a response may
be lost, and as many of the bytes under way as the schedule says are
there when the client looks.
-/

section Delays
/-- What becomes of the responses. -/
structure Schedule where
  /-- How many bytes arrive before each step of the line. -/
  arrives : Nat → Nat
  /-- Whether the response that is sent in this step is lost. -/
  lost : Nat → Bool

/-- The other end of the line, and the bytes on their way to the client. -/
structure Delayed (σ : Type) where
  /-- The server; `none` after it has left one of its objects. -/
  server : Option (Server σ)
  /-- The receive buffer of the client. -/
  arrived : List UInt8 := []
  /-- The bytes under way. -/
  underWay : List UInt8 := []
  /-- The number of steps. -/
  step : Nat := 0

section Line
variable {σ : Type} (os : Os σ) (sched : Schedule)

/-- Some bytes arrive. -/
def Delayed.arrive (w : Delayed σ) : Delayed σ :=
  { w with
    arrived := w.arrived ++ w.underWay.take (sched.arrives w.step)
    underWay := w.underWay.drop (sched.arrives w.step)
    step := w.step + 1 }

/-- The server gets a request. -/
def Delayed.answer (w : Delayed σ) (request : List UInt8) : Delayed σ :=
  match w.server.bind fun srv => serve os srv request with
  | none              => { w with server := none, step := w.step + 1 }
  | some (reply, srv) =>
    { w with
      server := some srv
      underWay := w.underWay ++ if sched.lost w.step then [] else reply
      step := w.step + 1 }

/-- The line. -/
def delayedLink : Link (Delayed σ) where
  pending w := ((w.arrive sched).arrived, { w.arrive sched with arrived := [] })
  send bs w := (UInt32.ofNat bs.length, w.answer os sched bs)
  recv size w := ((w.arrive sched).arrived.take size,
    { w.arrive sched with arrived := (w.arrive sched).arrived.drop size })
  recv_le size w := List.length_take_le size (w.arrive sched).arrived

end Line

end Delays

end Alcor.Rfs

/-!
## The server's files and directories

`rfs_server_src/os_io_posix.c` over a disk that changes while the
server runs. What an `open` finds depends on when it is called, so a
file may disappear or become unreadable at any time; a directory is
listed as it was when it was opened.

Only what a listing needs is here in full: what is read from a file
and written to it is left to the disk.
-/

namespace Alcor.Rfs

open Lib (Mem Buf CStr)

/-- `DT_REG` of `dirent.h`. -/
def DT_REG : UInt8 := 8

/-- The longest name that `os_readdir` returns. -/
def RFS_MAX_FNAME_SIZE : Nat := 31

/-- An entry of a directory. -/
structure Dirent where
  /-- `d_name`. -/
  name : CStr
  /-- `d_type`. -/
  type : UInt8
  /-- The size of the file, when the entry is a regular file. -/
  file : Option Nat

/-- What the calls of the operating system find. The first argument is the number of `open` calls
before. -/
structure Disk where
  /-- `opendir`: the handle (0 for `NULL`) and the entries. -/
  opendir : List UInt8 → UInt32 × List Dirent
  /-- `open`: the descriptor and the size of the file, `none` for −1. -/
  «open» : Nat → List UInt8 → Int32 → Int32 → Option (Int32 × Nat)
  /-- `read`: what it returns and what it stores. -/
  read : Nat → Int32 → UInt32 → Int32 × List UInt8
  /-- It stores no more than it is asked for. -/
  read_le : ∀ t fd count, (read t fd count).2.length ≤ count.toNat
  /-- `write`. -/
  write : Nat → Int32 → List UInt8 → Int32
  /-- `closedir`. -/
  closedir : UInt32 → Int32

/-- The state of the operating system. -/
structure Posix where
  /-- The number of `open` calls so far. -/
  time : Nat := 0
  /-- The open files: their size and the position. -/
  files : Int32 → Option (Nat × Int) := fun _ => none
  /-- What is left to read of the open directories. -/
  streams : UInt32 → List Dirent := fun _ => []

/-- `os_readdir`, on what is left of a directory. Every type with the bit of `DT_REG` is taken. -/
def osReaddir : List Dirent → Option CStr × List Dirent
  | []          => (none, [])
  | ent :: rest =>
    if ent.type &&& DT_REG ≠ 0 then
      (some ⟨ent.name.bytes.take RFS_MAX_FNAME_SIZE,
        fun h => ent.name.nulFree (List.mem_of_mem_take h)⟩, rest)
    else osReaddir rest

/-- The position after a seek from a position in a file of some size, `none` for a bad
argument. -/
def seekTo (file : Nat × Int) (offset whence : Int32) : Option Int :=
  let start :=
    if whence = RFS_LSEEK_SET then some 0
    else if whence = RFS_LSEEK_CUR then some file.2
    else if whence = RFS_LSEEK_END then some (file.1 : Int)
    else none
  start.bind fun start => if start + offset.toInt < 0 then none else some (start + offset.toInt)

/-- `os_lseek`; the position is cut to 32 bits. -/
def osLseek (s : Posix) (fd offset whence : Int32) : Int32 × Posix :=
  match s.files fd with
  | none      => (-1, s)
  | some file =>
    match seekTo file offset whence with
    | none   => (-1, s)
    | some p => (Int32.ofInt p, { s with
        files := fun x => if x = fd then some (file.1, p) else s.files x })

/-- `os_open`. -/
def osOpen (disk : Disk) (path : List UInt8) (flags mode : Int32) (s : Posix) : Int32 × Posix :=
  match disk.open s.time path flags mode with
  | none            => (-1, { s with time := s.time + 1 })
  | some (fd, size) => (fd, { s with
      time := s.time + 1, files := fun x => if x = fd then some (size, 0) else s.files x })

/-- `os_close`. -/
def osClose (fd : Int32) (s : Posix) : Int32 × Posix :=
  if (s.files fd).isSome then (0, { s with files := fun x => if x = fd then none else s.files x })
  else (-1, s)

/-- `os_io_posix.c` on a disk. -/
def posix (disk : Disk) : Os Posix where
  «open» := osOpen disk
  write fd bs s := (disk.write s.time fd bs, s)
  read fd count s := (disk.read s.time fd count, s)
  read_le fd count s := disk.read_le s.time fd count
  close := osClose
  lseek fd offset whence s := osLseek s fd offset whence
  opendir path s :=
    let d := disk.opendir path
    (d.1, { s with streams := fun x => if x = d.1 then d.2 else s.streams x })
  readdir d s :=
    let ent := osReaddir (s.streams d)
    (ent.1, { s with streams := fun x => if x = d then ent.2 else s.streams x })
  closedir d s :=
    (disk.closedir d, { s with streams := fun x => if x = d then [] else s.streams x })

/-! ### Listings -/

/-- Calls of `rfsc_readdir` until one stores `NULL` for the name, at most `n`: the names and the
sizes. -/
def listDir {σ : Type} (link : Link σ) (d : UInt32) :
    Nat → Client σ → Option (List (List UInt8 × Nat) × Client σ)
  | 0,     _ => none
  | n + 1, c =>
    (rfscReaddir link c d).bind fun r =>
      match r.1 with
      | .entry (some name) size _ =>
        (stringAt r.2.buf name).bind fun text =>
          (listDir link d n r.2).map fun rest =>
          ((text, size.toNat) :: rest.1, rest.2)
      | _                         => some ([], r.2)

/-- The regular files of a directory, with their sizes. -/
def regularFiles (entries : List Dirent) : List (List UInt8 × Nat) :=
  entries.filterMap fun ent => ent.file.map fun size => (ent.name.bytes, size)

end Alcor.Rfs

/-!
## Transfers in calls of the client

`rfs_write_r` and `rfs_read_r` of `src/remotefs/elua_rfs.c`, over the
client of `Alcor.Rfs.Client` and its packets. They split a transfer
into calls whose packets fit into the RFS buffer of
`2 ^ RFS_BUFFER_SIZE` bytes. `none` is an access outside a buffer in
one of the calls.

`Os.recorded` is an operating system of the server that keeps a record
of the writes and reads it is asked for. `OneTransfer` says that such
a record is as good as one transfer.
-/

namespace Alcor.Rfs

open Lib (Mem sub32)
open Alcor.Eluarpc

/-! ### The loops -/

/-- `RFS_REAL_BUFFER_SIZE` where it is compared with a `size_t`. -/
def realBufferSize (rfsBufferSize : Nat) : Nat :=
  sub32 (2 ^ rfsBufferSize) ELUARPC_WRITE_REQUEST_EXTRA

/-- How much the next call transfers of `len` bytes. -/
def chunk (rfsBufferSize len : Nat) : Nat :=
  if realBufferSize rfsBufferSize < len then realBufferSize rfsBufferSize else len

namespace Client

variable {σ : Type} (link : Link σ) (rfsBufferSize : Nat) (fd : Int32)

/-- The variables of `rfs_write_r`: the bytes from `p` on, the total, and the client. -/
structure Writing (σ : Type) where
  rest : List UInt8
  total : Int32
  client : Client σ

/-- One pass of the loop of `rfs_write_r`. -/
def rfsWriteRBody (w : Writing σ) : Option (Int32 × Client σ) ⊕ Writing σ :=
  if w.rest.length = 0 then .inl (some (w.total, w.client))
  else
    let towrite := chunk rfsBufferSize w.rest.length
    match rfscWrite link w.client fd (w.rest.take towrite) (UInt32.ofNat towrite) with
    | some (.int res, c) =>
      if res = -1 then .inl (some (w.total, c))
      -- `towrite` is unsigned, so both are compared as unsigned numbers
      else if res.toUInt32 < UInt32.ofNat towrite then .inl (some (w.total + res, c))
      else .inr ⟨w.rest.drop towrite, w.total + res, c⟩
    | _ => .inl none

/-- `rfs_write_r` of the bytes at `ptr`. -/
def rfsWriteR (ptr : List UInt8) (c : Client σ) : Option (Int32 × Client σ) :=
  (Lib.Loop.run (rfsWriteRBody link rfsBufferSize fd) (ptr.length + 1) ⟨ptr, 0, c⟩).join

/-- The variables of `rfs_read_r`: the memory of the caller, `p`, the length that is left, the
total, and the client. -/
structure Reading (σ : Type) where
  mem : Mem
  p : Nat
  len : Nat
  total : Int32
  client : Client σ

/-- The memory after the bytes from `p` on were replaced by those of `m`. -/
def replaceFrom (mem : Mem) (p : Nat) (m : Mem) : Mem := fun x => if x < p then mem x else m (x - p)

/-- One pass of the loop of `rfs_read_r`. -/
def rfsReadRBody (r : Reading σ) : Option (Int32 × Mem × Client σ) ⊕ Reading σ :=
  if r.len = 0 then .inl (some (r.total, r.mem, r.client))
  else
    let toread := chunk rfsBufferSize r.len
    match rfscRead link r.client fd (fun x => r.mem (r.p + x)) (UInt32.ofNat toread) with
    | some (.int res, m, c) =>
      let mem := replaceFrom r.mem r.p m
      if res = -1 then .inl (some (r.total, mem, c))
      else if res.toUInt32 < UInt32.ofNat toread then .inl (some (r.total + res, mem, c))
      else .inr ⟨mem, r.p + toread, r.len - toread, r.total + res, c⟩
    | _ => .inl none

/-- `rfs_read_r` of `len` bytes to the address `ptr`. -/
def rfsReadR (mem : Mem) (ptr len : Nat) (c : Client σ) : Option (Int32 × Mem × Client σ) :=
  (Lib.Loop.run (rfsReadRBody link rfsBufferSize fd) (len + 1) ⟨mem, ptr, len, 0, c⟩).join

end Client

/-! ### What the server does -/

/-- A write or a read that the operating system was asked for: the descriptor, the number of bytes
asked for, the result, and the bytes that it got or stored. -/
structure Transfer where
  fd : Int32
  asked : Nat
  result : Int32
  data : List UInt8

/-- The bytes that were transferred; the result −1 stands for none. -/
def Transfer.moved (t : Transfer) : List UInt8 := t.data.take t.result.toInt.toNat

/-- An operating system that keeps a record of its transfers. -/
def Os.recorded {σ : Type} (os : Os σ) : Os (σ × List Transfer) where
  «open» path flags mode s :=
    ((os.open path flags mode s.1).1, (os.open path flags mode s.1).2, s.2)
  write fd bs s :=
    ((os.write fd bs s.1).1, (os.write fd bs s.1).2,
      s.2 ++ [⟨fd, bs.length, (os.write fd bs s.1).1, bs⟩])
  read fd count s :=
    ((os.read fd count s.1).1, (os.read fd count s.1).2,
      s.2 ++ [⟨fd, count.toNat, (os.read fd count s.1).1.1, (os.read fd count s.1).1.2⟩])
  read_le fd count s := os.read_le fd count s.1
  close fd s := ((os.close fd s.1).1, (os.close fd s.1).2, s.2)
  lseek fd offset whence s :=
    ((os.lseek fd offset whence s.1).1, (os.lseek fd offset whence s.1).2, s.2)
  opendir path s := ((os.opendir path s.1).1, (os.opendir path s.1).2, s.2)
  readdir d s := ((os.readdir d s.1).1, (os.readdir d s.1).2, s.2)
  closedir d s := ((os.closedir d s.1).1, (os.closedir d s.1).2, s.2)

/-- The transfers are as good as one of `len` bytes, which moves `bytes`. -/
structure OneTransfer (fd : Int32) (len : Nat) (bytes : List UInt8) (ts : List Transfer) :
    Prop where
  /-- All of them are transfers of the file. -/
  same : ∀ t ∈ ts, t.fd = fd
  /-- The bytes are moved in order, without gap or repetition. -/
  order : (ts.map Transfer.moved).flatten = bytes
  /-- All but the last are in full. -/
  full : ∀ t ∈ ts.dropLast, t.moved.length = t.asked
  /-- Nothing is left, unless the last one was short. -/
  ends : bytes.length = len ∨ ∃ t, ts.getLast? = some t ∧ t.moved.length < t.asked

/-- The documented result of `write`: −1, or how many of the bytes were written. -/
def WriteResult {σ : Type} (os : Os σ) : Prop := ∀ fd bs s,
  (os.write fd bs s).1 = -1 ∨
    (0 ≤ (os.write fd bs s).1.toInt ∧ (os.write fd bs s).1.toInt ≤ bs.length)

end Alcor.Rfs
