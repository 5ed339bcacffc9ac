import Alcor.Rfs.Transports

/-!
# `Alcor.Rfs.Server`: the server of the remote file system

`rfs_server_src/server.c`. A request stands in `rfs_buffer`. Its
handler reads it, calls the operating system and writes the response
over it. The handlers have this in common (`handler`) and differ in
the formats and in what they ask of the operating system, which is an
`Os`.

A request is read as an object of as many bytes as were received. An
access behind it, behind `rfs_buffer`, or outside `server_fullname` is
`none`.
-/

set_option autoImplicit false

namespace Alcor.Rfs

open Lib (Mem Buf CStr)
open Alcor.Eluarpc

def PLATFORM_PATH_SEPARATOR : UInt8 := 0x2F
def PLATFORM_MAX_FNAME_LEN : Nat := 2048

/-- What the server asks of its operating system, through `os_io_posix.c`. -/
structure Os (σ : Type) where
  /-- `os_open` of a path, with flags and mode. -/
  «open» : List UInt8 → Int32 → Int32 → σ → Int32 × σ
  /-- `os_write` of some bytes. -/
  write : Int32 → List UInt8 → σ → Int32 × σ
  /-- `os_read` of at most as many bytes: what it returns and what it stores. -/
  read : Int32 → UInt32 → σ → (Int32 × List UInt8) × σ
  /-- No more is stored than asked for. -/
  read_le : ∀ fd count s, (read fd count s).1.2.length ≤ count.toNat
  /-- `os_close`. -/
  close : Int32 → σ → Int32 × σ
  /-- `os_lseek`. -/
  lseek : Int32 → Int32 → Int32 → σ → Int32 × σ
  /-- `os_opendir`. -/
  opendir : List UInt8 → σ → UInt32 × σ
  /-- `os_readdir`: the name of an entry, `none` for `NULL`. -/
  readdir : UInt32 → σ → Option CStr × σ
  /-- `os_closedir`. -/
  closedir : UInt32 → σ → Int32 × σ

/-- The server with its operating system. -/
structure Server (σ : Type) where
  /-- `server_basedir`. -/
  basedir : CStr
  /-- The contents of `rfs_buffer`. -/
  mem : Mem
  /-- The number of bytes received of the request. -/
  received : Nat
  /-- The operating system. -/
  os : σ

/-! ### Names -/

/-- The text of the C string at `a`; `none` when no terminator is found in the object. -/
def stringAt (b : Buf) (a : Nat) : Option (List UInt8) :=
  let text := (b.mem.read a (b.size - a)).takeWhile (· ≠ 0)
  if text.length < b.size - a then some text else none

/-- The text of a string in a request; `NULL` is as good as an empty one. -/
def nameAt (b : Buf) : Option Nat → Option (List UInt8)
  | none   => some []
  | some a => stringAt b a

/-- `strncat` into `server_fullname`, with `PLATFORM_MAX_FNAME_LEN`: this many characters at most
are appended, and a terminator. -/
def strncatFullname (s src : List UInt8) : Option (List UInt8) :=
  let s := s ++ src.take PLATFORM_MAX_FNAME_LEN
  if s.length ≤ PLATFORM_MAX_FNAME_LEN then some s else none

/-- The real name of a file in `server_fullname`. -/
def serverFullname (basedir name : List UInt8) : Option (List UInt8) :=
  let start := basedir.take PLATFORM_MAX_FNAME_LEN
  if name.isEmpty then some start
  else
    -- `none` stands for the character before `server_fullname`
    start.getLast?.bind fun last =>
      if last ≠ PLATFORM_PATH_SEPARATOR then
        (strncatFullname start [PLATFORM_PATH_SEPARATOR]).bind fun s => strncatFullname s name
      else strncatFullname start name

/-! ### Handlers -/

section Handlers
variable {σ : Type} (os : Os σ)

/-- The request. -/
def Server.request (srv : Server σ) : Buf := ⟨srv.mem, srv.received⟩

/-- What all handlers do: read the request, execute it, write the response. The result says whether
the request was read. -/
def handler (format : List Specifier) (srv : Server σ)
    (body : Outs format → Option (List Item × Server σ)) : Option (Bool × Server σ) :=
  (eluarpcGenRead srv.request format).bind fun r =>
    if r.1 then some (false, srv)
    else
      (body r.2).bind fun done =>
        (eluarpcGenWrite (rfsBuffer done.2.mem) done.1).map fun buf =>
          (true, { done.2 with mem := buf.mem })

def serverOpen (srv : Server σ) : Option (Bool × Server σ) :=
  handler openRequestFormat srv fun vs =>
    (nameAt srv.request vs.2.1.1).bind fun filename =>
      (serverFullname srv.basedir.bytes filename).map fun fullname =>
        let fd := os.open fullname vs.2.2.1 vs.2.2.2.1 srv.os
        (openResponse fd.1, { srv with os := fd.2 })

/-- `server_write`. The operating system reads the data where it is in the packet. -/
def serverWrite (srv : Server σ) : Option (Bool × Server σ) :=
  handler writeRequestFormat srv fun vs =>
    let buf := vs.2.2.1.1.getD 0
    let count := vs.2.2.1.2.toNat
    if buf + count ≤ srv.received then
      let res := os.write vs.2.1 (srv.mem.read buf count) srv.os
      some (writeResponse res.1.toUInt32, { srv with os := res.2 })
    else none

/-- `server_read`. The operating system stores the data where it belongs in the response. -/
def serverRead (srv : Server σ) : Option (Bool × Server σ) :=
  handler readRequestFormat srv fun vs =>
    let res := os.read vs.2.1 vs.2.2.1 srv.os
    -- it may store as much as it was asked for
    if ELUARPC_READ_BUF_OFFSET + vs.2.2.1.toNat ≤ RFS_BUFFER_BYTES then
      some (readResponse res.1.1.toUInt32, { srv with
        mem := srv.mem.store ELUARPC_READ_BUF_OFFSET res.1.2, os := res.2 })
    else none

def serverClose (srv : Server σ) : Option (Bool × Server σ) :=
  handler closeRequestFormat srv fun vs =>
    let fd := os.close vs.2.1 srv.os
    some (closeResponse fd.1, { srv with os := fd.2 })

def serverLseek (srv : Server σ) : Option (Bool × Server σ) :=
  handler lseekRequestFormat srv fun vs =>
    let offset := os.lseek vs.2.1 vs.2.2.1 vs.2.2.2.1 srv.os
    some (lseekResponse offset.1, { srv with os := offset.2 })

def serverOpendir (srv : Server σ) : Option (Bool × Server σ) :=
  handler opendirRequestFormat srv fun vs =>
    (nameAt srv.request vs.2.1.1).bind fun name =>
      (serverFullname srv.basedir.bytes name).map fun fullname =>
        let d := os.opendir fullname srv.os
        (opendirResponse d.1, { srv with os := d.2 })

/-- The size of a file, by opening it; `none` when the result of `os_open` is 0. -/
def fileSize (s : σ) (fullname : List UInt8) : Option UInt32 × σ :=
  let fd := os.open fullname RFS_OPEN_FLAG_RDONLY 0 s
  if fd.1 ≠ 0 then
    let fsize := os.lseek fd.1 0 RFS_LSEEK_END fd.2
    (some fsize.1.toUInt32, (os.close fd.1 fsize.2).2)
  else (none, fd.2)

def serverReaddir (srv : Server σ) : Option (Bool × Server σ) :=
  handler readdirRequestFormat srv fun vs =>
    let ent := os.readdir vs.2.1 srv.os
    match ent.1 with
    | none      => some (readdirResponse none 0 0, { srv with os := ent.2 })
    | some name =>
      -- the name is looked up in the base directory
      (serverFullname srv.basedir.bytes name.bytes).map fun fullname =>
        let fsize := fileSize os ent.2 fullname
        (readdirResponse (fsize.1.map fun _ => name) (fsize.1.getD 0) 0,
          { srv with os := fsize.2 })

/-- `server_closedir`. The response is the request's own argument. -/
def serverClosedir (srv : Server σ) : Option (Bool × Server σ) :=
  handler closedirRequestFormat srv fun vs =>
    let res := os.closedir vs.2.1 srv.os
    some (closedirResponse vs.2.1.toInt32, { srv with os := res.2 })

/-- `server_execute_request`: whether the result is `SERVER_OK`. -/
def serverExecuteRequest (srv : Server σ) : Option (Bool × Server σ) :=
  (eluarpcGetRequestId srv.request).bind fun r =>
    if r.1 then some (false, srv)
    else if r.2 = RFS_OP_OPEN then serverOpen os srv
    else if r.2 = RFS_OP_WRITE then serverWrite os srv
    else if r.2 = RFS_OP_READ then serverRead os srv
    else if r.2 = RFS_OP_CLOSE then serverClose os srv
    else if r.2 = RFS_OP_LSEEK then serverLseek os srv
    else if r.2 = RFS_OP_OPENDIR then serverOpendir os srv
    else if r.2 = RFS_OP_READDIR then serverReaddir os srv
    else if r.2 = RFS_OP_CLOSEDIR then serverClosedir os srv
    else some (false, srv)

/-- The server with a request in `rfs_buffer`. -/
def Server.receive (srv : Server σ) (request : List UInt8) : Server σ :=
  { srv with mem := srv.mem.store 0 request, received := request.length }

/-- One pass of the loop of `main`: the server gets a request and sends what is in `rfs_buffer`
after it was executed, whatever the result is. There are no bytes to send without a length in front. -/
def serve (srv : Server σ) (request : List UInt8) : Option (List UInt8 × Server σ) :=
  if request.length ≤ RFS_BUFFER_BYTES then
    (serverExecuteRequest os (srv.receive request)).bind fun r =>
      (eluarpcGetPacketSize (rfsBuffer r.2.mem)).bind fun size =>
        if size.1 then some ([], r.2)
        else if size.2.toNat ≤ RFS_BUFFER_BYTES then
          some (r.2.mem.read 0 size.2.toNat, r.2)
        else none
  else none

end Handlers

end Alcor.Rfs
