import Alcor.Proofs.Rfs.Listing

/-!
# `Alcor.Proofs.Rfs.Refinement`: remote calls and local ones

`localCall` is what the operating system of the server does for a
call. Over a reliable line a call gives the same, with two exceptions.

* `refines_open`, `refines_write`, `refines_lseek`, `refines_close` and
  `refines_opendir` are the calls without one.
* `refines_closedir_iff`: the result of `rfsc_closedir` is the directory
  that was to be closed, whatever `os_closedir` returns.
* `refines_read_iff`: when `os_read` fails, its −1 is the length of the
  data in the response, so the server writes over the packet
  (`serve_failed`) and the client reads outside of what it gets
  (`read_failed`).
* `remote_iff` is about every call.
-/

set_option autoImplicit false

namespace Alcor.Proofs.Rfs

open Lib (Mem Buf CStr Writer)
open Alcor.Eluarpc Alcor.Rfs
open Alcor.Proofs.Eluarpc

variable {fd : Int32} {count : UInt32} {buf : Mem}

section Refinement
variable {σ : Type} (os : Os σ)

/-- `read` returns −1, or how many bytes it has stored. -/
def ReadResult : Prop := ∀ fd count s,
  (os.read fd count s).1.1 = -1 ∨
    (os.read fd count s).1.1 = (UInt32.ofNat (os.read fd count s).1.2.length).toInt32 ∧
      (os.read fd count s).1.1 ≠ -1

/-- What the operating system does for a call: its result, the data that it has read, and its state.
It has nothing that is like `rfsc_readdir`. -/
def localCall (basedir : CStr) (s : σ) : Call → Option (Value × List UInt8 × σ)
  | .open pathname flags mode =>
    (serverFullname basedir.bytes pathname.bytes).map fun path =>
      (.int (os.open path flags mode s).1, [], (os.open path flags mode s).2)
  | .write fd buf             => some (.int (os.write fd buf s).1, [], (os.write fd buf s).2)
  | .read fd _ count          =>
    some (.int (os.read fd count s).1.1, (os.read fd count s).1.2, (os.read fd count s).2)
  | .lseek fd offset whence   =>
    let whence := osLseekSysWhenceToRfsWhence whence
    some (.int (os.lseek fd offset whence s).1, [], (os.lseek fd offset whence s).2)
  | .close fd                 => some (.int (os.close fd s).1, [], (os.close fd s).2)
  | .opendir name             =>
    (serverFullname basedir.bytes name.bytes).map fun path =>
      (.word (os.opendir path s).1, [], (os.opendir path s).2)
  | .readdir _                => none
  | .closedir d               => some (.int (os.closedir d s).1, [], (os.closedir d s).2)

/-- The call gives what it gives locally, and its data, and the line is ready again. -/
def Refines (c : Client (Remote σ)) (basedir : CStr) (s : σ) (call : Call) : Prop :=
  ∀ v data s', localCall os basedir s call = some (v, data, s') →
    ∃ c', Ready c' basedir s' ∧
      match call with
      | .read fd buf count =>
        rfscRead (remoteLink os) c fd buf count = some (v, buf.store 0 data, c')
      | call               => call.run (remoteLink os) c = some (v, c')

/-- The bytes that the packets of a call need. -/
def Call.room : Call → Nat
  | .open pathname _ _ => pathname.bytes.length + 35
  | .write _ buf       => buf.length + 29
  | .read _ _ count    => max 28 (count.toNat + 23)
  | .lseek _ _ _       => 33
  | .opendir name      => name.bytes.length + 25
  | _                  => 23

/-- The packets of a call fit into the buffers of both ends. -/
def Fits (c : Client (Remote σ)) (call : Call) : Prop :=
  Call.room call ≤ c.buf.size ∧ Call.room call ≤ RFS_BUFFER_BYTES ∧ c.buf.size < 65536

/-- `os_closedir` gives what its argument is, and `os_read` does not fail. -/
def Faithful (s : σ) : Call → Prop
  | .read fd _ count => (os.read fd count s).1.1 ≠ -1
  | .closedir d      => (os.closedir d s).1 = d.toInt32
  | _                => True

variable {os} {c : Client (Remote σ)} {basedir : CStr} {s : σ}

theorem room_ge (call : Call) : 22 ≤ Call.room call := by
  cases call <;> simp only [Call.room] <;> omega

/-- A response with one word fits. -/
theorem fits_word {call : Call} (hfits : Fits c call) {response : List Item}
    (hsize : packetSize response = 22) :
    packetSize response ≤ RFS_BUFFER_BYTES ∧ packetSize response ≤ c.buf.size := by
  have hroom := room_ge call
  obtain ⟨hclient, hserver, -⟩ := hfits
  omega

/-- The packet of a request is as long as its room. -/
theorem request_fits {call : Call} (hfits : Fits c call) :
    packetSize call.request ≤ c.buf.size ∧ packetSize call.request ≤ RFS_BUFFER_BYTES := by
  obtain ⟨hclient, hserver, hlt⟩ := hfits
  have hsize : packetSize call.request ≤ Call.room call := by
    cases call with
    | «open» name flags mode =>
      have hlen : (UInt32.ofNat (name.bytes.length + 1)).toNat = name.bytes.length + 1 :=
        UInt32.toNat_ofNat_of_lt' (by simp only [Call.room] at hclient; change _ < 2 ^ 32; omega)
      simp only [packetSize_eq, Call.request, openRequest, stringItem, List.map_cons,
        List.map_nil, List.sum_cons, List.sum_nil, Item.size, hlen, ELUARPC_PTR_HEADER_SIZE,
        Call.room]
      omega
    | write fd buf =>
      have hlen : (UInt32.ofNat buf.length).toNat = buf.length :=
        UInt32.toNat_ofNat_of_lt' (by simp only [Call.room] at hclient; change _ < 2 ^ 32; omega)
      simp only [packetSize_eq, Call.request, writeRequest, List.map_cons, List.map_nil,
        List.sum_cons, List.sum_nil, Item.size, hlen, ELUARPC_PTR_HEADER_SIZE, Call.room]
      omega
    | read fd buf count =>
      simp only [packetSize_eq, Call.request, readRequest, List.map_cons, List.map_nil,
        List.sum_cons, List.sum_nil, Item.size, Call.room]
      omega
    | opendir name =>
      have hlen : (UInt32.ofNat (name.bytes.length + 1)).toNat = name.bytes.length + 1 :=
        UInt32.toNat_ofNat_of_lt' (by simp only [Call.room] at hclient; change _ < 2 ^ 32; omega)
      simp only [packetSize_eq, Call.request, opendirRequest, stringItem, List.map_cons,
        List.map_nil, List.sum_cons, List.sum_nil, Item.size, hlen, ELUARPC_PTR_HEADER_SIZE,
        Call.room]
      omega
    | lseek fd offset whence => exact Nat.le_refl 33
    | close fd => exact Nat.le_refl 23
    | readdir d => exact Nat.le_refl 23
    | closedir d => exact Nat.le_refl 23
  omega

/-- A call whose response is one word. -/
theorem remote_word (hready : Ready c basedir s) (call : Call) (hfits : Fits c call)
    (response : List Item) (hsize : packetSize response = 22)
    (hsrc : ∀ it ∈ response, it.Sourced) (s' : σ)
    {body : Server σ → Outs (call.request.map Item.specifier) → Option (List Item × Server σ)}
    (hhandler : ∀ srv, Call.handler os call srv =
      handler (call.request.map Item.specifier) srv (body srv))
    (hbody : ∀ srv : Server σ, srv.basedir = basedir → srv.os = s →
      srv.received = packetSize call.request →
      ∀ vs, AllDelivered srv.mem (packetSize call.request) call.request vs →
        body srv vs = some (response, ⟨basedir, srv.mem, srv.received, s'⟩)) :
    ∃ c' vs, exchange (remoteLink os) c call.request (response.map Item.specifier) =
        some (some vs, c') ∧ Ready c' basedir s' ∧ c'.buf.size = c.buf.size ∧
      AllDelivered c'.buf.mem (packetSize response) response vs := by
  obtain ⟨hroom, hlong⟩ := request_fits hfits
  obtain ⟨hserver, hback⟩ := fits_word hfits hsize
  obtain ⟨c', vs, heq, hready', hsize', -, hvalue⟩ := remote_call os call response s' hhandler
    hready hroom hlong hfits.2.2 hsrc hserver hback
    (fun srv hbase hos hreceived => ⟨srv.mem, hbody srv hbase hos hreceived⟩)
  exact ⟨c', vs, heq, hready', hsize', hvalue⟩

/-- `open` gives what it gives locally. -/
theorem refines_open (hready : Ready c basedir s) {name : CStr} {flags mode : Int32}
    (hfits : Fits c (.open name flags mode)) : Refines os c basedir s (.open name flags mode) := by
  intro v data s' hlocal
  obtain ⟨path, hpath, hlocal⟩ := Option.map_eq_some_iff.mp hlocal
  have hlen : name.bytes.length + 1 < 2 ^ 32 := by
    have hroom := hfits.1
    have hlt := hfits.2.2
    simp only [Call.room] at hroom
    omega
  obtain ⟨c', vs, heq, hready', -, -, hvalue, -⟩ := remote_word hready (.open name flags mode) hfits
    (openResponse (os.open path flags mode s).1) (by simp [packetSize_eq, openResponse, Item.size])
    (by rintro it (_ | ⟨_, _ | ⟨_, ⟨⟩⟩⟩) <;> trivial) (os.open path flags mode s).2
    (fun srv => by rw [Call.handler, serverOpen]; rfl)
    (fun srv hbase hos hreceived vs hvs => by
      obtain ⟨-, hname, hflags, hmode, -⟩ := hvs
      have hflags : vs.2.2.1 = flags := hflags
      have hmode : vs.2.2.2.1 = mode := hmode
      obtain ⟨a, ha, htext⟩ := stringAt_of_delivered hlen hname (Nat.le_refl _)
      rw [Server.request, hreceived, ha, nameAt, htext, Option.bind_some, hbase, hpath, ← hos,
        hflags, hmode]
      rfl)
  obtain ⟨rfl, rfl, rfl⟩ : v = .int (os.open path flags mode s).1 ∧ data = [] ∧
      s' = (os.open path flags mode s).2 := by
    simpa [eq_comm] using hlocal
  have hvalue : vs.2.1 = (os.open path flags mode s).1 := hvalue
  refine ⟨c', hready', ?_⟩
  rw [← hvalue]
  exact rfsc_of_exchange heq _ _

/-- A write gives the client what the operating system gives the server. -/
theorem remote_write (hready : Ready c basedir s) {buf : List UInt8}
    (hfits : Fits c (.write fd buf)) :
    ∃ c', Ready c' basedir (os.write fd buf s).2 ∧ c'.buf.size = c.buf.size ∧
      rfscWrite (remoteLink os) c fd buf (UInt32.ofNat buf.length) =
        some (.int (os.write fd buf s).1, c') := by
  have hlen : (UInt32.ofNat buf.length).toNat = buf.length := by
    have hroom := hfits.1
    have hlt := hfits.2.2
    simp only [Call.room] at hroom
    exact UInt32.toNat_ofNat_of_lt' (show buf.length < 2 ^ 32 by omega)
  obtain ⟨c', vs, heq, hready', hsize, -, hvalue, -⟩ := remote_word hready (.write fd buf) hfits
    (writeResponse (os.write fd buf s).1.toUInt32)
    (by simp [packetSize_eq, writeResponse, Item.size])
    (by rintro it (_ | ⟨_, _ | ⟨_, ⟨⟩⟩⟩) <;> trivial) (os.write fd buf s).2
    (fun srv => by rw [Call.handler, serverWrite]; rfl)
    (fun srv hbase hos hreceived vs hvs => by
      obtain ⟨-, hfd, ⟨hcount, hdata⟩, -⟩ := hvs
      have hfd : vs.2.1 = fd := hfd
      have hcount : vs.2.2.1.2.toNat = buf.length := by
        rw [show vs.2.2.1.2 = UInt32.ofNat buf.length from hcount, hlen]
      -- the data is in the packet, if there is some
      have hbytes : vs.2.2.1.1.getD 0 + buf.length ≤ srv.received ∧
          srv.mem.read (vs.2.2.1.1.getD 0) buf.length = buf := by
        rw [DataDelivered, hlen] at hdata
        split at hdata
        · rename_i hzero
          obtain rfl := List.length_eq_zero_iff.mp hzero
          have hnone : vs.2.2.1.1 = none := hdata
          rw [hnone]
          exact ⟨Nat.zero_le _, rfl⟩
        · obtain ⟨a, ha, hinside, hread⟩ := hdata
          have ha : vs.2.2.1.1 = some a := ha
          have hread := hread buf rfl
          rw [List.take_length] at hread
          rw [ha, hreceived]
          exact ⟨hinside, hread⟩
      simp only [hcount, hfd, if_pos hbytes.1, hbytes.2, hos]
      rw [← hbase])
  have hvalue : vs.2.1 = (os.write fd buf s).1.toUInt32 := hvalue
  have hint : vs.2.1.toInt32 = (os.write fd buf s).1 := by rw [hvalue]; rfl
  refine ⟨c', hready', hsize, ?_⟩
  rw [← hint]
  exact rfsc_of_exchange heq _ _

theorem refines_write (hready : Ready c basedir s) {buf : List UInt8}
    (hfits : Fits c (.write fd buf)) : Refines os c basedir s (.write fd buf) := by
  intro v data s' hlocal
  obtain ⟨rfl, rfl, rfl⟩ : v = .int (os.write fd buf s).1 ∧ data = [] ∧
      s' = (os.write fd buf s).2 := by
    simpa [localCall, eq_comm] using hlocal
  obtain ⟨c', hready', -, hrun⟩ := remote_write hready hfits
  exact ⟨c', hready', hrun⟩

/-- `lseek` does. -/
theorem refines_lseek (hready : Ready c basedir s) {offset whence : Int32}
    (hfits : Fits c (.lseek fd offset whence)) :
    Refines os c basedir s (.lseek fd offset whence) := by
  intro v data s' hlocal
  obtain ⟨rfl, rfl, rfl⟩ :
      v = .int (os.lseek fd offset (osLseekSysWhenceToRfsWhence whence) s).1 ∧ data = [] ∧
      s' = (os.lseek fd offset (osLseekSysWhenceToRfsWhence whence) s).2 := by
    simpa [localCall, eq_comm] using hlocal
  obtain ⟨c', vs, heq, hready', -, -, hvalue, -⟩ := remote_word hready (.lseek fd offset whence)
    hfits
    (lseekResponse (os.lseek fd offset (osLseekSysWhenceToRfsWhence whence) s).1)
    (by simp [packetSize_eq, lseekResponse, Item.size])
    (by rintro it (_ | ⟨_, _ | ⟨_, ⟨⟩⟩⟩) <;> trivial)
    (os.lseek fd offset (osLseekSysWhenceToRfsWhence whence) s).2
    (fun srv => by rw [Call.handler, serverLseek]; rfl)
    (fun srv hbase hos _ vs hvs => by
      obtain ⟨-, hfd, hoffset, hwhence, -⟩ := hvs
      have hfd : vs.2.1 = fd := hfd
      have hoffset : vs.2.2.1 = offset := hoffset
      have hwhence : vs.2.2.2.1 = osLseekSysWhenceToRfsWhence whence := hwhence
      simp only [hfd, hoffset, hwhence, hos]
      rw [← hbase])
  have hvalue : vs.2.1 = (os.lseek fd offset (osLseekSysWhenceToRfsWhence whence) s).1 := hvalue
  refine ⟨c', hready', ?_⟩
  rw [← hvalue]
  exact rfsc_of_exchange heq _ _

/-- `close` does. -/
theorem refines_close (hready : Ready c basedir s) (hfits : Fits c (.close fd)) :
    Refines os c basedir s (.close fd) := by
  intro v data s' hlocal
  obtain ⟨rfl, rfl, rfl⟩ : v = .int (os.close fd s).1 ∧ data = [] ∧ s' = (os.close fd s).2 := by
    simpa [localCall, eq_comm] using hlocal
  obtain ⟨c', vs, heq, hready', -, -, hvalue, -⟩ := remote_word hready (.close fd) hfits
    (closeResponse (os.close fd s).1) (by simp [packetSize_eq, closeResponse, Item.size])
    (by rintro it (_ | ⟨_, _ | ⟨_, ⟨⟩⟩⟩) <;> trivial) (os.close fd s).2
    (fun srv => by rw [Call.handler, serverClose]; rfl)
    (fun srv hbase hos _ vs hvs => by
      have hfd : vs.2.1 = fd := hvs.2.1
      simp only [hfd, hos]
      rw [← hbase])
  have hvalue : vs.2.1 = (os.close fd s).1 := hvalue
  refine ⟨c', hready', ?_⟩
  rw [← hvalue]
  exact rfsc_of_exchange heq _ _

/-- `opendir` does. -/
theorem refines_opendir (hready : Ready c basedir s) {name : CStr}
    (hfits : Fits c (.opendir name)) : Refines os c basedir s (.opendir name) := by
  intro v data s' hlocal
  obtain ⟨path, hpath, hlocal⟩ := Option.map_eq_some_iff.mp hlocal
  obtain ⟨rfl, rfl, rfl⟩ : v = .word (os.opendir path s).1 ∧ data = [] ∧
      s' = (os.opendir path s).2 := by
    simpa [eq_comm] using hlocal
  have hlen : name.bytes.length + 1 < 2 ^ 32 := by
    have hroom := hfits.1
    have hlt := hfits.2.2
    simp only [Call.room] at hroom
    omega
  obtain ⟨c', vs, heq, hready', -, -, hvalue, -⟩ := remote_word hready (.opendir name) hfits
    (opendirResponse (os.opendir path s).1) (by simp [packetSize_eq, opendirResponse, Item.size])
    (by rintro it (_ | ⟨_, _ | ⟨_, ⟨⟩⟩⟩) <;> trivial) (os.opendir path s).2
    (fun srv => by rw [Call.handler, serverOpendir]; rfl)
    (fun srv hbase hos hreceived vs hvs => by
      obtain ⟨-, hname, -⟩ := hvs
      obtain ⟨a, ha, htext⟩ := stringAt_of_delivered hlen hname (Nat.le_refl _)
      rw [Server.request, hreceived, ha, nameAt, htext, Option.bind_some, hbase, hpath, ← hos]
      rfl)
  have hvalue : vs.2.1 = (os.opendir path s).1 := hvalue
  refine ⟨c', hready', ?_⟩
  rw [← hvalue]
  exact rfsc_of_exchange heq _ _

variable (os) in
/-- The client gets back what it has closed. -/
theorem remote_closedir (hready : Ready c basedir s) {d : UInt32} (hfits : Fits c (.closedir d)) :
    ∃ c', Ready c' basedir (os.closedir d s).2 ∧
      rfscClosedir (remoteLink os) c d = some (.int d.toInt32, c') := by
  obtain ⟨c', vs, heq, hready', -, -, hvalue, -⟩ := remote_word hready (.closedir d) hfits
    (closedirResponse d.toInt32) (by simp [packetSize_eq, closedirResponse, Item.size])
    (by rintro it (_ | ⟨_, _ | ⟨_, ⟨⟩⟩⟩) <;> trivial) (os.closedir d s).2
    (fun srv => by rw [Call.handler, serverClosedir]; rfl)
    (fun srv hbase hos _ vs hvs => by
      have hd : vs.2.1 = d := hvs.2.1
      simp only [hd, hos]
      rw [← hbase])
  have hvalue : vs.2.1 = d.toInt32 := hvalue
  refine ⟨c', hready', ?_⟩
  rw [← hvalue]
  exact rfsc_of_exchange heq _ _

theorem refines_closedir_iff (hready : Ready c basedir s) {d : UInt32}
    (hfits : Fits c (.closedir d)) :
    Refines os c basedir s (.closedir d) ↔ (os.closedir d s).1 = d.toInt32 := by
  obtain ⟨c', hready', hcall⟩ := remote_closedir os hready hfits
  constructor
  · intro h
    obtain ⟨c₁, -, hrun⟩ := h _ _ _ rfl
    have hrun : rfscClosedir (remoteLink os) c d = some (.int (os.closedir d s).1, c₁) := hrun
    rw [hcall, Option.some.injEq, Prod.mk.injEq, Value.int.injEq] at hrun
    exact hrun.1.symm
  · intro h v data s' hlocal
    obtain ⟨rfl, rfl, rfl⟩ : v = .int (os.closedir d s).1 ∧ data = [] ∧
        s' = (os.closedir d s).2 := by
      simpa [localCall, eq_comm] using hlocal
    refine ⟨c', hready', ?_⟩
    rw [h]
    exact hcall

/-! ### Reading -/

/-- The response to a read, with its data. -/
def dataResponse (data : List UInt8) (n : UInt32) : List Item := [.r RFS_OP_READ, .p (some data) n]

/-- The data is in the packet already. -/
theorem packetMem_read {m : Mem} {data : List UInt8} {n : UInt32}
    (h : m.read ELUARPC_READ_BUF_OFFSET n.toNat = data.take n.toNat) :
    packetMem m (readResponse n) = packetMem m (dataResponse data n) := by
  have hat : ITEMS_OFFSET + Item.size (.r RFS_OP_READ) + ELUARPC_PTR_HEADER_SIZE =
      ELUARPC_READ_BUF_OFFSET := rfl
  have hwire : itemsWire m ITEMS_OFFSET (readResponse n) =
      itemsWire m ITEMS_OFFSET (dataResponse data n) := by
    simp only [readResponse, dataResponse, itemsWire, Item.wire, dataBytes]
    rw [hat, h]
  rw [packetMem, packetMem, packetBody, packetBody, hwire]
  rfl

/-- What the handler does with the arguments of a read. -/
def readBody (os : Os σ) (srv : Server σ) (vs : Outs readRequestFormat) :
    Option (List Item × Server σ) :=
  if ELUARPC_READ_BUF_OFFSET + vs.2.2.1.toNat ≤ RFS_BUFFER_BYTES then
    some (readResponse (os.read vs.2.1 vs.2.2.1 srv.os).1.1.toUInt32, { srv with
      mem := srv.mem.store ELUARPC_READ_BUF_OFFSET (os.read vs.2.1 vs.2.2.1 srv.os).1.2
      os := (os.read vs.2.1 vs.2.2.1 srv.os).2 })
  else none

theorem serverRead_eq (srv : Server σ) :
    serverRead os srv = handler readRequestFormat srv (readBody os srv) := rfl

theorem readBody_eq (os : Os σ) (srv : Server σ) {vs : Outs readRequestFormat}
    (hfd : vs.2.1 = fd) (hcount : vs.2.2.1 = count) (h : count.toNat + 23 ≤ RFS_BUFFER_BYTES) :
    readBody os srv vs = some (readResponse (os.read fd count srv.os).1.1.toUInt32, { srv with
      mem := srv.mem.store ELUARPC_READ_BUF_OFFSET (os.read fd count srv.os).1.2
      os := (os.read fd count srv.os).2 }) := by
  have hoffset : ELUARPC_READ_BUF_OFFSET = 17 := rfl
  subst hfd hcount
  exact if_pos (by omega)

/-- The client reads the response to a read. -/
theorem rfscRead_of_exchange {c' : Client (Remote σ)} {vs : Option (Outs readResponseFormat)}
    (h : exchange (remoteLink os) c (readRequest fd count) readResponseFormat = some (vs, c')) :
    rfscRead (remoteLink os) c fd buf count = copyData buf count c' vs := by
  rw [rfscRead, h]
  rfl

/-- A read that does not fail. -/
theorem remote_read (hready : Ready c basedir s) (hfits : Fits c (.read fd buf count))
    (hres : (os.read fd count s).1.1 =
      (UInt32.ofNat (os.read fd count s).1.2.length).toInt32) :
    ∃ c', Ready c' basedir (os.read fd count s).2 ∧ c'.buf.size = c.buf.size ∧
      rfscRead (remoteLink os) c fd buf count =
        some (.int (os.read fd count s).1.1, buf.store 0 (os.read fd count s).1.2, c') := by
  obtain ⟨data, hdata⟩ : ∃ data, (os.read fd count s).1.2 = data := ⟨_, rfl⟩
  have hcount := os.read_le fd count s
  rw [hres]
  rw [hdata] at hcount hres ⊢
  have hn : (UInt32.ofNat data.length).toNat = data.length :=
    UInt32.toNat_ofNat_of_lt' (Nat.lt_of_le_of_lt hcount count.toNat_lt)
  obtain ⟨hroom, hlong⟩ := request_fits hfits
  obtain ⟨hclient, hserver, hlt⟩ := hfits
  have hclient : max 28 (count.toNat + 23) ≤ c.buf.size := hclient
  have hserver : max 28 (count.toNat + 23) ≤ RFS_BUFFER_BYTES := hserver
  have hsize : packetSize (dataResponse data (UInt32.ofNat data.length)) = data.length + 23 := by
    simp only [packetSize_eq, dataResponse, List.map_cons, List.map_nil, List.sum_cons,
      List.sum_nil, Item.size, hn, ELUARPC_PTR_HEADER_SIZE]
    omega
  have hsrc : ∀ it ∈ (Call.read fd buf count).request, it.Sourced :=
    fun it hit => (request_sourced _ it hit).1
  have hsourced : ∀ it ∈ dataResponse data (UInt32.ofNat data.length), it.Sourced := by
    rintro it (_ | ⟨_, _ | ⟨_, ⟨⟩⟩⟩)
    · trivial
    · rintro bs ⟨⟩
      rw [hn]
  obtain ⟨srv, hline, hbase, hos⟩ := hready
  obtain ⟨S, hS⟩ : ∃ S, S = srv.receive (requestBytes c.buf.mem
    (Call.read fd buf count).request) := ⟨_, rfl⟩
  obtain ⟨done, hdone⟩ : ∃ done : Server σ, done = { S with
    mem := S.mem.store ELUARPC_READ_BUF_OFFSET data, os := (os.read fd count s).2 } := ⟨_, rfl⟩
  have hSos : S.os = s := by rw [hS, ← hos]; rfl
  have hbody : ∀ vs, AllDelivered S.mem (packetSize (Call.read fd buf count).request)
      (Call.read fd buf count).request vs → readBody os S vs =
        some (readResponse (UInt32.ofNat data.length), done) := by
    rintro vs ⟨-, hfd, hcnt, -⟩
    have heq := readBody_eq os S hfd hcnt (by omega)
    rw [hSos, hres, hdata] at heq
    rw [hdone]
    exact heq
  -- the handler leaves the data where it belongs
  have hnull : ∀ it ∈ readResponse (UInt32.ofNat data.length), it.Sourced := by
    rintro it (_ | ⟨_, _ | ⟨_, ⟨⟩⟩⟩)
    · trivial
    · intro bs hbs
      cases hbs
  have hshort : packetSize (readResponse (UInt32.ofNat data.length)) ≤ RFS_BUFFER_BYTES := by
    change packetSize (dataResponse data (UInt32.ofNat data.length)) ≤ _
    omega
  rw [hS] at hbody
  have hexec := execute_eq os (.read fd buf count) (fun srv => serverRead_eq srv) (by omega) hnull
    hshort hbody
  have hholds : done.mem.read ELUARPC_READ_BUF_OFFSET (UInt32.ofNat data.length).toNat =
      data.take (UInt32.ofNat data.length).toNat := by
    rw [hn, List.take_length, hdone]
    exact Mem.holds_store_self S.mem ELUARPC_READ_BUF_OFFSET data
  rw [packetMem_read hholds] at hexec
  obtain ⟨c', vs, heq, hline', hsize', hreceived, -, ⟨hlen, hstored⟩, -⟩ :=
    remote_exchange os hline hsrc hroom hlong hlt hsourced (by omega) (by omega) hexec
  have hlen : vs.2.1.2 = UInt32.ofNat data.length := hlen
  have hgot : vs.2.1.2.toNat = data.length := by rw [hlen, hn]
  have hcopy : vs.2.1.1.getD 0 + data.length ≤ c'.received ∧
      c'.buf.mem.read (vs.2.1.1.getD 0) data.length = data := by
    rw [DataDelivered, hn] at hstored
    rw [hreceived]
    split at hstored
    · rename_i hzero
      have hnone : vs.2.1.1 = none := hstored
      rw [hnone, hzero, List.length_eq_zero_iff.mp hzero]
      exact ⟨Nat.zero_le _, rfl⟩
    · obtain ⟨a, ha, hinside, hread⟩ := hstored
      have ha : vs.2.1.1 = some a := ha
      have hread := hread data rfl
      rw [List.take_length] at hread
      rw [ha]
      exact ⟨hinside, hread⟩
  refine ⟨c', ⟨_, hline', by rw [hdone, hS, ← hbase]; rfl, by rw [hdone]⟩, hsize', ?_⟩
  have heq : exchange (remoteLink os) c (readRequest fd count) readResponseFormat =
      some (some vs, c') := heq
  have hput : Buf.put? ⟨buf, count.toNat⟩ 0 data = some ⟨buf.store 0 data, count.toNat⟩ :=
    Buf.put?_of_le (show 0 + data.length ≤ count.toNat by omega)
  refine (rfscRead_of_exchange heq).trans ?_
  simp only [copyData, hgot, if_pos hcopy.1, hcopy.2, hput, Option.map_some]
  rw [hlen]

theorem refines_read (hready : Ready c basedir s) (hfits : Fits c (.read fd buf count))
    (hres : (os.read fd count s).1.1 =
      (UInt32.ofNat (os.read fd count s).1.2.length).toInt32) :
    Refines os c basedir s (.read fd buf count) := by
  intro v data s' hlocal
  rw [localCall, Option.some.injEq, Prod.mk.injEq, Prod.mk.injEq] at hlocal
  obtain ⟨rfl, rfl, rfl⟩ := hlocal
  obtain ⟨c', hready', -, hrun⟩ := remote_read hready hfits hres
  exact ⟨c', hready', hrun⟩

/-! ### A read that fails -/

/-- What the server writes before the end of the response. -/
def failedFront : List UInt8 :=
  startBytes ++ [ELUARPC_OP_RES_MOD ||| RFS_OP_READ] ++ [TYPE_PTR] ++ wordBytes 0xFFFFFFFF

/-- The response when `os_read` gives −1: the end is one byte before the data. -/
def failedMem (m : Mem) : Mem :=
  ((m.store ELUARPC_START_OFFSET failedFront).store 16 endBytes).store 0 (sizeBytes 22)

/-- What is sent of it. -/
def failedResponse : List UInt8 := sizeBytes 22 ++ failedFront.take 12 ++ endBytes

/-- The response to a read that has failed: the length −1 leads back
into the packet. -/
theorem genWrite_failed (m : Mem) :
    eluarpcGenWrite (rfsBuffer m) (readResponse (-1 : Int32).toUInt32) =
      some (rfsBuffer (failedMem m)) := by
  have hsize : RFS_BUFFER_BYTES = 4125 := rfl
  obtain ⟨w, hw⟩ : ∃ w, w = (Writer.mk (rfsBuffer m) ELUARPC_START_OFFSET).wrote startBytes :=
    ⟨_, rfl⟩
  have hp : w.p = 10 := by rw [hw]; rfl
  have hwsize : w.buf.size = 4125 := by rw [hw]; rfl
  have hop : w.put [ELUARPC_OP_RES_MOD ||| RFS_OP_READ] = some _ := Writer.put_eq (by
    rw [hp, hwsize]
    decide)
  have htag : (w.wrote [ELUARPC_OP_RES_MOD ||| RFS_OP_READ]).put [TYPE_PTR] = some _ :=
    Writer.put_eq (by
      rw [Writer.wrote_p, Writer.wrote_size, hp, hwsize]
      decide)
  have hlen := writeU32_eq (w := (w.wrote [ELUARPC_OP_RES_MOD ||| RFS_OP_READ]).wrote [TYPE_PTR])
    0xFFFFFFFF (by
      rw [Writer.wrote_p, Writer.wrote_p, Writer.wrote_size, Writer.wrote_size, hp, hwsize]
      decide)
  have hall : ((w.wrote [ELUARPC_OP_RES_MOD ||| RFS_OP_READ]).wrote [TYPE_PTR]).wrote
      (wordBytes 0xFFFFFFFF) =
      (Writer.mk (rfsBuffer m) ELUARPC_START_OFFSET).wrote failedFront := by
    rw [hw, Writer.wrote_wrote, Writer.wrote_wrote, Writer.wrote_wrote]
    rfl
  have hstart : eluarpcStartPacket (rfsBuffer m) = some w :=
    hw ▸ startPacket_eq (rfsBuffer m) (show ITEMS_OFFSET ≤ RFS_BUFFER_BYTES by decide)
  -- the pointer goes around
  obtain ⟨w', hw'⟩ : ∃ w', w' = ((Writer.mk (rfsBuffer m) ELUARPC_START_OFFSET).wrote
      failedFront).skip 4294967295 := ⟨_, rfl⟩
  have hitems : writeItems (readResponse (-1 : Int32).toUInt32) w = some w' := by
    have hptr : eluarpcWritePtr (w.wrote [ELUARPC_OP_RES_MOD ||| RFS_OP_READ]) none
        (-1 : Int32).toUInt32 = some w' := by
      rw [eluarpcWritePtr, htag, Option.bind_eq_bind, Option.bind_some,
        show (-1 : Int32).toUInt32 = 0xFFFFFFFF from rfl, hlen, Option.bind_some, hall, hw']
      rfl
    rw [readResponse, writeItems, Item.write, hop, Option.bind_some, writeItems, Item.write, hptr]
    rfl
  have hp' : w'.p = 16 := by
    have hskip : w'.p = Lib.u32 (17 + 4294967295) := by rw [hw']; rfl
    rw [hskip]
    decide
  have hbuf : w'.buf = ⟨m.store ELUARPC_START_OFFSET failedFront, RFS_BUFFER_BYTES⟩ := by
    rw [hw']
    rfl
  have hend := endPacket_eq w' (by rw [hp', hbuf]; exact show 22 ≤ RFS_BUFFER_BYTES by decide)
  rw [hp', hbuf] at hend
  rw [eluarpcGenWrite, hstart, Option.bind_eq_bind, Option.bind_some, hitems, Option.bind_some,
    hend]
  rfl

/-- The server sends it. -/
theorem serve_failed {srv : Server σ} (m : Mem) (buf : Mem) (hos : srv.os = s)
    (hroom : count.toNat + 23 ≤ RFS_BUFFER_BYTES) (hres : (os.read fd count s).1.1 = -1) :
    ∃ srv', serve os srv (requestBytes m (Call.read fd buf count).request) =
      some (failedResponse, srv') := by
  have hsrc : ∀ it ∈ (Call.read fd buf count).request, it.Sourced :=
    fun it hit => (request_sourced _ it hit).1
  have hshort : packetSize (Call.read fd buf count).request < 65536 := show 28 < 65536 by decide
  obtain ⟨S, hS⟩ : ∃ S, S = srv.receive (requestBytes m (Call.read fd buf count).request) :=
    ⟨_, rfl⟩
  obtain ⟨vs, hrequest, hfd, hcount⟩ : ∃ vs : Outs readRequestFormat,
      eluarpcGenRead S.request readRequestFormat = some (false, vs) ∧ vs.2.1 = fd ∧
        vs.2.2.1 = count := by
    obtain ⟨vs, hread, -, hfd, hcount, -⟩ := decode_packet hsrc hshort
      (receive_holds srv (requestBytes m (Call.read fd buf count).request))
    rw [hS, receive_request]
    exact ⟨vs, hread, hfd, hcount⟩
  have hbody := readBody_eq os S hfd hcount hroom
  rw [show S.os = s by rw [hS, ← hos]; rfl, hres] at hbody
  have hexec : ∃ done : Server σ, serverExecuteRequest os S =
      some (true, { done with mem := failedMem done.mem }) := by
    rw [hS, execute_call, Call.handler, serverRead_eq, ← hS, handler, hrequest, Option.bind_some]
    simp only [Bool.false_eq_true, if_false, hbody, Option.bind_some, genWrite_failed,
      Option.map_some]
    exact ⟨{ S with
      mem := S.mem.store ELUARPC_READ_BUF_OFFSET (os.read fd count s).1.2
      os := (os.read fd count s).2 }, rfl⟩
  obtain ⟨done, hexec⟩ := hexec
  have hlen : (requestBytes m (Call.read fd buf count).request).length ≤ RFS_BUFFER_BYTES := by
    rw [length_requestBytes]
    exact show 28 ≤ RFS_BUFFER_BYTES by decide
  have hsize : eluarpcGetPacketSize (rfsBuffer (failedMem done.mem)) = some (false, 22) := rfl
  refine ⟨{ done with mem := failedMem done.mem }, ?_⟩
  rw [serve, if_pos hlen, ← hS, hexec, Option.bind_some]
  simp only [hsize, Option.bind_some, Bool.false_eq_true, if_false]
  rfl

/-- The client reads outside of it. -/
theorem read_failed (hready : Ready c basedir s) (hfits : Fits c (.read fd buf count))
    (hres : (os.read fd count s).1.1 = -1) : rfscRead (remoteLink os) c fd buf count = none := by
  obtain ⟨hroom, -⟩ := request_fits hfits
  obtain ⟨hclient, hserver, hlt⟩ := hfits
  have hclient : max 28 (count.toNat + 23) ≤ c.buf.size := hclient
  have hserver : max 28 (count.toNat + 23) ≤ RFS_BUFFER_BYTES := hserver
  have hsrc : ∀ it ∈ (Call.read fd buf count).request, it.Sourced :=
    fun it hit => (request_sourced _ it hit).1
  obtain ⟨srv, hline, hbase, hos⟩ := hready
  obtain ⟨srv', hserve⟩ := serve_failed c.buf.mem buf hos
    (show count.toNat + 23 ≤ RFS_BUFFER_BYTES by omega) hres
  have hanswer : Sent (remoteLink os) (requestBytes c.buf.mem (Call.read fd buf count).request)
      c.line ⟨some srv', failedResponse⟩ := by
    rw [hline, Sent]
    refine ⟨fun b hb => absurd hb (by simp [remoteLink]), ?_⟩
    simp only [remoteLink, Remote.answer, Option.bind_some, hserve, List.nil_append]
  have harrives : reception (remoteLink os) c.buf.size ⟨some srv', failedResponse⟩ =
      .packet failedResponse ⟨some srv', []⟩ := by
    have hbig : ¬ c.buf.size < 22 := by omega
    exact if_neg hbig
  obtain ⟨c', -, -, -, -, heq⟩ :=
    exchange_packet hsrc hroom hlt hanswer harrives readResponseFormat
  rw [if_neg (by decide)] at heq
  have heq : exchange (remoteLink os) c (readRequest fd count) readResponseFormat = none := heq
  rw [rfscRead, heq]
  rfl

theorem refines_read_iff (hread : ReadResult os) (hready : Ready c basedir s)
    (hfits : Fits c (.read fd buf count)) :
    Refines os c basedir s (.read fd buf count) ↔ (os.read fd count s).1.1 ≠ -1 := by
  constructor
  · intro h hfail
    obtain ⟨c', -, hrun⟩ := h _ _ _ rfl
    cases (read_failed hready hfits hfail).symm.trans hrun
  · intro h
    rcases hread fd count s with hfail | ⟨hres, -⟩
    · exact absurd hfail h
    · exact refines_read hready hfits hres

/-- **Remote is local**: a call gives what it gives locally just when
`os_closedir` gives what it is given and `os_read` does not fail. The
request and the response are followed through both encodings, and all
other operations agree at once. -/
theorem remote_iff {σ : Type} {os : Os σ} (hread : ReadResult os) {c : Client (Remote σ)}
    {basedir : CStr} {s : σ} (hready : Ready c basedir s) (call : Call) (hfits : Fits c call) :
    Refines os c basedir s call ↔ Faithful os s call := by
  cases call with
  | «open» name flags mode => exact ⟨fun _ => trivial, fun _ => refines_open hready hfits⟩
  | write fd buf => exact ⟨fun _ => trivial, fun _ => refines_write hready hfits⟩
  | read fd buf count => exact refines_read_iff hread hready hfits
  | lseek fd offset whence => exact ⟨fun _ => trivial, fun _ => refines_lseek hready hfits⟩
  | close fd => exact ⟨fun _ => trivial, fun _ => refines_close hready hfits⟩
  | opendir name => exact ⟨fun _ => trivial, fun _ => refines_opendir hready hfits⟩
  | readdir d => exact ⟨fun _ => trivial, fun _ v data s' h => nomatch h⟩
  | closedir d => exact refines_closedir_iff hready hfits

end Refinement

/-! ### A read, and a directory that is closed -/

/-- A system with one file of two bytes. -/
def plainOs : Os Unit where
  «open» _ _ _ s := (3, s)
  write _ bs s := ((UInt32.ofNat bs.length).toInt32, s)
  read _ count s := (if 2 ≤ count.toNat then (2, [1, 2]) else (0, []), s)
  read_le _ count _ := by
    dsimp only
    split
    · assumption
    · exact Nat.zero_le _
  close _ s := (0, s)
  lseek _ offset _ s := (offset, s)
  opendir _ s := (2, s)
  readdir _ s := (none, s)
  closedir _ s := (0, s)

theorem plainOs_readResult : ReadResult plainOs := by
  intro fd count s
  right
  dsimp only [plainOs]
  split
  · exact ⟨rfl, by decide⟩
  · exact ⟨rfl, by decide⟩

/-- A client and a server that have not done anything. -/
def plainClient : Client (Remote Unit) :=
  { buf := ⟨fun _ => 0, 64⟩
    line := ⟨some ⟨.ofByte 0x2F, fun _ => 0, 0, ()⟩, []⟩ }

theorem plainClient_ready : Ready plainClient (.ofByte 0x2F) () := ⟨_, rfl, rfl, rfl⟩

/-- A read that gets two bytes. -/
theorem remote_read_two : Refines plainOs plainClient (.ofByte 0x2F) () (.read 3 (fun _ => 0) 10) :=
  (remote_iff plainOs_readResult plainClient_ready (.read 3 _ 10)
    (show 33 ≤ 64 ∧ 33 ≤ RFS_BUFFER_BYTES ∧ 64 < 65536 by decide)).mpr
    (show (2 : Int32) ≠ -1 by decide)

/-- The directory 2 is closed with 0, and the client gets 2. -/
theorem closedir_differs :
    ¬ ∀ (σ : Type) (os : Os σ), ReadResult os → ∀ (c : Client (Remote σ)) (basedir : CStr) (s : σ),
      Ready c basedir s → ∀ call, Fits c call → Refines os c basedir s call := by
  intro h
  have hall := h Unit plainOs plainOs_readResult plainClient (.ofByte 0x2F) () plainClient_ready
    (.closedir 2) (show 23 ≤ 64 ∧ 23 ≤ RFS_BUFFER_BYTES ∧ 64 < 65536 by decide)
  exact absurd ((refines_closedir_iff plainClient_ready
    (show 23 ≤ 64 ∧ 23 ≤ RFS_BUFFER_BYTES ∧ 64 < 65536 by decide)).mp hall) (by decide)

end Alcor.Proofs.Rfs
