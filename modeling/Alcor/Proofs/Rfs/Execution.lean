import Alcor.Proofs.Rfs.Refinement

/-!
# `Alcor.Proofs.Rfs.Execution`: which requests the server can execute

The server reads any bytes as a request. `Executable` says what they
need for it to stay inside the request, `rfs_buffer` and
`server_fullname`.

* `genRead_request`: a request that is not well formed is rejected as
  soon as the reader has come to its end, and so it only has to be long
  enough.
* `named_isSome` and `words_isSome`: of the others each operation has its
  own needs, a name that ends in the request and has room in
  `server_fullname` with the base directory, or words only.
* `serverWrite_isSome`, `serverRead_isSome` and `serverReaddir_isSome`:
  data that is in the request, and room for what is read.
* `executes_iff` says that this is all the server needs.
-/

set_option autoImplicit false

namespace Alcor.Proofs.Rfs

open Lib (Mem Buf CStr Writer u32_of_lt length_leBytes)
open Alcor.Eluarpc Alcor.Rfs
open Alcor.Proofs.Eluarpc

variable {format : List Specifier}
variable {σ : Type} {os : Os σ} {srv : Server σ}

/-! ### What a request needs -/

/-- The full name of a file has room in `server_fullname`. -/
def PathFits (basedir name : List UInt8) : Prop :=
  name = [] ∨ basedir ≠ [] ∧
    basedir.length + (if basedir.getLast? = some PLATFORM_PATH_SEPARATOR then 0 else 1) +
      name.length ≤ PLATFORM_MAX_FNAME_LEN

/-- The bytes of the request from `a` on. -/
def bytesFrom (srv : Server σ) (a : Nat) : List UInt8 := srv.mem.read a (srv.received - a)

/-- A name ends in the request, and has room. -/
def NameFits (srv : Server σ) (p : Option Nat) : Prop :=
  ∀ a ∈ p, 0 ∈ bytesFrom srv a ∧
    PathFits srv.basedir.bytes ((bytesFrom srv a).takeWhile (· ≠ 0))

/-- The buffer has room for as much as is asked for, and the packet for what is read. -/
def ReadFits (os : Os σ) (srv : Server σ) (fd : Int32) (count : UInt32) : Prop :=
  ELUARPC_READ_BUF_OFFSET + count.toNat ≤ RFS_BUFFER_BYTES ∧
    ((os.read fd count srv.os).1.1 ≠ -1 →
      ELUARPC_READ_BUF_OFFSET + (os.read fd count srv.os).1.2.length + ELUARPC_END_SIZE ≤
        RFS_BUFFER_BYTES)

/-- The reader stays in the request, and when it is well formed its arguments meet a condition. -/
def Reads (srv : Server σ) (format : List Specifier) (needs : Outs format → Prop) : Prop :=
  (ITEMS_OFFSET ≤ srv.received ∧ Inside srv.mem srv.received format ITEMS_OFFSET) ∧
    (markOk srv.mem ELUARPC_START_OFFSET TYPE_START PACKET_SIG = true →
      itemsOk srv.mem format ITEMS_OFFSET = true →
        needs (itemsValue srv.mem format ITEMS_OFFSET))

/-- What the request for an operation needs. -/
def Needs (os : Os σ) (srv : Server σ) (op : UInt8) : Prop :=
  if op = RFS_OP_OPEN then Reads srv openRequestFormat fun vs => NameFits srv vs.2.1.1
  else if op = RFS_OP_WRITE then
    Reads srv writeRequestFormat fun vs =>
      -- the data is in the request
      vs.2.2.1.1.getD 0 + vs.2.2.1.2.toNat ≤ srv.received
  else if op = RFS_OP_READ then
    Reads srv readRequestFormat fun vs => ReadFits os srv vs.2.1 vs.2.2.1
  else if op = RFS_OP_CLOSE then Reads srv closeRequestFormat fun _ => True
  else if op = RFS_OP_LSEEK then Reads srv lseekRequestFormat fun _ => True
  else if op = RFS_OP_OPENDIR then Reads srv opendirRequestFormat fun vs => NameFits srv vs.2.1.1
  else if op = RFS_OP_READDIR then
    Reads srv readdirRequestFormat fun vs =>
      ∀ name ∈ (os.readdir vs.2.1 srv.os).1, PathFits srv.basedir.bytes name.bytes
  else if op = RFS_OP_CLOSEDIR then Reads srv closedirRequestFormat fun _ => True
  else True

/-- The server executes the request, or rejects it, inside its objects. -/
def Executable (os : Os σ) (srv : Server σ) : Prop :=
  ITEMS_OFFSET + 2 ≤ srv.received ∧
    (markOk srv.mem ELUARPC_START_OFFSET TYPE_START PACKET_SIG = true →
      srv.mem ITEMS_OFFSET = TYPE_OP_ID → Needs os srv (srv.mem (ITEMS_OFFSET + 1)))

/-! ### Names -/

theorem takeWhile_length_lt_iff (s : List UInt8) :
    (s.takeWhile (· ≠ 0)).length < s.length ↔ 0 ∈ s := by
  induction s with
  | nil => simp
  | cons b s ih =>
    by_cases hb : b = 0
    · simp [hb]
    · have hne : (0 : UInt8) ≠ b := fun h => hb h.symm
      simp [hb, hne, ← ih]

theorem strncatFullname_isSome (s src : List UInt8) (hs : s ≠ []) :
    (strncatFullname s src).isSome = true ↔ s.length + src.length ≤ PLATFORM_MAX_FNAME_LEN := by
  have hpos := List.length_pos_iff.mpr hs
  rw [strncatFullname]
  simp only [List.length_append, List.length_take]
  split
  · exact iff_of_true rfl (by omega)
  · exact iff_of_false Bool.false_ne_true (by omega)

/-- The name of a file is built inside `server_fullname`. -/
theorem serverFullname_isSome (basedir name : List UInt8) :
    (serverFullname basedir name).isSome = true ↔ PathFits basedir name := by
  rw [serverFullname, PathFits]
  cases name with
  | nil => simp
  | cons b name =>
    obtain rfl | hne := eq_or_ne basedir []
    · simp
    have hpos := List.length_pos_iff.mpr hne
    have hstart : basedir.take PLATFORM_MAX_FNAME_LEN ≠ [] := by
      rw [← List.length_pos_iff, List.length_take, PLATFORM_MAX_FNAME_LEN]
      omega
    rw [if_neg (by simp), List.getLast?_eq_some_getLast hstart, Option.bind_some]
    by_cases hlong : basedir.length ≤ PLATFORM_MAX_FNAME_LEN
    · simp only [List.take_of_length_le hlong, List.getLast?_eq_some_getLast hne,
        Option.some.injEq, reduceCtorEq, false_or, ne_eq, hne, not_false_eq_true, true_and]
      by_cases hsep : basedir.getLast hne = PLATFORM_PATH_SEPARATOR
      · rw [if_neg (not_not_intro hsep), if_pos hsep, strncatFullname_isSome _ _ hne,
          Nat.add_zero]
      · rw [if_pos hsep, if_neg hsep]
        -- the separator, and then the name
        by_cases hroom : basedir.length + 1 ≤ PLATFORM_MAX_FNAME_LEN
        · have hcat : strncatFullname basedir [PLATFORM_PATH_SEPARATOR] =
              some (basedir ++ [PLATFORM_PATH_SEPARATOR]) := by
            rw [strncatFullname, List.take_of_length_le (by decide), List.length_append,
              List.length_singleton]
            exact if_pos hroom
          rw [hcat, Option.bind_some, strncatFullname_isSome _ _ (by simp), List.length_append,
            List.length_singleton]
        · have hcat : strncatFullname basedir [PLATFORM_PATH_SEPARATOR] = none := by
            rw [strncatFullname, List.take_of_length_le (by decide), List.length_append,
              List.length_singleton]
            exact if_neg hroom
          rw [hcat, Option.bind_none, List.length_cons]
          exact iff_of_false Bool.false_ne_true (by omega)
    · -- the base directory fills `server_fullname`
      have hlen : (basedir.take PLATFORM_MAX_FNAME_LEN).length = PLATFORM_MAX_FNAME_LEN :=
        List.length_take_of_le (Nat.le_of_not_le hlong)
      have hnone (src : List UInt8) (hsrc : src ≠ []) :
          strncatFullname (basedir.take PLATFORM_MAX_FNAME_LEN) src = none := by
        have hpos := List.length_pos_iff.mpr hsrc
        rw [← Option.not_isSome_iff_eq_none, strncatFullname_isSome _ _ hstart, hlen]
        omega
      rw [hnone [PLATFORM_PATH_SEPARATOR] (by simp), hnone (b :: name) (by simp),
        Option.bind_none, ite_self]
      refine iff_of_false Bool.false_ne_true (not_or.mpr ⟨by simp, fun h => ?_⟩)
      have hroom := h.2
      omega

theorem name_length_le {basedir name : List UInt8} (h : PathFits basedir name) :
    name.length ≤ 2048 := by
  rcases h with rfl | ⟨-, hroom⟩
  · exact Nat.zero_le _
  · rw [PLATFORM_MAX_FNAME_LEN] at hroom
    omega

/-- The name in a request is found, and its file has a full name. -/
theorem nameFits_iff (p : Option Nat) :
    ((nameAt srv.request p).bind (serverFullname srv.basedir.bytes)).isSome = true ↔
      NameFits srv p := by
  cases p with
  | none =>
    rw [nameAt, Option.bind_some, serverFullname_isSome]
    exact iff_of_true (.inl rfl) (by simp [NameFits])
  | some a =>
    have hends := takeWhile_length_lt_iff (bytesFrom srv a)
    have hlen : (bytesFrom srv a).length = srv.received - a := Mem.length_read ..
    rw [hlen] at hends
    have hfits : NameFits srv (some a) ↔ 0 ∈ bytesFrom srv a ∧
        PathFits srv.basedir.bytes ((bytesFrom srv a).takeWhile (· ≠ 0)) := by
      simp [NameFits]
    -- behind the end of the request no terminator is looked for
    have hname : nameAt srv.request (some a) =
        if ((bytesFrom srv a).takeWhile (· ≠ 0)).length < srv.received - a then
          some ((bytesFrom srv a).takeWhile (· ≠ 0)) else none := rfl
    rw [hfits, hname]
    split
    · next hlt =>
        rw [Option.bind_some, serverFullname_isSome]
        exact (and_iff_right (hends.mp hlt)).symm
    · next hge => exact iff_of_false Bool.false_ne_true fun h => hge (hends.mpr h.1)

/-! ### Handlers -/

theorem Reads.congr {P Q : Outs format → Prop} (h : ∀ vs, P vs ↔ Q vs) :
    Reads srv format P ↔ Reads srv format Q := by
  simp only [Reads, h]

/-- What the reader makes of the bytes of the request. -/
theorem genRead_request (hsize : srv.received < 2 ^ 16) (format : List Specifier) :
    eluarpcGenRead srv.request format =
      if ITEMS_OFFSET ≤ srv.received ∧ Inside srv.mem srv.received format ITEMS_OFFSET then
        some (!(markOk srv.mem ELUARPC_START_OFFSET TYPE_START PACKET_SIG &&
          itemsOk srv.mem format ITEMS_OFFSET), itemsValue srv.mem format ITEMS_OFFSET)
      else none := by
  have hread : genReadTo srv.request format =
      if ITEMS_OFFSET ≤ srv.received ∧ Inside srv.mem srv.received format ITEMS_OFFSET then
        some (itemsValue srv.mem format ITEMS_OFFSET,
          ⟨itemsEnd srv.mem format ITEMS_OFFSET,
            !(markOk srv.mem ELUARPC_START_OFFSET TYPE_START PACKET_SIG &&
              itemsOk srv.mem format ITEMS_OFFSET)⟩)
      else none := genReadTo_eq srv.request (show srv.received < 2 ^ 32 by omega) format
  rw [eluarpcGenRead, hread]
  split <;> rfl

/-- What a handler needs of its request. -/
theorem handler_isSome (hsize : srv.received < 2 ^ 16)
    {body : Outs format → Option (List Item × Server σ)} :
    (handler format srv body).isSome = true ↔ Reads srv format fun vs =>
      ∃ done, body vs = some done ∧
        (eluarpcGenWrite (rfsBuffer done.2.mem) done.1).isSome = true := by
  rw [handler, genRead_request hsize, Reads]
  by_cases hinside : ITEMS_OFFSET ≤ srv.received ∧ Inside srv.mem srv.received format ITEMS_OFFSET
  · rw [if_pos hinside, Option.bind_some, and_iff_right hinside]
    by_cases hwell : markOk srv.mem ELUARPC_START_OFFSET TYPE_START PACKET_SIG = true ∧
        itemsOk srv.mem format ITEMS_OFFSET = true
    · simp only [hwell.1, hwell.2, forall_const]
      cases hbody : body (itemsValue srv.mem format ITEMS_OFFSET) with
      | none => simp
      | some done => simp
    · -- it is rejected
      have hwrong := not_and_or.mp hwell
      rw [if_pos (by simpa using hwrong)]
      exact iff_of_true rfl fun hmark hitems => absurd ⟨hmark, hitems⟩ hwell
  · rw [if_neg hinside]
    exact iff_of_false Bool.false_ne_true fun h => hinside h.1

/-- A response of a few bytes has room. -/
theorem response_isSome (m : Mem) {items : List Item} (hsrc : ∀ it ∈ items, it.Sourced)
    (hfits : packetSize items ≤ RFS_BUFFER_BYTES) :
    (eluarpcGenWrite (rfsBuffer m) items).isSome = true := by
  rw [genWrite_eq (rfsBuffer m) (show RFS_BUFFER_BYTES < 2 ^ 32 by decide) hsrc hfits]
  rfl

theorem exists_map_iff {α β : Type} {x : Option α} {f : α → β} {P : β → Prop}
    (h : ∀ a, P (f a)) : (∃ b, x.map f = some b ∧ P b) ↔ x.isSome = true := by
  cases x <;> simp [h]

theorem exists_bind_map_iff {α β γ : Type} {x : Option α} {g : α → Option β} {f : β → γ}
    {P : γ → Prop} (h : ∀ b, P (f b)) :
    (∃ c, (x.bind fun a => (g a).map f) = some c ∧ P c) ↔ (x.bind g).isSome = true := by
  cases x with
  | none => simp
  | some a => exact exists_map_iff h

/-- The response to a read, over the data that is in the packet already. -/
theorem readResponse_isSome (m : Mem) {n : UInt32} (hn : n.toNat ≤ RFS_BUFFER_BYTES) :
    (eluarpcGenWrite (rfsBuffer m) (readResponse n)).isSome = true ↔
      ELUARPC_READ_BUF_OFFSET + n.toNat + ELUARPC_END_SIZE ≤ RFS_BUFFER_BYTES := by
  have hpacket : packetSize (readResponse n) = 23 + n.toNat := by
    have hsum : itemsSize (readResponse n) = 1 + (6 + n.toNat + 0) := rfl
    rw [packetSize, hsum, ITEMS_OFFSET, ELUARPC_START_OFFSET, ELUARPC_START_SIZE, ELUARPC_END_SIZE]
    omega
  rw [show ELUARPC_READ_BUF_OFFSET = 17 from rfl, ELUARPC_END_SIZE]
  constructor
  · intro h
    obtain ⟨buf, h⟩ := Option.isSome_iff_exists.mp h
    rw [eluarpcGenWrite] at h
    simp only [Option.bind_eq_bind, Option.bind_eq_some_iff] at h
    obtain ⟨w1, h1, w2, h2, h3⟩ := h
    -- the start, the two items and the end, one after the other
    rw [eluarpcStartPacket] at h1
    simp only [Option.bind_eq_bind, Option.bind_eq_some_iff] at h1
    obtain ⟨w0, h0, h1⟩ := h1
    obtain ⟨hp0, hs0, -⟩ := put_room h0
    obtain ⟨hp1, hs1, -⟩ := put_room h1
    rw [readResponse, writeItems, Option.bind_eq_some_iff] at h2
    obtain ⟨v1, hop, h2⟩ := h2
    obtain ⟨hpop, hsop, -⟩ := put_room hop
    rw [writeItems, Option.bind_eq_some_iff] at h2
    obtain ⟨v2, hptr, h2⟩ := h2
    rw [writeItems, Option.some.injEq] at h2
    have hitem : Item.write v1 (.p none n) = eluarpcWritePtr v1 none n := rfl
    rw [hitem, eluarpcWritePtr] at hptr
    simp only [Option.bind_eq_bind, Option.bind_eq_some_iff] at hptr
    obtain ⟨u1, hu1, u2, hu2, hskip⟩ := hptr
    obtain ⟨hpu1, hsu1, -⟩ := put_room hu1
    obtain ⟨hpu2, hsu2, -⟩ := put_room hu2
    rw [copyFrom, Option.some.injEq] at hskip
    simp only [List.length_cons, List.length_nil, length_leBytes, ELUARPC_START_OFFSET]
      at hp0 hp1 hpop hpu1 hpu2
    have hsize : (rfsBuffer m).size = 4125 := rfl
    have hmax : RFS_BUFFER_BYTES = 4125 := rfl
    have hp2 : w2.p = 17 + n.toNat := by
      rw [← h2, ← hskip, Writer.skip, u32_of_lt (by omega)]
      dsimp only
      omega
    have hs2 : w2.buf.size = 4125 := by
      rw [← h2, ← hskip, Writer.skip, hsu2, hsu1, hsop, hs1, hs0, hsize]
    rw [eluarpcEndPacket] at h3
    simp only [Option.bind_eq_bind, Option.bind_eq_some_iff] at h3
    obtain ⟨w3, h3, w4, h4, -⟩ := h3
    obtain ⟨hp3, hs3, -⟩ := put_room h3
    obtain ⟨-, -, hle⟩ := put_room h4
    simp only [List.length_cons, List.length_nil, length_leBytes] at hp3 hle
    omega
  · intro hroom
    refine response_isSome m (fun it hit => ?_) (by omega)
    simp only [readResponse, List.mem_cons, List.not_mem_nil, or_false] at hit
    rcases hit with rfl | rfl
    · trivial
    · exact fun bs hbs => by cases hbs

/-- The response to a readdir, with a name that `server_fullname` has room for. -/
theorem readdirResponse_isSome (m : Mem) {name : Option CStr}
    (hname : ∀ s ∈ name, s.bytes.length ≤ 2048) (size ftime : UInt32) :
    (eluarpcGenWrite (rfsBuffer m) (readdirResponse name size ftime)).isSome = true := by
  cases name with
  | none =>
    refine response_isSome _ ?_ ?_
    · simp [readdirResponse, Item.Sourced, Readable]
    · exact show 33 ≤ RFS_BUFFER_BYTES by decide
  | some s =>
    have hshort := hname s rfl
    have hlen : (UInt32.ofNat (s.bytes.length + 1)).toNat = s.bytes.length + 1 :=
      UInt32.toNat_ofNat_of_lt' (show s.bytes.length + 1 < 2 ^ 32 by omega)
    refine response_isSome _ (fun it hit => ?_) ?_
    · simp only [readdirResponse, Option.map_some, Option.getD_some, List.mem_cons,
        List.not_mem_nil, or_false] at hit
      rcases hit with rfl | rfl | rfl | rfl
      · trivial
      · exact stringItem_sourced s
      · trivial
      · trivial
    · have hmax : RFS_BUFFER_BYTES = 4125 := rfl
      simp only [packetSize_eq, readdirResponse, stringItem, Option.map_some,
        Option.getD_some, List.map_cons, List.map_nil, List.sum_cons, List.sum_nil,
        Item.size, hlen, ELUARPC_PTR_HEADER_SIZE]
      omega

section Operations
variable (hsize : srv.received < 2 ^ 16)
include hsize

/-- The handlers that have a name. -/
theorem named_isSome {p : Outs format → Option Nat}
    {f : Outs format → List UInt8 → List Item × Server σ}
    (hsrc : ∀ vs fullname, ∀ it ∈ (f vs fullname).1, it.Sourced)
    (hfits : ∀ vs fullname, packetSize (f vs fullname).1 ≤ RFS_BUFFER_BYTES) :
    (handler format srv fun vs => (nameAt srv.request (p vs)).bind fun filename =>
      (serverFullname srv.basedir.bytes filename).map (f vs)).isSome = true ↔
      Reads srv format fun vs => NameFits srv (p vs) := by
  rw [handler_isSome hsize]
  refine Reads.congr fun vs => ?_
  rw [← nameFits_iff]
  exact exists_bind_map_iff fun fullname =>
    response_isSome _ (hsrc vs fullname) (hfits vs fullname)

theorem serverOpen_isSome : (serverOpen os srv).isSome = true ↔
    Reads srv openRequestFormat fun vs => NameFits srv vs.2.1.1 := by
  refine named_isSome hsize (fun vs fullname => ?_) fun vs fullname => ?_
  · simp [openResponse, Item.Sourced]
  · exact show 22 ≤ RFS_BUFFER_BYTES by decide

theorem serverOpendir_isSome : (serverOpendir os srv).isSome = true ↔
    Reads srv opendirRequestFormat fun vs => NameFits srv vs.2.1.1 := by
  refine named_isSome hsize (fun vs fullname => ?_) fun vs fullname => ?_
  · simp [opendirResponse, Item.Sourced]
  · exact show 22 ≤ RFS_BUFFER_BYTES by decide

/-- The handlers that only have words. -/
theorem words_isSome {body : Outs format → List Item × Server σ}
    (hsrc : ∀ vs, ∀ it ∈ (body vs).1, it.Sourced)
    (hfits : ∀ vs, packetSize (body vs).1 ≤ RFS_BUFFER_BYTES) :
    (handler format srv fun vs => some (body vs)).isSome = true ↔
      Reads srv format fun _ => True := by
  rw [handler_isSome hsize]
  refine Reads.congr fun vs => iff_of_true ?_ trivial
  exact ⟨_, rfl, response_isSome _ (hsrc vs) (hfits vs)⟩

theorem serverClose_isSome : (serverClose os srv).isSome = true ↔
    Reads srv closeRequestFormat fun _ => True := by
  refine words_isSome hsize (fun vs => ?_) fun vs => ?_
  · simp [closeResponse, Item.Sourced]
  · exact show 22 ≤ RFS_BUFFER_BYTES by decide

theorem serverLseek_isSome : (serverLseek os srv).isSome = true ↔
    Reads srv lseekRequestFormat fun _ => True := by
  refine words_isSome hsize (fun vs => ?_) fun vs => ?_
  · simp [lseekResponse, Item.Sourced]
  · exact show 22 ≤ RFS_BUFFER_BYTES by decide

theorem serverClosedir_isSome : (serverClosedir os srv).isSome = true ↔
    Reads srv closedirRequestFormat fun _ => True := by
  refine words_isSome hsize (fun vs => ?_) fun vs => ?_
  · simp [closedirResponse, Item.Sourced]
  · exact show 22 ≤ RFS_BUFFER_BYTES by decide

theorem serverWrite_isSome : (serverWrite os srv).isSome = true ↔
    Reads srv writeRequestFormat fun vs =>
      vs.2.2.1.1.getD 0 + vs.2.2.1.2.toNat ≤ srv.received := by
  rw [serverWrite, handler_isSome hsize]
  refine Reads.congr fun vs => ?_
  dsimp only
  split
  · next hinside =>
      refine iff_of_true ⟨_, rfl, response_isSome _ ?_ ?_⟩ hinside
      · simp [writeResponse, Item.Sourced]
      · exact show 22 ≤ RFS_BUFFER_BYTES by decide
  · next houtside =>
      refine iff_of_false ?_ houtside
      rintro ⟨_, h, -⟩
      cases h

/-- `readdir` needs room for the name it has found. -/
theorem serverReaddir_isSome : (serverReaddir os srv).isSome = true ↔
    Reads srv readdirRequestFormat fun vs =>
      ∀ name ∈ (os.readdir vs.2.1 srv.os).1, PathFits srv.basedir.bytes name.bytes := by
  rw [serverReaddir, handler_isSome hsize]
  refine Reads.congr fun vs => ?_
  dsimp only
  cases hent : (os.readdir vs.2.1 srv.os).1 with
  | none =>
    refine iff_of_true ⟨_, rfl, ?_⟩ (fun _ h => by cases h)
    exact readdirResponse_isSome _ (fun _ h => by cases h) _ _
  | some name =>
    have hname : (∀ name' ∈ some name, PathFits srv.basedir.bytes name'.bytes) ↔
        PathFits srv.basedir.bytes name.bytes := by simp
    rw [hname]
    by_cases hfits : PathFits srv.basedir.bytes name.bytes
    · -- the file has a size or not, and so the response has its name or none
      refine (exists_map_iff fun fullname => ?_).trans (serverFullname_isSome _ _)
      refine readdirResponse_isSome _ (fun s hs => ?_) _ _
      obtain ⟨size, -, rfl⟩ := Option.map_eq_some_iff.mp hs
      exact name_length_le hfits
    · refine iff_of_false ?_ hfits
      rintro ⟨done, hdone, -⟩
      obtain ⟨fullname, hfull, -⟩ := Option.map_eq_some_iff.mp hdone
      exact hfits ((serverFullname_isSome _ _).mp (Option.isSome_iff_exists.mpr ⟨_, hfull⟩))

/-- `read` needs room for what is read. -/
theorem serverRead_isSome (hread : ReadResult os) : (serverRead os srv).isSome = true ↔
    Reads srv readRequestFormat fun vs => ReadFits os srv vs.2.1 vs.2.2.1 := by
  rw [serverRead, handler_isSome hsize]
  refine Reads.congr fun vs => ?_
  dsimp only
  rw [ReadFits]
  split
  · next hroom =>
      rw [and_iff_right hroom]
      have hstored := os.read_le vs.2.1 vs.2.2.1 srv.os
      rcases hread vs.2.1 vs.2.2.1 srv.os with hfailed | ⟨hres, hne⟩
      · -- the length of the response goes around
        refine iff_of_true ⟨_, rfl, ?_⟩ fun h => absurd hfailed h
        dsimp only
        rw [hfailed, genWrite_failed]
        rfl
      · have hcount := vs.2.2.1.toNat_lt
        have hn : (os.read vs.2.1 vs.2.2.1 srv.os).1.1.toUInt32.toNat =
            (os.read vs.2.1 vs.2.2.1 srv.os).1.2.length := by
          rw [hres, UInt32.toUInt32_toInt32]
          exact UInt32.toNat_ofNat_of_lt' (show _ < 2 ^ 32 by omega)
        have hoffset : ELUARPC_READ_BUF_OFFSET = 17 := rfl
        -- the response has as many bytes as were stored
        have hresponse := readResponse_isSome
          (srv.mem.store ELUARPC_READ_BUF_OFFSET (os.read vs.2.1 vs.2.2.1 srv.os).1.2)
          (n := (os.read vs.2.1 vs.2.2.1 srv.os).1.1.toUInt32) (by omega)
        rw [hn] at hresponse
        simp only [Option.some.injEq, exists_eq_left', hresponse, hne, ne_eq, not_false_eq_true,
          forall_const]
  · next hroom =>
      refine iff_of_false ?_ fun h => hroom h.1
      rintro ⟨_, h, -⟩
      cases h

/-- What the handler of an operation needs. -/
theorem operation_isSome (hread : ReadResult os) (op : UInt8) :
    (if op = RFS_OP_OPEN then serverOpen os srv
      else if op = RFS_OP_WRITE then serverWrite os srv
      else if op = RFS_OP_READ then serverRead os srv
      else if op = RFS_OP_CLOSE then serverClose os srv
      else if op = RFS_OP_LSEEK then serverLseek os srv
      else if op = RFS_OP_OPENDIR then serverOpendir os srv
      else if op = RFS_OP_READDIR then serverReaddir os srv
      else if op = RFS_OP_CLOSEDIR then serverClosedir os srv
      else some (false, srv)).isSome = true ↔ Needs os srv op := by
  rw [Needs]
  split_ifs
  · exact serverOpen_isSome hsize
  · exact serverWrite_isSome hsize
  · exact serverRead_isSome hsize hread
  · exact serverClose_isSome hsize
  · exact serverLseek_isSome hsize
  · exact serverOpendir_isSome hsize
  · exact serverReaddir_isSome hsize
  · exact serverClosedir_isSome hsize
  · exact iff_of_true rfl trivial

end Operations

/-- **The server and its objects**: a request, of any bytes, is
executed or rejected inside the request, `rfs_buffer` and
`server_fullname` exactly if it has what its operation needs. Each
operation has its own lemma. -/
theorem executes_iff (os : Os σ) (hread : ReadResult os) (srv : Server σ)
    (hsize : srv.received < 2 ^ 16) :
    (serverExecuteRequest os srv).isSome = true ↔ Executable os srv := by
  have hid : eluarpcGetRequestId srv.request = if ITEMS_OFFSET + 2 ≤ srv.received then
      some (!(markOk srv.mem ELUARPC_START_OFFSET TYPE_START PACKET_SIG &&
        srv.mem ITEMS_OFFSET == TYPE_OP_ID), srv.mem (ITEMS_OFFSET + 1))
      else none := getRequestId_eq srv.request
  rw [serverExecuteRequest, hid, Executable]
  by_cases hlen : ITEMS_OFFSET + 2 ≤ srv.received
  · rw [if_pos hlen, Option.bind_some, and_iff_right hlen]
    by_cases hknown : markOk srv.mem ELUARPC_START_OFFSET TYPE_START PACKET_SIG = true ∧
        srv.mem ITEMS_OFFSET = TYPE_OP_ID
    · simp only [hknown.1, hknown.2, beq_self_eq_true, Bool.and_self, Bool.not_true,
        Bool.false_eq_true, if_false, forall_const]
      exact operation_isSome hsize hread _
    · have hwrong := not_and_or.mp hknown
      rw [if_pos (by simpa using hwrong)]
      exact iff_of_true rfl fun hmark htag => absurd ⟨hmark, htag⟩ hknown
  · rw [if_neg hlen, Option.bind_none]
    exact iff_of_false Bool.false_ne_true fun h => hlen h.1

/-- A server with a request in `rfs_buffer`. -/
def serverWith (request : List Item) : Server Unit where
  basedir := .ofByte 0x2F
  mem := packetMem (fun _ => 0) request
  received := packetSize request
  os := ()

/-- A request for 10 bytes. -/
theorem executes_iff_ten : Executable plainOs (serverWith (readRequest 3 10)) :=
  (executes_iff plainOs plainOs_readResult (serverWith (readRequest 3 10)) (by decide)).mp
    (by decide +kernel)

/-- A request for more bytes than `rfs_buffer` has. -/
theorem not_always_executes :
    ¬ ∀ (σ : Type) (os : Os σ), ReadResult os → ∀ srv : Server σ,
      srv.received ≤ RFS_BUFFER_BYTES → (serverExecuteRequest os srv).isSome = true := by
  intro h
  have hexecutes := h Unit plainOs plainOs_readResult (serverWith (readRequest 3 5000)) (by decide)
  revert hexecutes
  decide +kernel

end Alcor.Proofs.Rfs
