import Alcor.Romfs.Ops

/-!
# `Alcor.Romfs.Faults`: a medium that fails

`romfs_write_r` and `romfs_close_r` drop the result of `writef`, and
`romfs_read_r` takes what `readf` returns for the number of bytes it
has read. A `Device` says what each call of the two does, by its
number. `romfsReadROn`, `romfsWriteROn` and `romfsCloseROn` are the
three operations on such a medium.

When every call does what it should they are the operations of
`Alcor.Romfs.Ops` (`romfsReadROn_intact`, `romfsWriteROn_intact`,
`romfsCloseROn_intact`).
-/

set_option autoImplicit false

namespace Alcor.Romfs

open Lib

/-- What comes of a call of `readf`. -/
inductive ReadfFate where
  /-- All bytes that were asked for. -/
  | done
  /-- So many bytes at most. -/
  | short (n : Nat)
  /-- The result −1. -/
  | failed
  deriving DecidableEq

/-- What it gives of the bytes that were asked for, `none` for the result −1. -/
def ReadfFate.given (bytes : List UInt8) : ReadfFate → Option (List UInt8)
  | .done    => some bytes
  | .short n => some (bytes.take n)
  | .failed  => none

/-- What the calls of `readf` and `writef` of an instance do, by their numbers. -/
structure Device where
  /-- What comes of a call of `readf`. -/
  readf : Nat → ReadfFate
  /-- The bytes that a call of `writef` leaves on the medium, for those that it is given. -/
  writef : Nat → List UInt8 → List UInt8
  /-- A call of `writef` changes nothing outside its range. -/
  length_writef : ∀ i bs, (writef i bs).length = bs.length

/-- The medium on which nothing fails. -/
def Device.intact : Device := ⟨fun _ => .done, fun _ bs => bs, fun _ _ => rfl⟩

section On
variable (dev : Device)

/-- `writef` on such a medium. The list of its calls keeps the bytes that were stored. -/
def FSDATA.writefOn (pfs : FSDATA) (bs : List UInt8) (toaddr : Nat) : FSDATA :=
  pfs.writef (dev.writef pfs.medium.writes.length bs) toaddr

/-- `romfs_read_r`, whose call of `readf` has the number `i`; the result −1 is an error, with the
code when one is stored. The position moves by what `readf` returns, also by −1. -/
def romfsReadROn (i fd len : Nat) (st : RomfsState) :
    Except (Option Errno) (List UInt8) × RomfsState :=
  let pfd := st.fd fd
  let actlen := min len (sub32 pfd.size pfd.offset)
  if !pfd.flags.read then
    (.error (some .EBADF), st)
  else
    let bytes := st.fsdata.medium.bytes.read (u32 (pfd.offset + pfd.baseaddr)) actlen
    let moved (n : Nat) : RomfsState :=
      { st with fdTable := st.fdTable.set fd { pfd with offset := u32 (pfd.offset + n) } }
    if st.fsdata.flags.direct then
      (.ok bytes, moved actlen)
    else
      match dev.readf i with
      | .done    => (.ok bytes, moved actlen)
      | .short n => (.ok (bytes.take n), moved (min n actlen))
      | .failed  => (.error none, moved (2 ^ 32 - 1))

/-- `romfs_write_r`. The descriptor moves by `len`, whatever `writef` has stored. -/
def romfsWriteROn (fd : Nat) (ptr : List UInt8) (st : RomfsState) :
    Except Errno Nat × RomfsState :=
  let pfd := st.fd fd
  if !pfd.flags.mayWrite then
    (.error .EINVAL, st)
  else
    let pfd := if pfd.flags.append then { pfd with offset := pfd.size } else pfd
    let st := { st with fdTable := st.fdTable.set fd pfd }
    if pfd.offset ≠ pfd.size then
      (.ok 0, st)
    else
      let len := romfsWriteLen pfd ptr.length st.fsdata
      let pfs := st.fsdata.writefOn dev (ptr.take len) (u32 (pfd.offset + pfd.baseaddr))
      let pfd := { pfd with offset := u32 (pfd.offset + len), size := u32 (pfd.size + len) }
      (.ok len, { st with fdTable := st.fdTable.set fd pfd, fsdata := pfs })

/-- `romfs_close_r`. -/
def romfsCloseROn (fd : Nat) (st : RomfsState) : RomfsState :=
  let pfd := st.fd fd
  let pfs := if pfd.flags.mayWrite then
      (st.fsdata.writefOn dev (leBytes ROMFS_SIZE_LEN pfd.size)
        (sub32 pfd.baseaddr ROMFS_SIZE_LEN)).setWriting false
    else st.fsdata
  let st := romfsCloseFd fd { st with fsdata := pfs }
  { st with romfsNumFd := st.romfsNumFd - 1 }

end On

/-! ### Nothing fails -/

/-- Where every call of `readf` gives all bytes, reading is the operation of the plain model. -/
theorem romfsReadROn_intact (i fd len : Nat) (st : RomfsState) :
    romfsReadROn .intact i fd len st =
      ((romfsReadR fd len st).1.mapError some, (romfsReadR fd len st).2) := by
  unfold romfsReadROn romfsReadR
  cases hread : (st.fd fd).flags.read with
  | false =>
    simp only [hread, Bool.not_false, if_true]
    rfl
  | true =>
    -- both ways to the bytes give the same
    cases st.fsdata.flags.direct with
    | false =>
      simp only [hread, Bool.not_true, Bool.false_eq_true, if_false]
      rfl
    | true =>
      simp only [hread, Bool.not_true, Bool.false_eq_true, if_false, if_true]
      rfl

/-- Where every call of `writef` stores its bytes, so is writing. -/
theorem romfsWriteROn_intact (fd : Nat) (ptr : List UInt8) (st : RomfsState) :
    romfsWriteROn .intact fd ptr st = romfsWriteR fd ptr st := rfl

/-- And closing. -/
theorem romfsCloseROn_intact (fd : Nat) (st : RomfsState) :
    romfsCloseROn .intact fd st = romfsCloseR fd st := rfl

end Alcor.Romfs
