-- SUMMARY: The shared types of the system: errors, offsets, messages and records.
import Volant.Base.LittleEndian

/-!
# Core types

The types of `volant-core` that storage and broker share. Offsets and sizes
are natural numbers; the places where the code's fixed width shows (a
saturating successor, a cast to a narrower field) name the width.
-/

namespace Volant

def u16Max : Nat := 2 ^ 16 - 1
def u32Max : Nat := 2 ^ 32 - 1
def u64Max : Nat := 2 ^ 64 - 1
/-- The targets are 64-bit, so `usize::MAX` is `u64::MAX`. -/
def usizeMax : Nat := u64Max

/-- `saturating_add` on a 64-bit unsigned integer. -/
def saturatingAdd (a b : Nat) : Nat := min (a + b) u64Max

/-- A value brought into the range of a signed integer of `w` bits. -/
def saturateSigned (w : Nat) (a : Int) : Int := max (min a (2 ^ (w - 1) - 1)) (-2 ^ (w - 1))

/-- The cast of an unsigned integer to a signed one of `w` bits. -/
def castSigned (w n : Nat) : Int := Int.bmod n (2 ^ w)

/-- The I/O failures that the modelled file operations can report. -/
inductive IoErrorKind where
  | notFound
  | alreadyExists
  | unexpectedEof
deriving DecidableEq, Repr

inductive Error where
  | io (kind : IoErrorKind)
  | protocol (msg : String)
  | storage (msg : String)
  | notFound (msg : String)
  | invalidArgument (msg : String)
  | notImplemented (what : String)
deriving DecidableEq, Repr

/-- The offset after this one. It saturates at `u64::MAX`. -/
def Offset.next (o : Nat) : Nat := saturatingAdd o 1

theorem Offset.next_of_lt {o : Nat} (h : o < u64Max) : Offset.next o = o + 1 := by
  unfold Offset.next saturatingAdd
  omega

/-- A produce-side message before an offset is assigned. -/
structure Message where
  key : Option Bytes
  value : Bytes
  timestampMs : Option Int64
  headers : List (String × Bytes)
deriving DecidableEq, Repr

/-- A single append-only log record. -/
structure Record where
  offset : Nat
  key : Option Bytes
  value : Bytes
  timestampMs : Int64
  headers : List (String × Bytes)
deriving DecidableEq, Repr

/-- The record a message becomes once it has an offset and a timestamp. -/
def Message.toRecord (m : Message) (offset : Nat) (timestampMs : Int64) : Record where
  offset := offset
  key := m.key
  value := m.value
  timestampMs := timestampMs
  headers := m.headers

/-- The message that re-appends a stored record, with its timestamp fixed. -/
def Record.toMessage (r : Record) : Message where
  key := r.key
  value := r.value
  timestampMs := some r.timestampMs
  headers := r.headers

@[simp] theorem Message.toRecord_offset (m : Message) (o : Nat) (t : Int64) :
    (m.toRecord o t).offset = o := rfl

@[simp] theorem Record.toMessage_toRecord (r : Record) :
    r.toMessage.toRecord r.offset r.timestampMs = r := rfl

end Volant
