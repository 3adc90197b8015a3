-- SUMMARY: Model of the file-backed store of consumer offsets.
import Mathlib.Data.String.Basic
import Volant.Base.FileTree
import Volant.Broker.Txn

/-!
# The offset store

Every committed offset is a file of its own, at the group's name, the topic's
name and the partition below the store's root. The functions are those of the
broker's `offset_store.rs` over a tree of files.
-/

namespace Volant.Broker

open FileTree

/-- Stands for an offset that is not committed. -/
def offsetUnknown : Nat := u64Max

def leaderEpochUnknown : Int := -1

structure StoredOffset where
  topic : String
  partition : Nat
  offset : Nat
  metadata : String
  leaderEpoch : Int
deriving DecidableEq, Repr

/-- The order of a listing. -/
def StoredOffset.le (a b : StoredOffset) : Bool :=
  decide (a.topic < b.topic ∨ a.topic = b.topic ∧ a.partition ≤ b.partition)

def CommittedOffset.encode (e : CommittedOffset) : Bytes :=
  LittleEndian.encode 8 e.offset ++ LittleEndian.encode 2 e.metadata.toUTF8.data.toList.length ++
    e.metadata.toUTF8.data.toList ++ LittleEndian.encode 4 (e.leaderEpoch % 2 ^ 32).toNat

/-- The ranges of the bytes that follow a first byte in a well-formed character. -/
def followers (first : UInt8) : Option (List (UInt8 × UInt8)) :=
  if first < 0x80 then some []
  else if first < 0xC2 then none
  else if first < 0xE0 then some [(0x80, 0xBF)]
  else if first < 0xF0 then
    some [(if first = 0xE0 then 0xA0 else 0x80, if first = 0xED then 0x9F else 0xBF), (0x80, 0xBF)]
  else if first < 0xF5 then
    some [(if first = 0xF0 then 0x90 else 0x80, if first = 0xF4 then 0x8F else 0xBF), (0x80, 0xBF),
      (0x80, 0xBF)]
  else none

/-- How many of the ranges the bytes meet, one after the other. -/
def following : List (UInt8 × UInt8) → Bytes → Nat
  | range :: ranges, b :: bytes =>
    if range.1 ≤ b ∧ b ≤ range.2 then following ranges bytes + 1 else 0
  | _, _ => 0

/-- The characters, with U+FFFD for the longest beginning of one where it breaks off. Every piece
has a byte, so the number of bytes is enough fuel. -/
def lossyPieces : Nat → Bytes → List String
  | fuel + 1, first :: rest =>
    match followers first with
    | none => "\uFFFD" :: lossyPieces fuel rest
    | some ranges =>
      let n := following ranges rest
      let piece := if n < ranges.length then none
        else String.fromUTF8? ⟨(first :: rest.take n).toArray⟩
      piece.getD "\uFFFD" :: lossyPieces fuel (rest.drop n)
  | _, _ => []

/-- `String::from_utf8_lossy`. -/
def fromUtf8Lossy (bytes : Bytes) : String :=
  match String.fromUTF8? ⟨bytes.toArray⟩ with
  | some s => s
  | none => String.join (lossyPieces bytes.length bytes)

-- a broken character of two bytes, a lone byte and a letter
example : lossyPieces 4 [0xE2, 0x82, 0xFF, 0x41] = ["\uFFFD", "\uFFFD", "A"] := by decide +kernel

/-- The number a decimal file name stands for, if it fits 32 bits. -/
def parseU32 (name : String) : Option Nat :=
  let digits := match name.toList with
    | '+' :: rest => rest
    | digits => digits
  if digits.isEmpty || !digits.all Char.isDigit then none
  else
    let n := Nat.ofDigitChars 10 digits 0
    if n < 2 ^ 32 then some n else none

namespace OffsetStore

/-- The store's directory. -/
def rootIn (dataDir : Path) : Path := dataDir ++ ["__consumer_offsets"]

def new (t : Tree) (dataDir : Path) : Except Error Tree :=
  match createDirAll t (rootIn dataDir) with
  | .error e => .error (.storage s!"create offset store {display (rootIn dataDir)}: {e}")
  | .ok t => .ok t

def entryPath (root : Path) (groupId topic : String) (partition : Nat) : Path :=
  join (join (join root (sanitize groupId)) (sanitize topic)) (toString partition)

/-- The path with another last name, `with_extension("tmp")` on a name without a dot. -/
def tmpPath (path : Path) (partition : Nat) : Path := path.dropLast ++ [toString partition ++ ".tmp"]

/-- Writes a temporary file and moves it in place. A failed commit may leave directories and an
empty temporary file. -/
def commitWithEpoch (t : Tree) (root : Path) (groupId topic : String) (partition : Nat)
    (entry : CommittedOffset) : Except Error Unit × Tree :=
  let path := entryPath root groupId topic partition
  match createDirAll t path.dropLast with
  | .error e => (.error (.storage s!"create offset dir {display path.dropLast}: {e}"), t)
  | .ok t =>
    let tmp := tmpPath path partition
    match writeFile t tmp [] with
    | .error e => (.error (.storage s!"open offset tmp: {e}"), t)
    | .ok t =>
      if u16Max < entry.metadata.toUTF8.data.toList.length then
        (.error (.invalidArgument "offset metadata too long"), t)
      else
        match writeFile t tmp entry.encode with
        | .error e => (.error (.storage s!"write offset: {e}"), t)
        | .ok t =>
          match rename t tmp path with
          | .error e => (.error (.storage s!"rename offset file: {e}"), t)
          | .ok t => (.ok (), t)

/-- Files without the epoch, as older versions wrote them, read as `-1`. -/
def decodeEntry (path : Path) (buf : Bytes) : Except Error CommittedOffset :=
  if buf.length < 10 then .error (.storage s!"corrupt offset file {display path}")
  else
    let metaLen := LittleEndian.decode ((buf.drop 8).take 2)
    if buf.length < 10 + metaLen then .error (.storage s!"corrupt offset metadata {display path}")
    else
      .ok { offset := LittleEndian.decode (buf.take 8)
            metadata := fromUtf8Lossy ((buf.drop 10).take metaLen)
            leaderEpoch := if 10 + metaLen + 4 ≤ buf.length then
              castSigned 32 (LittleEndian.decode ((buf.drop (10 + metaLen)).take 4))
              else leaderEpochUnknown }

def unknownOffset : CommittedOffset :=
  { offset := offsetUnknown, metadata := "", leaderEpoch := leaderEpochUnknown }

def fetch (t : Tree) (root : Path) (groupId topic : String) (partition : Nat) :
    Except Error CommittedOffset :=
  let path := entryPath root groupId topic partition
  if !pathExists t path then .ok unknownOffset
  else
    match readFile t path with
    | .error e => .error (.storage s!"read offset: {e}")
    | .ok buf => decodeEntry path buf

/-- Removes a directory if it is empty. -/
def prune (t : Tree) (path : Path) : Tree :=
  match removeDir t path with
  | .error _ => t
  | .ok t => t

def delete (t : Tree) (root : Path) (groupId topic : String) (partition : Nat) :
    Except Error Bool × Tree :=
  let path := entryPath root groupId topic partition
  if !pathExists t path then (.ok false, t)
  else
    match removeFile t path with
    | .error e => (.error (.storage s!"delete offset {display path}: {e}"), t)
    | .ok t => (.ok true, prune (prune t path.dropLast) path.dropLast.dropLast)

/-- The listing of one file of a topic. Other files are skipped, and so is an unknown offset. -/
def fetchPart (t : Tree) (root : Path) (groupId topic : String) (entry : String × Node) :
    Except Error (List StoredOffset) :=
  match entry.2 with
  | .dir => .ok []
  | .file _ =>
    if ".tmp".toList.isSuffixOf entry.1.toList then .ok []
    else
      match parseU32 entry.1 with
      | none => .ok []
      | some partition => do
        let e ← fetch t root groupId topic partition
        if e.offset = offsetUnknown then .ok []
        else .ok [{ topic, partition, offset := e.offset, metadata := e.metadata,
                    leaderEpoch := e.leaderEpoch }]

def fetchTopic (t : Tree) (root : Path) (groupId : String) (groupDir : Path)
    (entry : String × Node) : Except Error (List StoredOffset) :=
  match entry.2 with
  | .file _ => .ok []
  | .dir =>
    match readDir t (groupDir ++ [entry.1]) with
    | .error e => .error (.storage s!"read topic offsets: {e}")
    | .ok parts => do
      let out ← parts.mapM (fetchPart t root groupId entry.1)
      .ok out.flatten

def fetchAll (t : Tree) (root : Path) (groupId : String) : Except Error (List StoredOffset) :=
  let groupDir := join root (sanitize groupId)
  if !pathExists t groupDir then .ok []
  else
    match readDir t groupDir with
    | .error e => .error (.storage s!"read group offsets: {e}")
    | .ok topics => do
      let out ← topics.mapM (fetchTopic t root groupId groupDir)
      .ok (out.flatten.insertionSort (fun a b => a.le b = true))

end OffsetStore

end Volant.Broker
