-- SUMMARY: On-disk record and segment-header codec, with the round trip for messages whose length fields fit.
import Volant.Core

/-!
# Record codec

The byte format of segment files: a 32-byte header, then records. A record is
a length prefix, a checksum and a body; the checksum function is a parameter,
since nothing here depends on which one it is.
-/

namespace Volant.Storage

open List Reader
open LittleEndian (decode decode_encode encode length_encode)

/-- Segment file magic number ("VLNT"). -/
def MAGIC : Nat := 0x564C4E54
def VERSION : Nat := 1
def HEADER_SIZE : Nat := 32
/-- `key_len` value meaning a null (absent) key. -/
def NULL_KEY_LEN : Nat := u32Max

/-! ## Segment header -/

def encodeI64 (t : Int64) : Bytes := encode 8 t.toUInt64.toNat

def decodeI64 (bs : Bytes) : Int64 := (UInt64.ofNat (decode bs)).toInt64

@[simp] theorem length_encodeI64 (t : Int64) : (encodeI64 t).length = 8 := by
  simp [encodeI64]

theorem decodeI64_encodeI64 (t : Int64) : decodeI64 (encodeI64 t) = t := by
  have hlt : t.toUInt64.toNat < 256 ^ 8 := t.toUInt64.toNat_lt
  simp [decodeI64, encodeI64, decode_encode hlt]

def encodeHeader (baseOffset : Nat) (createdAtMs : Int64) : Bytes :=
  encode 4 MAGIC ++ encode 2 VERSION ++ encode 2 0 ++
    encode 8 baseOffset ++ encodeI64 createdAtMs ++ encode 8 0

structure SegmentHeader where
  version : Nat
  flags : Nat
  baseOffset : Nat
  createdAtMs : Int64
deriving DecidableEq, Repr

/-- Rust's `{:#x}`. -/
def hexAlternate (n : Nat) : String := "0x" ++ String.ofList (Nat.toDigits 16 n)

/-- Decode and validate a segment header. -/
def decodeHeader (buf : Bytes) : Except Error SegmentHeader :=
  if buf.length < HEADER_SIZE then
    .error (.storage s!"segment header too short: {buf.length} bytes")
  else
    let magic := decode (buf.take 4)
    if magic ≠ MAGIC then
      .error (.storage ("bad segment magic: " ++ hexAlternate magic ++ ", expected " ++
        hexAlternate MAGIC))
    else
      let version := decode ((buf.drop 4).take 2)
      if version ≠ VERSION then
        .error (.storage s!"unsupported segment version: {version}")
      else
        .ok {
          version := version
          flags := decode ((buf.drop 6).take 2)
          baseOffset := decode ((buf.drop 8).take 8)
          createdAtMs := decodeI64 ((buf.drop 16).take 8) }

@[simp] theorem length_encodeHeader (b : Nat) (t : Int64) :
    (encodeHeader b t).length = HEADER_SIZE := by
  simp [encodeHeader, HEADER_SIZE]

theorem decodeHeader_encodeHeader {b : Nat} (hb : b < 2 ^ 64) (t : Int64) :
    decodeHeader (encodeHeader b t) =
      .ok { version := VERSION, flags := 0, baseOffset := b, createdAtMs := t } := by
  have hmagic : decode (encode 4 MAGIC) = MAGIC :=
    decode_encode (by decide)
  have hversion : decode (encode 2 VERSION) = VERSION :=
    decode_encode (by decide)
  have hflags : decode (encode 2 0) = 0 :=
    decode_encode (by decide)
  have hbase : decode (encode 8 b) = b :=
    decode_encode (by simpa using hb)
  simp [decodeHeader, encodeHeader, HEADER_SIZE, drop_append,
    hmagic, hversion, hflags, hbase, decodeI64_encodeI64]

/-! ## Record encoding -/

def recordBodySize (m : Message) : Nat :=
  let keyField := match m.key with
    | some k => 4 + k.length
    | none => 4
  let headersSize := 4 + (m.headers.map fun h => 2 + h.1.toUTF8.data.toList.length + 4 + h.2.length).sum
  8 + 8 + keyField + 4 + m.value.length + headersSize

/-- The on-disk size of a fully encoded record, length prefix included. -/
def encodedRecordSize (m : Message) : Nat := 4 + 4 + recordBodySize m

def encodeKey : Option Bytes → Bytes
  | some k => encode 4 k.length ++ k
  | none => encode 4 NULL_KEY_LEN

def encodeRecordHeader (h : String × Bytes) : Bytes :=
  encode 2 h.1.toUTF8.data.toList.length ++ h.1.toUTF8.data.toList ++
    encode 4 h.2.length ++ h.2

/-- The fields behind the checksum. -/
def encodeBody (offset : Nat) (timestampMs : Int64) (m : Message) : Bytes :=
  encode 8 offset ++ encodeI64 timestampMs ++ encodeKey m.key ++
    encode 4 m.value.length ++ m.value ++
    encode 4 m.headers.length ++ m.headers.flatMap encodeRecordHeader

def encodeRecord (crc : Bytes → UInt32) (offset : Nat) (timestampMs : Int64) (m : Message) :
    Bytes :=
  let body := encodeBody offset timestampMs m
  encode 4 (4 + body.length) ++ encode 4 (crc body).toNat ++ body

theorem length_encodeKey (k : Option Bytes) :
    (encodeKey k).length = match k with | some k => 4 + k.length | none => 4 := by
  cases k <;> simp [encodeKey]

theorem length_flatMap_encodeRecordHeader (hs : List (String × Bytes)) :
    (hs.flatMap encodeRecordHeader).length =
      (hs.map fun h => 2 + h.1.toUTF8.data.toList.length + 4 + h.2.length).sum := by
  induction hs with
  | nil => rfl
  | cons h hs ih =>
    simp only [flatMap_cons, length_append, ih, map_cons, sum_cons,
      encodeRecordHeader, length_encode]

@[simp] theorem length_encodeBody (o : Nat) (t : Int64) (m : Message) :
    (encodeBody o t m).length = recordBodySize m := by
  simp only [encodeBody, length_append, length_encodeKey, length_flatMap_encodeRecordHeader,
    length_encode, length_encodeI64, recordBodySize]
  omega

@[simp] theorem length_encodeRecord (crc : Bytes → UInt32) (o : Nat) (t : Int64) (m : Message) :
    (encodeRecord crc o t m).length = encodedRecordSize m := by
  simp only [encodeRecord, length_append, length_encode, length_encodeBody,
    encodedRecordSize]

/-! ## Record decoding -/

/-- Result of attempting to decode one record at a position. -/
inductive DecodeStatus where
  | ok (record : Record) (position nextPos size : Nat)
  | incomplete
  | corrupt
deriving DecidableEq, Repr

def readI64 : Reader Int64 := fun buf =>
  if buf.length < 8 then none else some (decodeI64 (buf.take 8), buf.drop 8)

/-- `std::str::from_utf8` followed by `to_string`. -/
def readName (len : Nat) : Reader String := do
  let nameBytes ← Reader.bytes len
  match String.fromUTF8? ⟨nameBytes.toArray⟩ with
  | some name => pure name
  | none => failure

def readRecordHeader : Reader (String × Bytes) := do
  let nameLen ← Reader.uint 2
  let name ← readName nameLen
  let vlen ← Reader.uint 4
  let v ← Reader.bytes vlen
  pure (name, v)

def readKey : Reader (Option Bytes) := do
  let keyLen ← Reader.uint 4
  if keyLen = NULL_KEY_LEN then pure none
  else
    let k ← Reader.bytes keyLen
    pure (some k)

/-- The reader fails where the code returns an error; the only caller maps every error to
`DecodeStatus.corrupt`, so the error's text is not kept. -/
def parseBody : Reader Record := do
  let offset ← Reader.uint 8
  let timestampMs ← readI64
  let key ← readKey
  let valueLen ← Reader.uint 4
  let value ← Reader.bytes valueLen
  let headerCount ← Reader.uint 4
  let headers ← Reader.times headerCount readRecordHeader
  pure { offset, key, value, timestampMs, headers }

/-- Try to decode one record starting at `pos` within `data`. -/
def decodeRecordAt (crc : Bytes → UInt32) (data : Bytes) (pos : Nat) : DecodeStatus :=
  if data.length < pos + 4 then .incomplete
  else
    let recordLength := decode ((data.drop pos).take 4)
    -- Must at least hold the crc field.
    if recordLength < 4 then .corrupt
    else
      let total := 4 + recordLength
      if data.length < pos + total then .incomplete
      else
        let rec_ := (data.drop (pos + 4)).take recordLength
        let storedCrc := decode (rec_.take 4)
        let body := rec_.drop 4
        if storedCrc ≠ (crc body).toNat then .corrupt
        else
          -- Bytes of the body behind the last header are ignored.
          match parseBody body with
          | some (record, _) => .ok record pos (pos + total) total
          | none => .corrupt

/-! ## Round trip -/

/-- Every length field of the encoding fits its width. The lengths of the key,
the value and the header values are below the record length, so bounding
that one and the 16-bit header names is enough; it also keeps a key length
away from `NULL_KEY_LEN`. -/
structure Message.Fits (m : Message) : Prop where
  recordLength : 4 + recordBodySize m < 2 ^ 32
  names : ∀ h ∈ m.headers, h.1.toUTF8.data.toList.length < 2 ^ 16

instance (m : Message) : Decidable (Message.Fits m) :=
  decidable_of_iff (4 + recordBodySize m < 2 ^ 32 ∧
      ∀ h ∈ m.headers, h.1.toUTF8.data.toList.length < 2 ^ 16)
    ⟨fun h => ⟨h.1, h.2⟩, fun h => ⟨h.1, h.2⟩⟩

theorem readI64_encodeI64 (t : Int64) (rest : Bytes) :
    readI64 (encodeI64 t ++ rest) = some (t, rest) := by
  have hlen : ¬ (encodeI64 t ++ rest).length < 8 := by simp
  rw [readI64, if_neg hlen, take_left' (length_encodeI64 t),
    drop_left' (length_encodeI64 t), decodeI64_encodeI64]

theorem readName_toUTF8 (s : String) (rest : Bytes) :
    readName s.toUTF8.data.toList.length (s.toUTF8.data.toList ++ rest) = some (s, rest) := by
  have hutf : String.fromUTF8? ⟨s.toUTF8.data.toList.toArray⟩ = some s := by
    have hbytes : (⟨s.toUTF8.data.toList.toArray⟩ : ByteArray) = s.toByteArray := by simp
    rw [hbytes, String.fromUTF8?, dif_pos s.isValidUTF8]
    rfl
  rw [readName, bind_run (bytes_append _ rest), hutf]
  rfl

theorem readKey_encodeKey {k : Option Bytes} (h : ∀ b, k = some b → b.length < NULL_KEY_LEN)
    (rest : Bytes) : readKey (encodeKey k ++ rest) = some (k, rest) := by
  cases k with
  | none =>
    rfl
  | some b =>
    have hb := h b rfl
    have hlt : b.length < 256 ^ 4 := by
      unfold NULL_KEY_LEN u32Max at hb
      omega
    rw [readKey, encodeKey, append_assoc, bind_run (uint_encode hlt _),
      if_neg (by omega), bind_run (bytes_append b rest)]
    rfl

theorem readRecordHeader_encode {h : String × Bytes}
    (hname : h.1.toUTF8.data.toList.length < 2 ^ 16) (hvalue : h.2.length < 2 ^ 32)
    (rest : Bytes) : readRecordHeader (encodeRecordHeader h ++ rest) = some (h, rest) := by
  simp only [readRecordHeader, encodeRecordHeader, append_assoc]
  rw [bind_run (uint_encode (by simpa using hname) _),
    bind_run (readName_toUTF8 _ _),
    bind_run (uint_encode (by simpa using hvalue) _),
    bind_run (bytes_append _ _)]
  rfl

/-- A header's value is part of the record it belongs to. -/
private theorem headerValue_le_bodySize {m : Message} {h : String × Bytes} (hm : h ∈ m.headers) :
    h.2.length ≤ recordBodySize m := by
  have hle := single_le_sum (by simp)
    (2 + h.1.toUTF8.data.toList.length + 4 + h.2.length)
    (mem_map_of_mem (f := fun h : String × Bytes =>
      2 + h.1.toUTF8.data.toList.length + 4 + h.2.length) hm)
  simp only [recordBodySize]
  omega

private theorem headers_le_bodySize (m : Message) : m.headers.length ≤ recordBodySize m := by
  have hle : m.headers.length ≤
      (m.headers.map fun h => 2 + h.1.toUTF8.data.toList.length + 4 + h.2.length).sum := by
    induction m.headers with
    | nil => simp
    | cons h hs ih =>
      simp only [length_cons, map_cons, sum_cons]
      omega
  simp only [recordBodySize]
  omega

theorem parseBody_encodeBody {m : Message} (hm : Message.Fits m) {o : Nat} (ho : o < 2 ^ 64)
    (t : Int64) : parseBody (encodeBody o t m) = some (m.toRecord o t, []) := by
  have hlen := hm.recordLength
  have hkey : ∀ b, m.key = some b → b.length < NULL_KEY_LEN := by
    intro b hb
    simp only [recordBodySize, hb] at hlen
    unfold NULL_KEY_LEN u32Max
    omega
  have hvalue : m.value.length < 256 ^ 4 := by
    simp only [recordBodySize] at hlen
    omega
  have hcount : m.headers.length < 256 ^ 4 := by
    have := headers_le_bodySize m
    omega
  have hheaders : ∀ h ∈ m.headers, ∀ tail,
      readRecordHeader (encodeRecordHeader h ++ tail) = some (h, tail) := by
    intro h hmem tail
    have := headerValue_le_bodySize hmem
    exact readRecordHeader_encode (hm.names h hmem) (by omega) tail
  have htimes := times_flatMap [] hheaders
  simp only [parseBody, encodeBody, append_assoc, append_nil] at htimes ⊢
  rw [bind_run (uint_encode (by simpa using ho) _),
    bind_run (readI64_encodeI64 _ _), bind_run (readKey_encodeKey hkey _),
    bind_run (uint_encode hvalue _), bind_run (bytes_append _ _),
    bind_run (uint_encode hcount _), bind_run htimes]
  rfl

/-- Decoding at the position of an encoded record gives the record back, whatever stands before
and behind it. -/
theorem decodeRecordAt_encodeRecord (crc : Bytes → UInt32) {m : Message} (hm : Message.Fits m)
    {o : Nat} (ho : o < 2 ^ 64) (t : Int64) (before after : Bytes) :
    decodeRecordAt crc (before ++ (encodeRecord crc o t m ++ after)) before.length =
      .ok (m.toRecord o t) before.length (before.length + encodedRecordSize m)
        (encodedRecordSize m) := by
  have hlen := hm.recordLength
  have hlength : decode (encode 4 (4 + recordBodySize m)) =
      4 + recordBodySize m := decode_encode (by simpa using hlen)
  have hcrc : decode (encode 4 (crc (encodeBody o t m)).toNat) =
      (crc (encodeBody o t m)).toNat := decode_encode (crc _).toNat_lt
  have hsize : encodedRecordSize m = 4 + (4 + recordBodySize m) := by
    unfold encodedRecordSize
    omega
  unfold decodeRecordAt
  have hdrop : (before ++ (encodeRecord crc o t m ++ after)).drop (before.length + 4) =
      encode 4 (crc (encodeBody o t m)).toNat ++ (encodeBody o t m ++ after) := by
    simp [encodeRecord]
  have htake : ((before ++ (encodeRecord crc o t m ++ after)).drop before.length).take 4 =
      encode 4 (4 + recordBodySize m) := by
    simp [encodeRecord]
  have hrec : (encode 4 (crc (encodeBody o t m)).toNat ++
      (encodeBody o t m ++ after)).take (4 + recordBodySize m) =
      encode 4 (crc (encodeBody o t m)).toNat ++ encodeBody o t m := by
    rw [← append_assoc]
    apply take_left'
    simp
  have hlong : (before ++ (encodeRecord crc o t m ++ after)).length =
      before.length + encodedRecordSize m + after.length := by
    simp
    omega
  have hbody : (encode 4 (crc (encodeBody o t m)).toNat ++ encodeBody o t m).drop 4 =
      encodeBody o t m := drop_left' (length_encode 4 _)
  have hstored : (encode 4 (crc (encodeBody o t m)).toNat ++
      encodeBody o t m).take 4 = encode 4 (crc (encodeBody o t m)).toNat :=
    take_left' (length_encode 4 _)
  simp only [htake, hlength, hdrop, hrec, hstored, hbody, hcrc, hlong, hsize]
  rw [if_neg (by omega), if_neg (by omega), if_neg (by omega), if_neg (by simp),
    parseBody_encodeBody hm ho t]

end Volant.Storage
