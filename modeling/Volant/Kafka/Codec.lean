-- SUMMARY: Model of the Kafka record codec: message sets, record batches and their varints.
import Volant.Base.BigEndian
import Volant.Base.Exec
import Volant.Storage.Record

/-!
# The Kafka record codec

The decoders and encoders of `kafka/codec.rs`, with the integer types of the
source. A decoder reads from the front of a byte string. It ends with a value,
with an error, or in a panic: a read past the end of the bytes or a shift by the
width of the integer or more. It also notes every capacity that it reserves
before it has read what goes there. The checksums and the compressors are those
of other crates, and are parameters; the framing of `kafka/compress.rs` around
them is not.
-/

namespace Volant.Kafka

open Storage (hexAlternate)

/-! ## Decoders -/

inductive Stop where
  | err (e : Error)
  | panic
deriving DecidableEq, Repr

/-- What was reserved on the way, and how it ended. -/
structure Outcome (α : Type) where
  reserved : List Nat
  result : Except Stop α

/-- Goes on with a result, and adds what is reserved after it. -/
def Outcome.andThen {α β : Type} (o : Outcome α) (f : α → Outcome β) : Outcome β :=
  match o.result with
  | .error stop => ⟨o.reserved, .error stop⟩
  | .ok a => ⟨o.reserved ++ (f a).reserved, (f a).result⟩

def Decoder (α : Type) := Bytes → Outcome (α × Bytes)

instance : Monad Decoder where
  pure a := fun src => ⟨[], .ok (a, src)⟩
  bind d f := fun src => (d src).andThen fun r => f r.1 r.2

namespace Decoder

variable {α : Type}

def fail (msg : String) : Decoder α := fun _ => ⟨[], .error (.err (.protocol msg))⟩

def ensure (ok : Prop) [Decidable ok] (msg : String) : Decoder Unit :=
  if ok then pure () else fail msg

def lift (r : Except Error α) : Decoder α := fun src =>
  ⟨[], match r with
    | .error e => .error (.err e)
    | .ok a => .ok (a, src)⟩

/-- `Vec::with_capacity`. -/
def reserve (n : Nat) : Decoder Unit := fun src => ⟨[n], .ok ((), src)⟩

def remaining : Decoder Nat := fun src => ⟨[], .ok (src.length, src)⟩

/-- The bytes that are left, without reading them. -/
def chunk : Decoder Bytes := fun src => ⟨[], .ok (src, src)⟩

/-- The next `n` bytes. Reading past the end is a panic. -/
def take (n : Nat) : Decoder Bytes := fun src =>
  if src.length < n then ⟨[], .error .panic⟩ else ⟨[], .ok (src.take n, src.drop n)⟩

/-- Decodes other bytes, and goes on where it was. -/
def on (bytes : Bytes) (d : Decoder α) : Decoder α := fun src =>
  (d bytes).andThen fun r => ⟨[], .ok (r.1, src)⟩

def times (n : Nat) (d : Decoder α) : Decoder (List α) :=
  match n with
  | 0 => pure []
  | n + 1 => do
    let a ← d
    let as ← times n d
    pure (a :: as)

end Decoder

open Decoder

def getI8 : Decoder Int8 := do
  let bs ← take 1
  pure (UInt8.ofNat (BigEndian.decode bs)).toInt8

def getI16 : Decoder Int16 := do
  let bs ← take 2
  pure (UInt16.ofNat (BigEndian.decode bs)).toInt16

def getI32 : Decoder Int32 := do
  let bs ← take 4
  pure (UInt32.ofNat (BigEndian.decode bs)).toInt32

def getU32 : Decoder UInt32 := do
  let bs ← take 4
  pure (UInt32.ofNat (BigEndian.decode bs))

def getI64 : Decoder Int64 := do
  let bs ← take 8
  pure (UInt64.ofNat (BigEndian.decode bs)).toInt64

/-- `n as usize`, for a number that is not negative. -/
def asUsize (n : Int32) : Nat := n.toInt.toNat

/-- `vec![0u8; len]`, filled from the bytes. -/
def copyToVec (len : Nat) : Decoder Bytes := do
  reserve len
  take len

/-- Nullable bytes: a length, which is negative for null, and the bytes. -/
def getBytes : Decoder (Option Bytes) := do
  let rem ← remaining
  ensure (4 ≤ rem) "truncated kafka bytes len"
  let len ← getI32
  if len < 0 then pure none
  else
    let rem ← remaining
    ensure (asUsize len ≤ rem) "truncated kafka bytes body"
    let buf ← copyToVec (asUsize len)
    pure (some buf)

def readExact (len : Nat) : Decoder Bytes := do
  let rem ← remaining
  ensure (len ≤ rem) "truncated bytes in record"
  copyToVec len

def readVarintLoop (shift : Nat) (result : UInt32) : Decoder UInt32
  | [] => ⟨[], .error (.err (.protocol "truncated varint"))⟩
  | b :: src =>
    -- `<<` by the width of the integer or more overflows.
    if 32 ≤ shift then ⟨[], .error .panic⟩
    else
      let result := result ||| ((b &&& 0x7f).toUInt32 <<< UInt32.ofNat shift)
      if b &&& 0x80 = 0 then ⟨[], .ok (result, src)⟩
      else if 35 < shift + 7 then ⟨[], .error (.err (.protocol "varint too long"))⟩
      else readVarintLoop (shift + 7) result src

/-- A key: a negative length is that of no key. -/
def readNullable (len : Int32) : Decoder (Option Bytes) :=
  if len < 0 then pure none else some <$> readExact (asUsize len)

/-- A value: a negative length is that of an empty one. -/
def readOrEmpty (len : Int32) : Decoder Bytes :=
  if len < 0 then pure [] else readExact (asUsize len)

/-- A signed 32-bit number in the zig-zag form. -/
def readVarint : Decoder Int32 := do
  let result ← readVarintLoop 0 0
  pure ((result >>> 1).toInt32 ^^^ -(result &&& 1).toInt32)

/-! ## Compression -/

inductive CompressionCodec where
  | none
  | gzip
  | snappy
  | lz4
  | zstd
deriving DecidableEq, Repr

/-- The low three bits of the attributes. -/
def CompressionCodec.fromAttributes (attributes : Int16) : Except Error CompressionCodec :=
  match (attributes &&& 0x07).toInt with
  | 0 => .ok .none
  | 1 => .ok .gzip
  | 2 => .ok .snappy
  | 3 => .ok .lz4
  | 4 => .ok .zstd
  | other => .error (.protocol s!"unsupported record batch compression codec {other}")

def CompressionCodec.asU8 : CompressionCodec → UInt8
  | .none => 0
  | .gzip => 1
  | .snappy => 2
  | .lz4 => 3
  | .zstd => 4

structure Coder where
  encode : Bytes → Except String Bytes
  decode : Bytes → Except String Bytes

/-- The functions of other crates that the codec calls. -/
structure Crates where
  crc32 : Bytes → UInt32
  crc32c : Bytes → UInt32
  gzip : Coder
  /-- Single blocks. -/
  snappy : Coder
  lz4Frame : Coder
  lz4SizePrepended : Bytes → Except String Bytes
  /-- A block without its size, and the largest size to try. -/
  lz4Block : Bytes → Nat → Except String Bytes
  zstd : Coder

/-- `map_err` with a text in front of the error. -/
def labelled (text : String) (r : Except String Bytes) : Except Error Bytes :=
  r.mapError fun e => .protocol (text ++ ": " ++ e)

theorem labelled_ok {text : String} {r : Except String Bytes} {out : Bytes} :
    labelled text r = .ok out ↔ r = .ok out := by
  cases r <;> simp [labelled, Except.mapError]

/-- The beginning of a framed snappy stream. -/
def XERIAL_MAGIC : Bytes := [0x82, 83, 78, 65, 80, 80, 89, 0]

namespace Crates

variable (lib : Crates)

/-- The blocks of a framed stream, each behind its length. A block takes at least four bytes, so
the length of the data is enough fuel. -/
def xerialBlocks : Nat → Bytes → Except Error Bytes
  | 0, _ => .ok []
  | fuel + 1, data =>
    if data.length < 4 then .ok []
    else if (data.drop 4).length < BigEndian.decode (data.take 4) then
      .error (.protocol "truncated xerial snappy block")
    else do
      let compLen := BigEndian.decode (data.take 4)
      let piece ← labelled "snappy xerial block" (lib.snappy.decode ((data.drop 4).take compLen))
      let out ← xerialBlocks fuel ((data.drop 4).drop compLen)
      return piece ++ out

def snappyDecompress (data : Bytes) : Except Error Bytes :=
  if XERIAL_MAGIC.isPrefixOf data then
    if data.length < 16 then .error (.protocol "truncated xerial snappy header")
    else lib.xerialBlocks data.length (data.drop 16)
  else labelled "snappy raw decompress" (lib.snappy.decode data)

def snappyCompress (data : Bytes) : Except Error Bytes := do
  let compressed ← labelled "snappy compress" (lib.snappy.encode data)
  -- the version, the oldest compatible version and one block
  return XERIAL_MAGIC ++ (BigEndian.encode 4 1 ++ BigEndian.encode 4 1) ++
    (BigEndian.encode 4 compressed.length ++ compressed)

/-- A frame, a block with its size in front, or a block whose size is guessed. -/
def lz4Decompress (data : Bytes) : Except Error Bytes :=
  let attempts := lib.lz4Frame.decode data :: lib.lz4SizePrepended data ::
    [4, 8, 16, 32, 64].map fun mult => lib.lz4Block data (max (data.length * mult) 1024)
  match attempts.findSome? Except.toOption with
  | some out => .ok out
  | none => .error (.protocol "lz4 decompress failed")

def compress (codec : CompressionCodec) (data : Bytes) : Except Error Bytes :=
  match codec with
  | .none => .ok data
  | .gzip => labelled "gzip compress" (lib.gzip.encode data)
  | .snappy => lib.snappyCompress data
  | .lz4 => labelled "lz4 compress" (lib.lz4Frame.encode data)
  | .zstd => labelled "zstd compress" (lib.zstd.encode data)

def decompress (codec : CompressionCodec) (data : Bytes) : Except Error Bytes :=
  match codec with
  | .none => .ok data
  | .gzip => labelled "gzip decompress" (lib.gzip.decode data)
  | .snappy => lib.snappyDecompress data
  | .lz4 => lib.lz4Decompress data
  | .zstd => labelled "zstd decompress" (lib.zstd.decode data)

end Crates

/-- A checksum, bit by bit, with the polynomial in the reflected order. -/
def crcBitwise (poly : UInt32) (data : Bytes) : UInt32 :=
  ~~~ data.foldl (fun crc b => (List.range 8).foldl
    (fun crc _ => if crc &&& 1 = 1 then (crc >>> 1) ^^^ poly else crc >>> 1)
    (crc ^^^ b.toUInt32)) 0xFFFFFFFF

/-- The checksums, with compressors that store what they are given. -/
def storedCrates : Crates where
  crc32 := crcBitwise 0xEDB88320
  crc32c := crcBitwise 0x82F63B78
  gzip := ⟨.ok, .ok⟩
  snappy := ⟨fun data => if data.length < 2 ^ 32 then .ok data else .error "too big", .ok⟩
  lz4Frame := ⟨.ok, .ok⟩
  lz4SizePrepended := .ok
  lz4Block data _ := .ok data
  zstd := ⟨.ok, .ok⟩

/-! ## Decoding produced records -/

structure RecordBatchProducer where
  producerId : Int64
  producerEpoch : Int16
  baseSequence : Int32
deriving DecidableEq, Repr

def RecordBatchProducer.NONE : RecordBatchProducer :=
  { producerId := -1, producerEpoch := -1, baseSequence := -1 }

structure DecodedRecordBatch where
  producer : RecordBatchProducer
  messages : List Message
deriving DecidableEq, Repr

/-- `saturating_add` on 64-bit signed integers. -/
def saturatingAddI64 (a b : Int64) : Int64 := Int64.ofInt (saturateSigned 64 (a.toInt + b.toInt))

/-- The text of the UTF-8 error itself is left out. -/
def stringFromUtf8 (bytes : Bytes) (what : String) : Except Error String :=
  match String.fromUTF8? ⟨bytes.toArray⟩ with
  | some s => .ok s
  | none => .error (.protocol (what ++ ": invalid utf-8"))

def decodeRecordHeader : Decoder (String × Bytes) := do
  let hkLen ← readVarint
  ensure (0 ≤ hkLen) "negative header key len"
  let hk ← readExact (asUsize hkLen)
  let hk ← lift (stringFromUtf8 hk "header key utf8")
  let hvLen ← readVarint
  let hv ← readOrEmpty hvLen
  pure (hk, hv)

def decodeDefaultRecord (firstTimestamp : Int64) : Decoder Message := do
  let length ← readVarint
  ensure (0 ≤ length) "negative record length"
  let rem ← remaining
  ensure (asUsize length ≤ rem) "truncated record body"
  let _attributes ← getI8
  let timestampDelta ← readVarint
  let _offsetDelta ← readVarint
  let keyLen ← readVarint
  let key ← readNullable keyLen
  let valueLen ← readVarint
  let value ← readOrEmpty valueLen
  let headerCount ← readVarint
  ensure (0 ≤ headerCount) "negative header count"
  reserve (asUsize headerCount)
  let headers ← times (asUsize headerCount) decodeRecordHeader
  pure { key := key
         value := value
         timestampMs := some (saturatingAddI64 firstTimestamp timestampDelta.toInt64)
         headers := headers }

section

variable (lib : Crates)

/-- The fields of a batch that are used, and the bytes of its records. -/
structure BatchHeader where
  producer : RecordBatchProducer
  firstTimestamp : Int64
  recordsCount : Int32
  recordsBytes : Bytes

/-- A compressed batch has one blob of records. -/
def plainRecords (codec : CompressionCodec) (rest : Bytes) : Except Error Bytes :=
  if codec = .none then .ok rest else lib.decompress codec rest

/-- The first part of `decode_one_record_batch`, up to the records. -/
def decodeBatchHeader : Decoder BatchHeader := do
  let len ← remaining
  ensure (49 ≤ len) "truncated record batch header"
  let _leaderEpoch ← getI32
  let magic ← getI8
  ensure (magic = 2) s!"expected record batch magic 2, got {magic}"
  let crc ← getU32
  let crcPayload ← chunk
  ensure (lib.crc32c crcPayload = crc)
    ("record batch crc32c mismatch: got " ++ hexAlternate crc.toNat ++ " want " ++
      hexAlternate (lib.crc32c crcPayload).toNat)
  let attributes ← getI16
  let codec ← lift (CompressionCodec.fromAttributes attributes)
  let _lastOffsetDelta ← getI32
  let firstTimestamp ← getI64
  let _maxTimestamp ← getI64
  let producerId ← getI64
  let producerEpoch ← getI16
  let baseSequence ← getI32
  let recordsCount ← getI32
  ensure (0 ≤ recordsCount) "negative records count"
  let rest ← chunk
  let recordsBytes ← lift (plainRecords lib codec rest)
  pure { producer := { producerId, producerEpoch, baseSequence }
         firstTimestamp, recordsCount, recordsBytes }

/-- The bytes of a batch from the leader epoch on. -/
def decodeOneRecordBatch : Decoder DecodedRecordBatch := do
  let h ← decodeBatchHeader lib
  reserve (asUsize h.recordsCount)
  let messages ←
    on h.recordsBytes (times (asUsize h.recordsCount) (decodeDefaultRecord h.firstTimestamp))
  pure { producer := h.producer, messages := messages }

end

/-- What both formats put in front: an offset and the number of bytes that follow. -/
def frameHead : Decoder Int32 := do
  let _offset ← getI64
  getI32

theorem Decoder.result_bind {α β : Type} {d : Decoder α} {f : α → Decoder β} {src : Bytes}
    {r : β × Bytes} : ((d >>= f) src).result = .ok r ↔
      ∃ a rest, (d src).result = .ok (a, rest) ∧ (f a rest).result = .ok r := by
  simp only [bind, Outcome.andThen]
  cases (d src).result with
  | error stop => simp
  | ok r' =>
    obtain ⟨a, rest⟩ := r'
    simp

theorem Decoder.result_take {n : Nat} {src rest bs : Bytes} :
    (take n src).result = .ok (bs, rest) ↔
      n ≤ src.length ∧ bs = src.take n ∧ rest = src.drop n := by
  unfold take
  split_ifs with hshort
  · simp only [false_iff, not_and]
    omega
  · simp only [Except.ok.injEq, Prod.mk.injEq]
    exact ⟨fun ⟨hbs, hrest⟩ => ⟨by omega, hbs.symm, hrest.symm⟩,
      fun ⟨_, hbs, hrest⟩ => ⟨hbs.symm, hrest.symm⟩⟩

theorem length_of_frameHead {src rest : Bytes} {n : Int32}
    (h : (frameHead src).result = .ok (n, rest)) : rest.length + 12 = src.length := by
  obtain ⟨_, rest₁, hoffset, hlength⟩ := result_bind.mp h
  obtain ⟨_, rest₂, htake, hpure⟩ := result_bind.mp hoffset
  obtain ⟨_, rest₃, htake', hpure'⟩ := result_bind.mp hlength
  cases hpure
  cases hpure'
  obtain ⟨hle, -, rfl⟩ := result_take.mp htake
  obtain ⟨hle', -, rfl⟩ := result_take.mp htake'
  simp only [List.length_drop] at hle' ⊢
  omega

/-- The loop over the frames of a record set. It stops at a frame that is not there in full. -/
def frameLoop {α : Type} (least : Nat) (negative : String) (decodeFrame : Decoder (List α))
    (out : List α) (src : Bytes) : Outcome (List α) :=
  if src.length < least then ⟨[], .ok out⟩
  else
    match _hhead : (frameHead src).result with
    | .error stop => ⟨(frameHead src).reserved, .error stop⟩
    | .ok (size, rest) =>
      if size < 0 then ⟨(frameHead src).reserved, .error (.err (.protocol negative))⟩
      else if rest.length < asUsize size then ⟨(frameHead src).reserved, .ok out⟩
      else
        (decodeFrame (rest.take (asUsize size))).andThen fun r =>
          frameLoop least negative decodeFrame (out ++ r.1) (rest.drop (asUsize size))
termination_by src.length
decreasing_by
  have hlength := length_of_frameHead _hhead
  rw [List.length_drop]
  omega

section

variable (lib : Crates)

/-- Contiguous record batches, with their producers. -/
def decodeRecordBatchesDetailed (data : Bytes) : Outcome (List DecodedRecordBatch) :=
  frameLoop 61 "negative record batch length" (List.singleton <$> decodeOneRecordBatch lib) [] data

def maxMessageSetCompressionDepth : Nat := 3

/-- The older of the two formats has no timestamp. -/
def messageTimestamp (magic : Int8) : Decoder (Option Int64) :=
  if magic = 1 then do
    let rem ← remaining
    ensure (8 ≤ rem) "truncated kafka message timestamp"
    some <$> getI64
  else if magic = 0 then pure none
  else fail s!"unsupported kafka message magic {magic}"

/-- The bytes of one message, from the checksum on. A wrapper gives the messages in it. -/
def decodeMessage (nested : Option (Bytes → Outcome (List Message))) : Decoder (List Message) := do
  let len ← remaining
  ensure (6 ≤ len) "truncated kafka message"
  let crc ← getU32
  let payloadForCrc ← chunk
  ensure (lib.crc32 payloadForCrc = crc)
    ("kafka message crc mismatch: got " ++ hexAlternate crc.toNat ++ " want " ++
      hexAlternate (lib.crc32 payloadForCrc).toNat)
  let magic ← getI8
  let attributes ← getI8
  let timestampMs ← messageTimestamp magic
  let key ← getBytes
  let value ← getBytes
  let codec ← lift (CompressionCodec.fromAttributes (attributes &&& 0x07).toInt16)
  if codec = .none then
    pure [{ key, value := value.getD [], timestampMs, headers := [] }]
  else
    match nested with
    | none => fail "message set compression nesting too deep"
    | some nested => do
      let plain ← lift (lib.decompress codec (value.getD []))
      fun src => (nested plain).andThen fun messages => ⟨[], .ok (messages, src)⟩

/-- `levels` is how much deeper wrappers may nest. -/
def decodeMessageSetDepth (levels : Nat) (data : Bytes) : Outcome (List Message) :=
  match levels with
  | 0 => frameLoop 12 "negative message size" (decodeMessage lib none) [] data
  | levels + 1 =>
    frameLoop 12 "negative message size" (decodeMessage lib (some (decodeMessageSetDepth levels)))
      [] data

def decodeMessageSet (data : Bytes) : Outcome (List Message) :=
  decodeMessageSetDepth lib maxMessageSetCompressionDepth data

/-- A produced record set, in whichever format it is. -/
def decodeProduceBatches (data : Bytes) : Outcome (List DecodedRecordBatch) :=
  if data.isEmpty then ⟨[], .ok []⟩
  else
    match data[16]? with
    | none => ⟨[], .error (.err (.protocol "kafka records too short"))⟩
    | some magic =>
      if magic = 0 ∨ magic = 1 then
        (decodeMessageSet lib data).andThen fun messages =>
          ⟨[], .ok [{ producer := .NONE, messages := messages }]⟩
      else if magic = 2 then decodeRecordBatchesDetailed lib data
      else ⟨[], .error (.err (.protocol s!"unsupported kafka records magic {magic.toInt8}"))⟩

end

end Volant.Kafka
