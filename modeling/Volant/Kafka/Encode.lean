-- SUMMARY: Model of the record sets of a Kafka fetch response: data batches, control batches and message sets.
import Volant.Kafka.Codec

/-!
# Record sets of fetch responses

The encoders of `kafka/codec.rs` and the assembly of a response's record set in
`kafka/produce_fetch.rs`. Subtractions wrap, as they do without overflow checks.
-/

namespace Volant.Kafka

def putI8 (n : Int8) : Bytes := BigEndian.encode 1 n.toUInt8.toNat

def putI16 (n : Int16) : Bytes := BigEndian.encode 2 n.toUInt16.toNat

def putI32 (n : Int32) : Bytes := BigEndian.encode 4 n.toUInt32.toNat

def putU32 (n : UInt32) : Bytes := BigEndian.encode 4 n.toNat

def putI64 (n : Int64) : Bytes := BigEndian.encode 8 n.toUInt64.toNat

/-- Nullable bytes, with a length in front. -/
def putBytes : Option Bytes → Bytes
  | none => putI32 (-1)
  | some v => putI32 (Int32.ofNat v.length) ++ v

def writeVarintLoop (value : UInt32) : Bytes :=
  if value &&& ~~~0x7f = 0 then [value.toUInt8]
  else ((value &&& 0x7f) ||| 0x80).toUInt8 :: writeVarintLoop (value >>> 7)
termination_by value.toNat
decreasing_by
  rename_i hlarge
  have hpos : value.toNat ≠ 0 := by
    intro hzero
    apply hlarge
    have hvalue : value = 0 := UInt32.toNat_inj.mp (by rw [hzero]; rfl)
    rw [hvalue]
    decide
  rw [UInt32.toNat_shiftRight]
  have hshift : (7 : UInt32).toNat % 32 = 7 := by decide
  rw [hshift, Nat.shiftRight_eq_div_pow]
  omega

def writeVarint (n : Int32) : Bytes := writeVarintLoop ((n <<< 1) ^^^ (n >>> 31)).toUInt32

/-! ## Record batches -/

def encodeRecordKey : Option Bytes → Bytes
  | none => writeVarint (-1)
  | some k => writeVarint (Int32.ofNat k.length) ++ k

def encodeRecordHeader (h : String × Bytes) : Bytes :=
  let k := h.1.toUTF8.data.toList
  writeVarint (Int32.ofNat k.length) ++ k ++ writeVarint (Int32.ofNat h.2.length) ++ h.2

def encodeDefaultRecord (r : Record) (firstTimestamp : Int64) (offsetDelta : Int32) : Bytes :=
  let body := putI8 0 ++ writeVarint (r.timestampMs - firstTimestamp).toInt32 ++
    writeVarint offsetDelta ++ encodeRecordKey r.key ++
    writeVarint (Int32.ofNat r.value.length) ++ r.value ++
    writeVarint (Int32.ofNat r.headers.length) ++ r.headers.flatMap encodeRecordHeader
  writeVarint (Int32.ofNat body.length) ++ body

/-- The fields in front of the records of a batch, from the attributes on. -/
structure BatchFields where
  attributes : Int16
  lastOffsetDelta : Int32
  firstTimestamp : Int64
  maxTimestamp : Int64
  producer : RecordBatchProducer
  recordsCount : Int32

def BatchFields.encode (f : BatchFields) : Bytes :=
  putI16 f.attributes ++ putI32 f.lastOffsetDelta ++ putI64 f.firstTimestamp ++
    putI64 f.maxTimestamp ++ putI64 f.producer.producerId ++ putI16 f.producer.producerEpoch ++
    putI32 f.producer.baseSequence ++ putI32 f.recordsCount

section

variable (lib : Crates)

/-- The end of both batch encoders: length, leader epoch, magic and checksum go in front. -/
def finishBatch (baseOffset : Int64) (f : BatchFields) (recordsPayload : Bytes) : Bytes :=
  let crcPayload := f.encode ++ recordsPayload
  putI64 baseOffset ++ putI32 (Int32.ofNat (4 + 1 + 4 + crcPayload.length)) ++ putI32 (-1) ++
    putI8 2 ++ putU32 (lib.crc32c crcPayload) ++ crcPayload

/-- `saturating_sub(1)` on a 32-bit signed integer. -/
def saturatingPredI32 (n : Int32) : Int32 := Int32.ofInt (saturateSigned 32 (n.toInt - 1))

/-- `raw() as i64`. -/
def offsetAsI64 (offset : Nat) : Int64 := (UInt64.ofNat offset).toInt64

variable (records : List Record) (codec : CompressionCodec)

/-- The records of a batch one after the other, numbered from zero. -/
def encodeRecords (firstTimestamp : Int64) : Bytes :=
  (records.zipIdx.map fun p => encodeDefaultRecord p.1 firstTimestamp (Int32.ofNat p.2)).flatten

def encodeRecordBatchWithOptions (producer : RecordBatchProducer) : Except Error Bytes :=
  match records with
  | [] => .ok []
  | first :: rest =>
    let recordsBuf := encodeRecords records first.timestampMs
    match if codec = .none then .ok recordsBuf else lib.compress codec recordsBuf with
    | .error e => .error e
    | .ok recordsPayload =>
      .ok (finishBatch lib (offsetAsI64 first.offset)
        { attributes := (codec.asU8).toUInt16.toInt16
          lastOffsetDelta := saturatingPredI32 (Int32.ofNat records.length)
          firstTimestamp := first.timestampMs
          maxTimestamp := rest.foldl (fun m r => max m r.timestampMs) first.timestampMs
          producer := producer
          recordsCount := Int32.ofNat records.length } recordsPayload)

/-- Without compression the encoder does not fail. -/
def encodeRecordBatch : Bytes :=
  (encodeRecordBatchWithOptions lib records .none .NONE).toOption.getD []

def encodeRecordBatchCompressed : Except Error Bytes :=
  encodeRecordBatchWithOptions lib records codec .NONE

/-! ## Transaction markers -/

inductive ControlMarkerType where
  | abort
  | commit
deriving DecidableEq, Repr

def ControlMarkerType.fromI16 (v : Int16) : Option ControlMarkerType :=
  if v = 0 then some .abort else if v = 1 then some .commit else none

def ControlMarkerType.asI16 : ControlMarkerType → Int16
  | .abort => 0
  | .commit => 1

def TXN_CONTROL_HEADER : String := "volant.control"
def TXN_CONTROL_HEADER_VALUE : Bytes := "txn_marker".toUTF8.data.toList
def TXN_CONTROL_PID_HEADER : String := "volant.txn.pid"
def TXN_CONTROL_EPOCH_HEADER : String := "volant.txn.epoch"

def isTxnControlRecord (r : Record) : Bool :=
  r.headers.any fun h => h.1 == TXN_CONTROL_HEADER && h.2 == TXN_CONTROL_HEADER_VALUE

structure TxnControlMarker where
  markerType : ControlMarkerType
  producerId : Int64
  producerEpoch : Int16
  coordinatorEpoch : Int32
deriving DecidableEq, Repr

/-- The last header of each name counts. -/
def controlProducer (headers : List (String × Bytes)) : Int64 × Int16 :=
  headers.foldl (fun (pid, epoch) h =>
    if h.1 = TXN_CONTROL_PID_HEADER ∧ 8 ≤ h.2.length then
      ((UInt64.ofNat (BigEndian.decode (h.2.take 8))).toInt64, epoch)
    else if h.1 = TXN_CONTROL_EPOCH_HEADER ∧ 2 ≤ h.2.length then
      (pid, (UInt16.ofNat (BigEndian.decode (h.2.take 2))).toInt16)
    else (pid, epoch)) (-1, -1)

def parseTxnControlRecord (r : Record) : Option TxnControlMarker :=
  if !isTxnControlRecord r then none
  else do
    let key ← r.key
    if key.length < 4 then none
    else
      let markerType ← ControlMarkerType.fromI16
        (UInt16.ofNat (BigEndian.decode ((key.drop 2).take 2))).toInt16
      some { markerType
             producerId := (controlProducer r.headers).1
             producerEpoch := (controlProducer r.headers).2
             coordinatorEpoch := if 6 ≤ r.value.length then
               (UInt32.ofNat (BigEndian.decode ((r.value.drop 2).take 4))).toInt32 else 0 }

def RECORD_BATCH_ATTR_TXN_CONTROL : Int16 := 0x10 ||| 0x20

def encodeControlRecordBatch (baseOffset : Int64) (marker : TxnControlMarker)
    (timestampMs : Int64) : Bytes :=
  let recBody := putI8 0 ++ writeVarint 0 ++ writeVarint 0 ++ writeVarint 4 ++ putI16 0 ++
    putI16 marker.markerType.asI16 ++ writeVarint 6 ++ putI16 0 ++ putI32 marker.coordinatorEpoch ++
    writeVarint 0
  finishBatch lib baseOffset
    { attributes := RECORD_BATCH_ATTR_TXN_CONTROL
      lastOffsetDelta := 0
      firstTimestamp := timestampMs
      maxTimestamp := timestampMs
      producer := { producerId := marker.producerId
                    producerEpoch := marker.producerEpoch
                    baseSequence := -1 }
      recordsCount := 1 }
    (writeVarint (Int32.ofNat recBody.length) ++ recBody)

/-! ## Message sets -/

/-- A message from the magic on, with its offset, size and checksum in front. -/
def finishMessage (offset : Int64) (msg : Bytes) : Bytes :=
  putI64 offset ++ putI32 (Int32.ofNat (4 + msg.length)) ++ putU32 (lib.crc32 msg) ++ msg

def encodeMessage (r : Record) : Bytes :=
  finishMessage lib (offsetAsI64 r.offset)
    (putI8 1 ++ putI8 0 ++ putI64 r.timestampMs ++ putBytes r.key ++ putBytes (some r.value))

def encodeMessageSet : Bytes := records.flatMap (encodeMessage lib)

/-- Message sets have no zstd. -/
def messageSetCodec : CompressionCodec → CompressionCodec
  | .zstd => .lz4
  | codec => codec

def encodeMessageSetCompressed : Except Error Bytes :=
  match records with
  | [] => .ok []
  | first :: rest =>
    if codec = .none then .ok (encodeMessageSet lib records)
    else
      match lib.compress (messageSetCodec codec) (encodeMessageSet lib records) with
      | .error e => .error e
      | .ok compressed =>
        let lastOffset := (rest.getLast?.getD first).offset
        let maxTs := rest.foldl (fun m r => max m r.timestampMs) first.timestampMs
        .ok (finishMessage lib (offsetAsI64 lastOffset)
          (putI8 1 ++ putI8 (messageSetCodec codec).asU8.toInt8 ++ putI64 maxTs ++ putBytes none ++
            putBytes (some compressed)))

/-! ## Fetch responses -/

/-- `flush_data`: falls back to a plain batch when compression fails. -/
def flushData (codec : CompressionCodec) (data : List Record) : Bytes :=
  if data.isEmpty then []
  else if codec = .none then encodeRecordBatch lib data
  else
    match encodeRecordBatchCompressed lib data codec with
    | .ok b => b
    | .error _ => encodeRecordBatch lib data

/-- One record of the loop: a marker ends the data batch in front of it. -/
def fetchStep (codec : CompressionCodec) (s : List Record × Bytes) (r : Record) :
    List Record × Bytes :=
  match parseTxnControlRecord r with
  | some ctrl =>
    ([], s.2 ++ flushData lib codec s.1 ++
      encodeControlRecordBatch lib (offsetAsI64 r.offset) ctrl r.timestampMs)
  | none => (s.1 ++ [r], s.2)

def encodeFetchRecordBatches : Bytes :=
  let s := records.foldl (fetchStep lib codec) ([], [])
  s.2 ++ flushData lib codec s.1

/-- The record set of a partition in a fetch response of this version. -/
def encodeFetchRecordSet (codec : CompressionCodec) (records : List Record) (version : Int16) :
    Bytes :=
  if records.isEmpty then []
  else if version < 4 then
    let data := records.filter fun r => !isTxnControlRecord r
    if data.isEmpty then []
    else if codec = .none then encodeMessageSet lib data
    else
      match encodeMessageSetCompressed lib data codec with
      | .ok set => set
      | .error _ => encodeMessageSet lib data
  else encodeFetchRecordBatches lib records codec

end

end Volant.Kafka
