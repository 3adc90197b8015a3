-- SUMMARY: What a Kafka consumer reads out of the record set of a fetch response, and when it is the log's records.
import Volant.Kafka.Encode

/-!
# Reading a fetched record set

The reader below is a consumer: it knows the two record formats and nothing of
this broker. In a batch the offset of a record is the batch's base offset plus
the record's delta, and its timestamp is the batch's first timestamp plus a
delta. The broker writes the position of the record in the batch as the delta
of the offset, and the low 32 bits of the difference as that of the timestamp.
-/

namespace Volant.Kafka

open List

/-! ## The consumer -/

structure FetchedRecord where
  offset : Int
  timestamp : Int
  key : Option Bytes
  value : Bytes
  headers : List (String × Bytes)
deriving DecidableEq, Repr

namespace Consumer

open Reader

/-- Bytes behind a length that is negative for null. -/
def nullable (len : Int) : Reader (Option Bytes) :=
  if len < 0 then pure none else some <$> Reader.bytes len.toNat

/-- Nullable bytes behind a varint. -/
def varBytes : Reader (Option Bytes) := do
  let len ← varint
  nullable len

/-- Nullable bytes behind a length of four bytes. -/
def fixedBytes : Reader (Option Bytes) := do
  let len ← intBE 4
  nullable len

def check (ok : Bool) : Reader Unit := if ok then pure () else failure

/-- The bytes that are left. -/
def rest : Reader Bytes := fun buf => some (buf, [])

def lift {α : Type} (o : Option α) : Reader α := fun buf => o.map fun a => (a, buf)

def codecOf (attributes : Nat) : Option CompressionCodec :=
  match attributes % 8 with
  | 0 => some .none
  | 1 => some .gzip
  | 2 => some .snappy
  | 3 => some .lz4
  | 4 => some .zstd
  | _ => none

def header : Reader (String × Bytes) := do
  let keyLen ← varint
  let key ← Reader.bytes keyLen.toNat
  let key ← lift (String.fromUTF8? ⟨key.toArray⟩)
  let value ← varBytes
  pure (key, value.getD [])

/-- The body of a record in a batch. -/
def body (baseOffset firstTimestamp : Int) : Reader FetchedRecord := do
  let _attributes ← uintBE 1
  let timestampDelta ← varint
  let offsetDelta ← varint
  let key ← varBytes
  let value ← varBytes
  let headerCount ← varint
  let headers ← times headerCount.toNat header
  pure { offset := baseOffset + offsetDelta
         timestamp := firstTimestamp + timestampDelta
         key := key
         value := value.getD []
         headers := headers }

def record (baseOffset firstTimestamp : Int) : Reader FetchedRecord := do
  let length ← varint
  let bs ← Reader.bytes length.toNat
  lift (whole (body baseOffset firstTimestamp) bs)

section

variable (lib : Crates)

def plain (codec : CompressionCodec) (data : Bytes) : Option Bytes :=
  if codec = .none then some data else (lib.decompress codec data).toOption

/-- The records of a batch. A control batch has no data. -/
def contents (attributes : Nat) (baseOffset firstTimestamp count : Int) (payload : Bytes) :
    Option (List FetchedRecord) :=
  if attributes.testBit 5 then some []
  else do
    let codec ← codecOf attributes
    let records ← plain lib codec payload
    whole (times count.toNat (record baseOffset firstTimestamp)) records

/-- A batch from its leader epoch on. -/
def batchBody (baseOffset : Int) : Reader (List FetchedRecord) := do
  let _leaderEpoch ← uintBE 4
  let magic ← uintBE 1
  check (magic == 2)
  let crc ← uintBE 4
  let crcPayload ← get
  check ((lib.crc32c crcPayload).toNat == crc)
  let attributes ← uintBE 2
  let _lastOffsetDelta ← uintBE 4
  let firstTimestamp ← intBE 8
  let _maxTimestamp ← uintBE 8
  let _producerId ← uintBE 8
  let _producerEpoch ← uintBE 2
  let _baseSequence ← uintBE 4
  let count ← intBE 4
  let payload ← rest
  lift (contents lib attributes baseOffset firstTimestamp count payload)

def batch : Reader (List FetchedRecord) := do
  let baseOffset ← intBE 8
  let length ← intBE 4
  let bs ← Reader.bytes length.toNat
  lift (whole (batchBody lib baseOffset) bs)

/-- In a wrapper the last offset is that of the wrapper, and the others go with it. -/
def relocate (offset : Int) (records : List FetchedRecord) : List FetchedRecord :=
  match records.getLast? with
  | none => records
  | some last => records.map fun r => { r with offset := r.offset + (offset - last.offset) }

/-- A message, or the messages in a wrapper, which `inner` reads. -/
def messageContents (inner : Bytes → Option (List FetchedRecord)) (attributes : Nat)
    (offset timestamp : Int) (key : Option Bytes) (value : Bytes) : Option (List FetchedRecord) := do
  let codec ← codecOf attributes
  if codec = .none then some [{ offset, timestamp, key, value, headers := [] }]
  else do
    let records ← plain lib codec value
    (inner records).map (relocate offset)

/-- The message format before batches, from its checksum on. -/
def messageBody (inner : Bytes → Option (List FetchedRecord)) (offset : Int) :
    Reader (List FetchedRecord) := do
  let crc ← uintBE 4
  let payload ← get
  check ((lib.crc32 payload).toNat == crc)
  let magic ← uintBE 1
  check (magic == 1)
  let attributes ← uintBE 1
  let timestamp ← intBE 8
  let key ← fixedBytes
  let value ← fixedBytes
  lift (messageContents lib inner attributes offset timestamp key (value.getD []))

def message (inner : Bytes → Option (List FetchedRecord)) : Reader (List FetchedRecord) := do
  let offset ← intBE 8
  let size ← intBE 4
  let bs ← Reader.bytes size.toNat
  lift (whole (messageBody lib inner offset) bs)

/-- A set of plain messages. -/
def innerSet (data : Bytes) : Option (List FetchedRecord) :=
  (all (message lib fun _ => none) data).map List.flatten

/-- A record set in either format: the magic byte is at the same place in both. -/
def recordSet (data : Bytes) : Option (List FetchedRecord) :=
  if data[16]? = some 2 then (all (batch lib) data).map List.flatten
  else (all (message lib (innerSet lib)) data).map List.flatten

end

end Consumer

/-! ## Varints -/

theorem toNat_low_bits (value : UInt32) : (value &&& 0x7f).toNat = value.toNat % 128 :=
  Nat.and_two_pow_sub_one_eq_mod _ 7

theorem and_not_low_bits (value : UInt32) : value &&& ~~~0x7f = 0 ↔ value.toNat < 128 := by
  have hmask : value &&& ~~~0x7f = 0 ↔ value &&& 0x7f = value := by
    have hsplit : (value &&& 0x7f) ||| (value &&& ~~~0x7f) = value := by
      rw [← UInt32.toBitVec_inj, UInt32.toBitVec_or, UInt32.toBitVec_and, UInt32.toBitVec_and,
        UInt32.toBitVec_not, ← BitVec.and_or_distrib_left, BitVec.or_not_self, BitVec.and_allOnes]
    constructor
    · intro h
      rwa [h, UInt32.or_zero] at hsplit
    · intro h
      rw [← h, UInt32.and_assoc, UInt32.and_not_self, UInt32.and_zero]
  have hlow := toNat_low_bits value
  rw [hmask, ← UInt32.toNat_inj]
  omega

theorem sshiftRight_thirtyOne (x : BitVec 32) :
    x.sshiftRight 31 = if x.msb then BitVec.allOnes 32 else 0 := by
  ext i hi
  rw [BitVec.getElem_sshiftRight]
  rcases Nat.eq_zero_or_pos i with rfl | hpos
  · rw [dif_pos (by omega)]
    have hmsb : x[31] = x.msb := by simp [BitVec.msb_eq_getLsbD_last]
    rw [hmsb]
    cases x.msb <;> simp
  · rw [dif_neg (by omega)]
    cases x.msb with
    | false => simp
    | true => rw [if_pos rfl, BitVec.getElem_allOnes]

theorem toNat_zigzag (n : Int32) :
    ((n <<< 1) ^^^ (n >>> 31)).toUInt32.toNat = Varint.zigzag n.toInt := by
  have hbits : ((n <<< 1) ^^^ (n >>> 31)).toUInt32.toNat =
      ((n.toBitVec <<< 1) ^^^ (n.toBitVec.sshiftRight 31)).toNat := rfl
  have hint : n.toInt = n.toBitVec.toInt := rfl
  rw [hbits, hint, BitVec.toInt_eq_msb_cond, sshiftRight_thirtyOne]
  cases hm : n.toBitVec.msb with
  | false =>
    have := BitVec.msb_eq_false_iff_two_mul_lt.mp hm
    simp [Varint.zigzag]
    omega
  | true =>
    have := BitVec.msb_eq_true_iff_two_mul_ge.mp hm
    rw [if_pos rfl, if_pos rfl, BitVec.xor_allOnes, BitVec.toNat_not, BitVec.toNat_shiftLeft, Varint.zigzag]
    split_ifs <;> omega

theorem writeVarintLoop_eq (value : UInt32) : writeVarintLoop value = Varint.encode value.toNat := by
  induction hn : value.toNat using Nat.strongRecOn generalizing value with
  | ind n ih =>
    subst hn
    have hshift : (value >>> 7).toNat = value.toNat / 128 := Nat.shiftRight_eq_div_pow _ 7
    have hlow := toNat_low_bits value
    rw [writeVarintLoop, Varint.encode]
    by_cases hlast : value.toNat < 128
    · rw [if_pos ((and_not_low_bits value).mpr hlast), if_pos hlast]
      rfl
    · rw [if_neg (mt (and_not_low_bits value).mp hlast), if_neg hlast, ih _ (by omega) _ rfl, hshift]
      congr 1
      have hor : ((value &&& 0x7f) ||| 0x80).toNat = value.toNat % 128 + 128 := by
        rw [UInt32.toNat_or, Nat.or_comm]
        exact (Nat.two_pow_add_eq_or_of_lt (i := 7) (by omega) 1).symm.trans (by omega)
      rw [← UInt8.toNat_inj, UInt32.toNat_toUInt8, UInt8.toNat_ofNat', hor]

theorem writeVarint_eq (n : Int32) : writeVarint n = Varint.encode (Varint.zigzag n.toInt) := by
  rw [writeVarint, writeVarintLoop_eq, toNat_zigzag]

/-! ## Reading what was written -/

namespace Consumer

open Reader

variable {tail : Bytes}

theorem uintBE_putI8 (n : Int8) : uintBE 1 (putI8 n ++ tail) = some (n.toUInt8.toNat, tail) :=
  uintBE_encode n.toUInt8.toNat_lt tail

theorem uintBE_putI16 (n : Int16) : uintBE 2 (putI16 n ++ tail) = some (n.toUInt16.toNat, tail) :=
  uintBE_encode n.toUInt16.toNat_lt tail

theorem uintBE_putI32 (n : Int32) : uintBE 4 (putI32 n ++ tail) = some (n.toUInt32.toNat, tail) :=
  uintBE_encode n.toUInt32.toNat_lt tail

theorem uintBE_putU32 (n : UInt32) : uintBE 4 (putU32 n ++ tail) = some (n.toNat, tail) :=
  uintBE_encode n.toNat_lt tail

theorem uintBE_putI64 (n : Int64) : uintBE 8 (putI64 n ++ tail) = some (n.toUInt64.toNat, tail) :=
  uintBE_encode n.toUInt64.toNat_lt tail

theorem intBE_putI32 (n : Int32) : intBE 4 (putI32 n ++ tail) = some (n.toInt, tail) := by
  have hint : n.toInt = Int.bmod n.toUInt32.toNat (256 ^ 4) := BitVec.toInt_eq_toNat_bmod n.toBitVec
  rw [hint]
  exact intBE_encode n.toUInt32.toNat_lt tail

theorem intBE_putI64 (n : Int64) : intBE 8 (putI64 n ++ tail) = some (n.toInt, tail) := by
  have hint : n.toInt = Int.bmod n.toUInt64.toNat (256 ^ 8) := BitVec.toInt_eq_toNat_bmod n.toBitVec
  rw [hint]
  exact intBE_encode n.toUInt64.toNat_lt tail

theorem varint_writeVarint (n : Int32) : varint (writeVarint n ++ tail) = some (n.toInt, tail) := by
  rw [writeVarint_eq, varint_encode]

theorem toInt_ofNat {n : Nat} (h : n < 2 ^ 31) : (Int32.ofNat n).toInt = n := by
  have hsize : Int32.size = 2 ^ 32 := rfl
  rw [Int32.toInt_ofNat', Int.bmod_def, hsize]
  split_ifs <;> omega

theorem varint_length {n : Nat} (h : n < 2 ^ 31) :
    varint (writeVarint (Int32.ofNat n) ++ tail) = some ((n : Int), tail) := by
  rw [varint_writeVarint, toInt_ofNat h]

theorem nullable_length (bs : Bytes) :
    nullable (bs.length : Int) (bs ++ tail) = some (some bs, tail) := by
  rw [nullable, if_neg (by omega)]
  simp [Functor.map, StateT.map, bytes_append]

theorem varBytes_encode {bs : Bytes} (h : bs.length < 2 ^ 31) :
    varBytes (writeVarint (Int32.ofNat bs.length) ++ (bs ++ tail)) = some (some bs, tail) := by
  rw [varBytes, bind_run (varint_length h), nullable_length]

theorem varBytes_key {k : Option Bytes} (hkey : ∀ bs, k = some bs → bs.length < 2 ^ 31) :
    varBytes (encodeRecordKey k ++ tail) = some (k, tail) := by
  cases k with
  | none =>
    rw [encodeRecordKey, varBytes, bind_run (varint_writeVarint _)]
    rfl
  | some bs =>
    rw [encodeRecordKey, append_assoc]
    exact varBytes_encode (hkey bs rfl)

theorem fixedBytes_put {k : Option Bytes} (hkey : ∀ bs, k = some bs → bs.length < 2 ^ 31)
    (tail : Bytes) : fixedBytes (putBytes k ++ tail) = some (k, tail) := by
  cases k with
  | none =>
    rw [putBytes, fixedBytes, bind_run (intBE_putI32 _)]
    rfl
  | some bs =>
    rw [putBytes, append_assoc, fixedBytes, bind_run (intBE_putI32 _),
      toInt_ofNat (hkey bs rfl), nullable_length]

theorem lift_some {α : Type} (a : α) : lift (some a) tail = some (a, tail) := rfl

theorem check_true {ok : Bool} (h : ok = true) : check ok tail = some ((), tail) := by
  rw [check, if_pos h]
  rfl

/-- The lengths of a record fit 31 bits. -/
structure Small (r : Record) : Prop where
  key : ∀ k, r.key = some k → k.length < 2 ^ 31
  value : r.value.length < 2 ^ 31
  count : r.headers.length < 2 ^ 31
  headers : ∀ h ∈ r.headers, h.1.toUTF8.data.toList.length < 2 ^ 31 ∧ h.2.length < 2 ^ 31

theorem header_encode {h : String × Bytes} (hkey : h.1.toUTF8.data.toList.length < 2 ^ 31)
    (hvalue : h.2.length < 2 ^ 31) : header (encodeRecordHeader h ++ tail) = some (h, tail) := by
  have hutf8 : String.fromUTF8? ⟨h.1.toUTF8.data.toList.toArray⟩ = some h.1 := by
    have hbytes : (⟨h.1.toUTF8.data.toList.toArray⟩ : ByteArray) = h.1.toByteArray := by simp
    rw [hbytes, String.fromUTF8?, dif_pos h.1.isValidUTF8]
    rfl
  unfold header encodeRecordHeader
  simp only [append_assoc]
  rw [bind_run (varint_length hkey), bind_run (by rw [Int.toNat_natCast]; exact bytes_append _ _),
    hutf8, bind_run (lift_some h.1), bind_run (varBytes_encode hvalue)]
  rfl

/-- A record in a batch, behind its length. -/
def recordBody (r : Record) (firstTimestamp : Int64) (offsetDelta : Int32) : Bytes :=
  putI8 0 ++ writeVarint (r.timestampMs - firstTimestamp).toInt32 ++ writeVarint offsetDelta ++
    encodeRecordKey r.key ++ writeVarint (Int32.ofNat r.value.length) ++ r.value ++
    writeVarint (Int32.ofNat r.headers.length) ++ r.headers.flatMap encodeRecordHeader

theorem encodeDefaultRecord_eq (r : Record) (firstTimestamp : Int64) (offsetDelta : Int32) :
    encodeDefaultRecord r firstTimestamp offsetDelta =
      writeVarint (Int32.ofNat (recordBody r firstTimestamp offsetDelta).length) ++
        recordBody r firstTimestamp offsetDelta := rfl

/-- The deltas that the broker writes are those the consumer reads. -/
theorem body_encode {r : Record} (hsmall : Small r) (baseOffset : Int) (firstTimestamp : Int64)
    (offsetDelta : Int32) (tail : Bytes) :
    body baseOffset firstTimestamp.toInt (recordBody r firstTimestamp offsetDelta ++ tail) =
      some ({ offset := baseOffset + offsetDelta.toInt
              timestamp :=
                firstTimestamp.toInt + (r.timestampMs - firstTimestamp).toInt32.toInt
              key := r.key, value := r.value, headers := r.headers }, tail) := by
  unfold body recordBody
  simp only [append_assoc]
  rw [bind_run (uintBE_putI8 0), bind_run (varint_writeVarint _), bind_run (varint_writeVarint _),
    bind_run (varBytes_key hsmall.key), bind_run (varBytes_encode hsmall.value),
    bind_run (varint_length hsmall.count), Int.toNat_natCast,
    bind_run (times_flatMap tail fun h hh rest =>
      header_encode (hsmall.headers h hh).1 (hsmall.headers h hh).2)]
  rfl

/-- What the consumer makes of a record of a batch. -/
def shown (first r : Record) (i : Nat) : FetchedRecord where
  offset := (offsetAsI64 first.offset).toInt + i
  timestamp := first.timestampMs.toInt + (r.timestampMs - first.timestampMs).toInt32.toInt
  key := r.key
  value := r.value
  headers := r.headers

theorem record_encode {first r : Record} {i : Nat} (hsmall : Small r) (hi : i < 2 ^ 31)
    (hlen : (encodeDefaultRecord r first.timestampMs (Int32.ofNat i)).length < 2 ^ 31) :
    record (offsetAsI64 first.offset).toInt first.timestampMs.toInt
        (encodeDefaultRecord r first.timestampMs (Int32.ofNat i) ++ tail) =
      some (shown first r i, tail) := by
  have hwhole := whole_of_eq (body_encode hsmall (offsetAsI64 first.offset).toInt
    first.timestampMs (Int32.ofNat i))
  rw [encodeDefaultRecord_eq, length_append] at hlen
  rw [encodeDefaultRecord_eq, record, append_assoc, bind_run (varint_length (by omega)),
    Int.toNat_natCast, bind_run (bytes_append _ tail), hwhole, toInt_ofNat hi]
  rfl

theorem records_encode {first : Record} {run : List Record} (hsmall : ∀ r ∈ run, Small r)
    (hlen : (encodeRecords run first.timestampMs).length < 2 ^ 31) (hcount : run.length < 2 ^ 31) :
    whole (times run.length (record (offsetAsI64 first.offset).toInt first.timestampMs.toInt))
        (encodeRecords run first.timestampMs) =
      some (run.zipIdx.map fun p => shown first p.1 p.2) := by
  have hflat : encodeRecords run first.timestampMs = run.zipIdx.flatMap fun p =>
      encodeDefaultRecord p.1 first.timestampMs (Int32.ofNat p.2) := flatMap_def.symm
  rw [hflat] at hlen ⊢
  have hlength : run.zipIdx.length = run.length := length_zipIdx
  rw [← hlength]
  refine whole_of_eq fun rest => times_flatMap_map rest fun p hp tail => ?_
  obtain ⟨r, i⟩ := p
  have hi := snd_lt_of_mem_zipIdx hp
  have hr := fst_mem_of_mem_zipIdx hp
  refine record_encode (hsmall r hr) (by omega) (lt_of_le_of_lt ?_ hlen)
  rw [length_flatMap]
  exact single_le_sum (by simp) _ (mem_map_of_mem hp)

theorem length_encode_fields (f : BatchFields) : f.encode.length = 40 := by
  simp [BatchFields.encode, putI16, putI32, putI64]

variable {records : List FetchedRecord}

theorem batchBody_encode {lib : Crates} {baseOffset : Int} {f : BatchFields} {payload : Bytes}
    (hcontents : contents lib f.attributes.toUInt16.toNat baseOffset f.firstTimestamp.toInt
      f.recordsCount.toInt payload = some records) :
    whole (batchBody lib baseOffset) (putI32 (-1) ++ (putI8 2 ++
      (putU32 (lib.crc32c (f.encode ++ payload)) ++ (f.encode ++ payload)))) = some records := by
  have hmagic : ((2 : Int8).toUInt8.toNat == 2) = true := by decide
  have hbody : batchBody lib baseOffset (putI32 (-1) ++ (putI8 2 ++
      (putU32 (lib.crc32c (f.encode ++ payload)) ++ (f.encode ++ payload)))) =
        some (records, []) := by
    unfold batchBody
    rw [bind_run (uintBE_putI32 _), bind_run (uintBE_putI8 _), bind_run (check_true hmagic),
      bind_run (uintBE_putU32 _)]
    rw [bind_run (a := f.encode ++ payload) rfl, bind_run (check_true (by simp))]
    simp only [BatchFields.encode, append_assoc]
    rw [bind_run (uintBE_putI16 _), bind_run (uintBE_putI32 _), bind_run (intBE_putI64 _),
      bind_run (uintBE_putI64 _), bind_run (uintBE_putI64 _), bind_run (uintBE_putI16 _),
      bind_run (uintBE_putI32 _), bind_run (intBE_putI32 _),
      bind_run (a := payload) rfl, hcontents]
    rfl
  rw [whole, hbody]

/-- Both formats have an offset and a length before the rest. -/
theorem frame_encode {α : Type} {body : Int → Reader α} {offset : Int64} {bs : Bytes} {a : α}
    (hlen : bs.length < 2 ^ 31) (hbody : whole (body offset.toInt) bs = some a) :
    (do
      let offset ← intBE 8
      let len ← intBE 4
      let bs ← bytes len.toNat
      lift (whole (body offset) bs)) (putI64 offset ++ (putI32 (Int32.ofNat bs.length) ++
        (bs ++ tail))) = some (a, tail) := by
  rw [bind_run (intBE_putI64 _), bind_run (intBE_putI32 _), toInt_ofNat hlen, Int.toNat_natCast,
    bind_run (bytes_append _ tail), hbody]
  rfl

/-- The magic byte of both formats is at the same place. -/
theorem getElem?_magic {offset : Int64} {len : Int32} {four more : Bytes} {magic : UInt8}
    (hfour : four.length = 4) :
    (putI64 offset ++ (putI32 len ++ (four ++ magic :: more)))[16]? = some magic := by
  have hlen : (putI64 offset ++ (putI32 len ++ four)).length = 16 := by
    simp [hfour, putI64, putI32]
  simp only [← append_assoc] at hlen ⊢
  rw [getElem?_append_right hlen.le, hlen]
  rfl

/-- A batch is read as its records are. -/
theorem batch_finish {lib : Crates} {baseOffset : Int64} {f : BatchFields} {payload : Bytes} (hlen : 49 + payload.length < 2 ^ 31)
    (hcontents : contents lib f.attributes.toUInt16.toNat baseOffset.toInt f.firstTimestamp.toInt
      f.recordsCount.toInt payload = some records) :
    batch lib (finishBatch lib baseOffset f payload ++ tail) = some (records, tail) := by
  have hbytes : 4 + 1 + 4 + (f.encode ++ payload).length = (putI32 (-1) ++ (putI8 2 ++
      (putU32 (lib.crc32c (f.encode ++ payload)) ++ (f.encode ++ payload)))).length := by
    simp only [length_append, putI32, putI8, putU32, BigEndian.length_encode]
    omega
  have hsize : 4 + 1 + 4 + (f.encode ++ payload).length < 2 ^ 31 := by
    rw [length_append, length_encode_fields]
    omega
  rw [hbytes] at hsize
  simpa only [batch, finishBatch, hbytes, append_assoc] using
    frame_encode hsize (batchBody_encode hcontents)

end Consumer

/-! ## The batches of a response -/

/-- A piece of a record set: the data between two markers, or a marker. -/
inductive Segment where
  | data (run : List Record)
  | marker (r : Record) (ctrl : TxnControlMarker)

/-- The data that is pending, if there is any. -/
def pendingSegment (pending : List Record) : List Segment :=
  if pending.isEmpty then [] else [.data pending]

/-- The pieces of a list of records, behind data that is pending. -/
def cut (pending : List Record) : List Record → List Segment
  | [] => pendingSegment pending
  | r :: rs =>
    match parseTxnControlRecord r with
    | some ctrl => pendingSegment pending ++ .marker r ctrl :: cut [] rs
    | none => cut (pending ++ [r]) rs

def Segment.encode (lib : Crates) (codec : CompressionCodec) : Segment → Bytes
  | .data run => flushData lib codec run
  | .marker r ctrl => encodeControlRecordBatch lib (offsetAsI64 r.offset) ctrl r.timestampMs

theorem flatMap_pendingSegment (lib : Crates) (codec : CompressionCodec) (pending : List Record) :
    (pendingSegment pending).flatMap (Segment.encode lib codec) = flushData lib codec pending := by
  unfold pendingSegment
  split_ifs with hempty
  · rw [flushData, if_pos hempty]
    rfl
  · simp [Segment.encode]

/-- The loop writes one piece after the other. -/
theorem foldl_fetchStep (lib : Crates) (codec : CompressionCodec) (records pending : List Record)
    (out : Bytes) : (records.foldl (fetchStep lib codec) (pending, out)).2 ++
        flushData lib codec (records.foldl (fetchStep lib codec) (pending, out)).1 =
      out ++ (cut pending records).flatMap (Segment.encode lib codec) := by
  induction records generalizing pending out with
  | nil => rw [foldl_nil, cut, flatMap_pendingSegment]
  | cons r rs ih =>
    rw [foldl_cons, fetchStep, cut]
    cases parseTxnControlRecord r with
    | none => exact ih (pending ++ [r]) out
    | some ctrl =>
      rw [ih, flatMap_append, flatMap_cons, flatMap_pendingSegment, Segment.encode]
      simp

theorem encodeFetchRecordBatches_eq (lib : Crates) (records : List Record)
    (codec : CompressionCodec) : encodeFetchRecordBatches lib records codec =
      (cut [] records).flatMap (Segment.encode lib codec) := by
  exact foldl_fetchStep lib codec records [] []

/-- A record that is not a marker. -/
def isData (r : Record) : Bool := (parseTxnControlRecord r).isNone

/-- The record as a consumer should see it. -/
def FetchedRecord.of (r : Record) : FetchedRecord where
  offset := r.offset
  timestamp := r.timestampMs.toInt
  key := r.key
  value := r.value
  headers := r.headers

def Segment.expected : Segment → List FetchedRecord
  | .data run => run.map FetchedRecord.of
  | .marker _ _ => []

theorem flatMap_expected_pending (pending : List Record) :
    (pendingSegment pending).flatMap Segment.expected = pending.map FetchedRecord.of := by
  unfold pendingSegment
  split_ifs with hempty
  · rw [isEmpty_iff.mp hempty]
    rfl
  · simp [Segment.expected]

/-- The pieces hold the data, in order. -/
theorem flatMap_expected_cut {pending : List Record} (records : List Record)
    (hpending : ∀ r ∈ pending, isData r = true) : (cut pending records).flatMap Segment.expected =
      ((pending ++ records).filter isData).map FetchedRecord.of := by
  induction records generalizing pending with
  | nil =>
    rw [cut, flatMap_expected_pending, append_nil, filter_eq_self.mpr hpending]
  | cons r rs ih =>
    rw [cut]
    cases hr : parseTxnControlRecord r with
    | none =>
      have hdata : isData r = true := by rw [isData, hr]; rfl
      rw [ih fun q hq => ?_, append_assoc, singleton_append]
      rcases mem_append.mp hq with hq | hq
      · exact hpending q hq
      · rw [mem_singleton.mp hq]
        exact hdata
    | some ctrl =>
      have hdata : ¬ isData r = true := by rw [isData, hr]; nofun
      rw [flatMap_append, flatMap_cons, flatMap_expected_pending, ih (by simp),
        nil_append, filter_append, filter_eq_self.mpr hpending, filter_cons_of_neg hdata,
        map_append]
      rfl

/-- The data of a piece is data of the records. -/
theorem sublist_of_mem_cut {pending records run : List Record}
    (h : Segment.data run ∈ cut pending records) : run ≠ [] ∧ run.Sublist (pending ++ records) := by
  have hpend {pending : List Record} (h : Segment.data run ∈ pendingSegment pending) :
      run ≠ [] ∧ run = pending := by
    unfold pendingSegment at h
    split_ifs at h with hempty
    · cases h
    · cases mem_singleton.mp h
      exact ⟨by simpa using hempty, rfl⟩
  induction records generalizing pending with
  | nil =>
    obtain ⟨hne, rfl⟩ := hpend h
    exact ⟨hne, by simp⟩
  | cons r rs ih =>
    rw [cut] at h
    split at h
    · rcases mem_append.mp h with h | h
      · obtain ⟨hne, rfl⟩ := hpend h
        exact ⟨hne, sublist_append_left _ _⟩
      · rcases mem_cons.mp h with h | h
        · cases h
        · obtain ⟨hne, hsub⟩ := ih h
          exact ⟨hne, (hsub.cons r).trans (sublist_append_right _ _)⟩
    · have hsub := ih h
      rwa [append_assoc] at hsub

/-! ## Sizes -/

/-- More bytes than the record takes in either format, its share of the framing included. -/
def wireBound (r : Record) : Nat :=
  100 + (r.key.getD []).length + r.value.length +
    (r.headers.map fun h => 10 + h.1.toUTF8.data.toList.length + h.2.length).sum

theorem length_writeVarint_le (n : Int32) : (writeVarint n).length ≤ 5 := by
  rw [writeVarint, writeVarintLoop_eq]
  exact Varint.length_encode_le (by decide) (lt_trans (UInt32.toNat_lt _) (by decide))

theorem length_encodeRecordKey_le (k : Option Bytes) :
    (encodeRecordKey k).length ≤ 5 + (k.getD []).length := by
  cases k with
  | none => exact length_writeVarint_le _
  | some bs =>
    have hlen := length_writeVarint_le (Int32.ofNat bs.length)
    rw [encodeRecordKey, length_append, Option.getD_some]
    omega

theorem length_encodeRecordHeaders_le (headers : List (String × Bytes)) :
    (headers.flatMap encodeRecordHeader).length ≤
      (headers.map fun h => 10 + h.1.toUTF8.data.toList.length + h.2.length).sum := by
  rw [length_flatMap]
  refine sum_le_sum fun h _ => ?_
  have hkey := length_writeVarint_le (Int32.ofNat h.1.toUTF8.data.toList.length)
  have hvalue := length_writeVarint_le (Int32.ofNat h.2.length)
  unfold encodeRecordHeader
  simp only [length_append]
  omega

theorem length_encodeDefaultRecord_le (r : Record) (firstTimestamp : Int64) (offsetDelta : Int32) :
    (encodeDefaultRecord r firstTimestamp offsetDelta).length + 69 ≤ wireBound r := by
  have hkey := length_encodeRecordKey_le r.key
  have hheaders := length_encodeRecordHeaders_le r.headers
  have hts := length_writeVarint_le (r.timestampMs - firstTimestamp).toInt32
  have hdelta := length_writeVarint_le offsetDelta
  have hvalue := length_writeVarint_le (Int32.ofNat r.value.length)
  have hcount := length_writeVarint_le (Int32.ofNat r.headers.length)
  have hattributes : (putI8 0).length = 1 := BigEndian.length_encode 1 _
  have hbegins := length_writeVarint_le
    (Int32.ofNat (Consumer.recordBody r firstTimestamp offsetDelta).length)
  rw [Consumer.encodeDefaultRecord_eq, wireBound]
  simp only [Consumer.recordBody, length_append] at hbegins ⊢
  omega

theorem length_encodeRecords_le {run : List Record} (hne : run ≠ []) (firstTimestamp : Int64) :
    (encodeRecords run firstTimestamp).length + 49 ≤ (run.map wireBound).sum := by
  have hsum : (encodeRecords run firstTimestamp).length + 69 * run.length ≤
      (run.map wireBound).sum := by
    unfold encodeRecords
    generalize 0 = start
    induction run generalizing start with
    | nil => simp
    | cons r run ih =>
      have hr := length_encodeDefaultRecord_le r firstTimestamp (Int32.ofNat start)
      rcases eq_or_ne run [] with rfl | hrun
      · simp at hr ⊢
        omega
      · have hrest := ih hrun (start + 1)
        rw [zipIdx_cons, map_cons, flatten_cons, length_append, length_cons, map_cons, sum_cons]
        dsimp only
        omega
  have hpos := length_pos_iff.mpr hne
  omega

theorem small_of_wireBound {r : Record} (h : wireBound r < 2 ^ 31) : Consumer.Small r := by
  unfold wireBound at h
  have hcount : r.headers.length ≤
      (r.headers.map fun h => 10 + h.1.toUTF8.data.toList.length + h.2.length).sum := by
    generalize r.headers = headers
    induction headers with
    | nil => simp
    | cons h headers ih =>
      rw [length_cons, map_cons, sum_cons]
      omega
  refine ⟨fun k hk => ?_, by omega, by omega, fun h' hh' => ?_⟩
  · rw [hk, Option.getD_some] at h
    omega
  · have hle := single_le_sum (l := r.headers.map fun h =>
      10 + h.1.toUTF8.data.toList.length + h.2.length) (by simp) _ (mem_map_of_mem hh')
    omega

/-! ## What a consumer reads -/

/-- What was compressed can be read again. -/
def Crates.Lawful (lib : Crates) : Prop :=
  ∀ codec data out, lib.compress codec data = .ok out → lib.decompress codec out = .ok data

/-- What a coder writes it reads again. -/
def Coder.Lawful (c : Coder) : Prop := ∀ data out, c.encode data = .ok out → c.decode out = .ok data

theorem Crates.snappyDecompress_snappyCompress {lib : Crates} (hlawful : lib.snappy.Lawful)
    (hshort : ∀ data out, lib.snappy.encode data = .ok out → out.length < 2 ^ 32)
    {data out : Bytes} (h : lib.snappyCompress data = .ok out) :
    lib.snappyDecompress out = .ok data := by
  obtain ⟨block, hblock, h⟩ := Exec.except_bind_ok.mp h
  obtain rfl := Except.ok.inj h
  have hencode := labelled_ok.mp hblock
  have hlen : BigEndian.decode (BigEndian.encode 4 block.length) = block.length :=
    BigEndian.decode_encode (by simpa using hshort _ _ hencode)
  have hpiece : labelled "snappy xerial block" (lib.snappy.decode block) = .ok data :=
    labelled_ok.mpr (hlawful _ _ hencode)
  have hfour : (BigEndian.encode 4 block.length).length = 4 := BigEndian.length_encode 4 _
  generalize BigEndian.encode 4 block.length = size at hlen hfour
  have hhead : (XERIAL_MAGIC ++ (BigEndian.encode 4 1 ++ BigEndian.encode 4 1)).length = 16 := rfl
  have hmagic : XERIAL_MAGIC.isPrefixOf
      (XERIAL_MAGIC ++ (BigEndian.encode 4 1 ++ BigEndian.encode 4 1) ++ (size ++ block)) = true := by
    rw [append_assoc]
    exact isPrefixOf_iff_prefix.mpr <| prefix_append _ _
  unfold snappyDecompress
  rw [if_pos hmagic, length_append, hhead, if_neg (by omega), Nat.add_comm, drop_left' hhead]
  simp [xerialBlocks, hfour, take_left' hfour, drop_left' hfour, hlen, hpiece, bind, Except.bind,
    pure, Except.pure]

/-- The framing keeps what the crates' own functions keep. -/
theorem Crates.lawful_of_coders {lib : Crates} (hgzip : lib.gzip.Lawful)
    (hsnappy : lib.snappy.Lawful)
    (hshort : ∀ data out, lib.snappy.encode data = .ok out → out.length < 2 ^ 32)
    (hlz4 : lib.lz4Frame.Lawful) (hzstd : lib.zstd.Lawful) : lib.Lawful := by
  intro codec data out h
  cases codec with
  | none => exact congrArg Except.ok (Except.ok.inj h).symm
  | gzip => exact labelled_ok.mpr (hgzip _ _ (labelled_ok.mp h))
  | snappy => exact snappyDecompress_snappyCompress hsnappy hshort h
  | lz4 =>
    unfold decompress lz4Decompress
    rw [hlz4 _ _ (labelled_ok.mp h)]
    rfl
  | zstd => exact labelled_ok.mpr (hzstd _ _ (labelled_ok.mp h))

section

open Consumer Reader

variable {lib : Crates} {codec : CompressionCodec} {tail : Bytes}
  {inner : Bytes → Option (List FetchedRecord)}

/-- The records of a run as the consumer sees them. -/
def shownRun : List Record → List FetchedRecord
  | [] => []
  | first :: rest => (first :: rest).zipIdx.map fun p => shown first p.1 p.2

theorem codecOf_asU8 (codec : CompressionCodec) :
    (codec.asU8.toUInt16.toInt16.toUInt16.toNat).testBit 5 = false ∧
      codecOf codec.asU8.toUInt16.toInt16.toUInt16.toNat = some codec := by
  cases codec <;> exact ⟨by decide, by decide⟩

theorem length_finishBatch (lib : Crates) (baseOffset : Int64) (f : BatchFields) (payload : Bytes) :
    (finishBatch lib baseOffset f payload).length = 61 + payload.length := by
  simp only [finishBatch, length_append, length_encode_fields, putI64, putI32, putI8, putU32,
    BigEndian.length_encode]
  omega

variable {rest : List Record}

/-- A data batch whose payload is that of its records. -/
theorem batch_run {first : Record} {payload : Bytes}
    {producer : RecordBatchProducer} {lastOffsetDelta : Int32} {maxTimestamp : Int64}
    (hbound : ((first :: rest).map wireBound).sum < 2 ^ 31)
    (hpayload : 49 + payload.length < 2 ^ 31)
    (hplain : plain lib codec payload = some (encodeRecords (first :: rest) first.timestampMs)) :
    batch lib (finishBatch lib (offsetAsI64 first.offset)
        { attributes := codec.asU8.toUInt16.toInt16
          lastOffsetDelta := lastOffsetDelta
          firstTimestamp := first.timestampMs
          maxTimestamp := maxTimestamp
          producer := producer
          recordsCount := Int32.ofNat (first :: rest).length } payload ++ tail) =
      some (shownRun (first :: rest), tail) := by
  have hlen := length_encodeRecords_le (cons_ne_nil first rest) first.timestampMs
  have hsmall : ∀ r ∈ first :: rest, wireBound r < 2 ^ 31 := fun r hr =>
    lt_of_le_of_lt (single_le_sum (by simp) _ (mem_map_of_mem hr)) hbound
  have hcount : (first :: rest).length < 2 ^ 31 := by
    have hle := card_nsmul_le_sum ((first :: rest).map wireBound) 1 (by
      intro n hn
      obtain ⟨r, -, rfl⟩ := mem_map.mp hn
      unfold wireBound
      omega)
    rw [length_map, smul_eq_mul, Nat.mul_one] at hle
    exact lt_of_le_of_lt hle hbound
  refine batch_finish hpayload ?_
  rw [contents, (codecOf_asU8 codec).1, (codecOf_asU8 codec).2]
  simp only [Option.bind_eq_bind, Option.bind_some, hplain]
  rw [toInt_ofNat hcount]
  exact records_encode (fun r hr => small_of_wireBound (hsmall r hr)) (by omega) hcount

/-- The data that is flushed is one batch, compressed or not. -/
theorem flushData_cases (hlawful : lib.Lawful) (codec : CompressionCodec) (first : Record) (rest : List Record) :
    ∃ codec' payload f,
      flushData lib codec (first :: rest) = finishBatch lib (offsetAsI64 first.offset) f payload ∧
      plain lib codec' payload = some (encodeRecords (first :: rest) first.timestampMs) ∧
      f.attributes = codec'.asU8.toUInt16.toInt16 ∧ f.firstTimestamp = first.timestampMs ∧
      f.recordsCount = Int32.ofNat (first :: rest).length := by
  have hplain : plain lib .none (encodeRecords (first :: rest) first.timestampMs) =
      some (encodeRecords (first :: rest) first.timestampMs) := if_pos rfl
  unfold flushData
  rw [if_neg (by simp)]
  split_ifs with hnone
  · exact ⟨.none, _, _, rfl, hplain, rfl, rfl, rfl⟩
  · unfold encodeRecordBatchCompressed encodeRecordBatchWithOptions
    dsimp only
    rw [if_neg hnone]
    cases hcompress : lib.compress codec (encodeRecords (first :: rest) first.timestampMs) with
    | error e => exact ⟨.none, _, _, rfl, hplain, rfl, rfl, rfl⟩
    | ok payload =>
      refine ⟨codec, payload, _, rfl, ?_, rfl, rfl, rfl⟩
      rw [plain, if_neg hnone, hlawful _ _ _ hcompress]
      rfl

/-- Data comes out with the offsets and timestamps of the deltas. -/
theorem batch_flushData (hlawful : lib.Lawful) {run : List Record} (hne : run ≠ [])
    (hbound : (run.map wireBound).sum < 2 ^ 31) (hlen : (flushData lib codec run).length < 2 ^ 31) :
    batch lib (flushData lib codec run ++ tail) = some (shownRun run, tail) := by
  obtain ⟨first, rest, rfl⟩ := exists_cons_of_ne_nil hne
  obtain ⟨codec', payload, ⟨attributes, lastOffsetDelta, firstTimestamp, maxTimestamp, producer,
    recordsCount⟩, heq, hplain, rfl, rfl, rfl⟩ := flushData_cases hlawful codec first rest
  rw [heq, length_finishBatch] at hlen
  rw [heq]
  exact batch_run hbound (by omega) hplain

/-- Markers are no data. -/
theorem batch_control (baseOffset : Int64) (marker : TxnControlMarker) (timestampMs : Int64) :
    batch lib (encodeControlRecordBatch lib baseOffset marker timestampMs ++ tail) =
      some ([], tail) := by
  have hcontrol : RECORD_BATCH_ATTR_TXN_CONTROL.toUInt16.toNat.testBit 5 = true := by decide
  refine batch_finish ?_ (if_pos hcontrol)
  have hzero := length_writeVarint_le 0
  have hkey := length_writeVarint_le 4
  have hvalue := length_writeVarint_le 6
  have hlength := length_writeVarint_le (Int32.ofNat (putI8 0 ++ writeVarint 0 ++ writeVarint 0 ++
    writeVarint 4 ++ putI16 0 ++ putI16 marker.markerType.asI16 ++ writeVarint 6 ++ putI16 0 ++
    putI32 marker.coordinatorEpoch ++ writeVarint 0).length)
  simp only [length_append, putI8, putI16, putI32, BigEndian.length_encode] at hlength ⊢
  omega

def Segment.shown : Segment → List FetchedRecord
  | .data run => shownRun run
  | .marker _ _ => []

/-- The magic byte of a batch. -/
theorem getElem?_finishBatch (baseOffset : Int64) (f : BatchFields) (payload tail : Bytes) :
    (finishBatch lib baseOffset f payload ++ tail)[16]? = some 2 := by
  exact getElem?_magic (BigEndian.length_encode 4 _)

theorem exists_finishBatch (hlawful : lib.Lawful) (codec : CompressionCodec) {s : Segment}
    (hne : ∀ run, s = .data run → run ≠ []) :
    ∃ baseOffset f payload, s.encode lib codec = finishBatch lib baseOffset f payload := by
  cases s with
  | data run =>
    obtain ⟨first, rest, rfl⟩ := exists_cons_of_ne_nil (hne run rfl)
    obtain ⟨_, payload, f, heq, -⟩ := flushData_cases hlawful codec first rest
    exact ⟨_, f, payload, heq⟩
  | marker r ctrl => exact ⟨_, _, _, rfl⟩

variable {records : List Record}

/-- A response with batches is read piece by piece. -/
theorem recordSet_batches (hlawful : lib.Lawful) (hbound : (records.map wireBound).sum < 2 ^ 31)
    (hlen : (encodeFetchRecordBatches lib records codec).length < 2 ^ 31) :
    recordSet lib (encodeFetchRecordBatches lib records codec) =
      some ((cut [] records).flatMap Segment.shown) := by
  rw [encodeFetchRecordBatches_eq] at hlen ⊢
  have hne (s : Segment) (hs : s ∈ cut [] records) (run : List Record) (hrun : s = .data run) :
      run ≠ [] := (sublist_of_mem_cut (hrun ▸ hs)).1
  have hread : ∀ s ∈ cut [] records, s.encode lib codec ≠ [] ∧ ∀ tail,
      batch lib (s.encode lib codec ++ tail) = some (s.shown, tail) := by
    intro s hs
    constructor
    · obtain ⟨baseOffset, f, payload, heq⟩ := exists_finishBatch hlawful codec (hne s hs)
      have hlength := length_finishBatch lib baseOffset f payload
      rw [← heq] at hlength
      intro hnil
      rw [hnil, length_nil] at hlength
      omega
    · intro tail
      cases s with
      | data run =>
        obtain ⟨hrun, hsub⟩ := sublist_of_mem_cut hs
        refine batch_flushData hlawful hrun ?_ ?_
        · exact lt_of_le_of_lt ((hsub.map wireBound).sum_le_sum (by simp)) hbound
        · refine lt_of_le_of_lt ?_ hlen
          rw [length_flatMap]
          exact single_le_sum (by simp) _ (mem_map_of_mem hs)
      | marker r ctrl => exact batch_control _ _ _
  rw [recordSet]
  cases hcut : cut [] records with
  | nil =>
    rw [if_neg (by simp), Reader.all]
    rfl
  | cons s rest =>
    rw [hcut] at hread hne
    have hmagic : ((s :: rest).flatMap (Segment.encode lib codec))[16]? = some 2 := by
      obtain ⟨baseOffset, f, payload, heq⟩ :=
        exists_finishBatch hlawful codec (hne s mem_cons_self)
      rw [flatMap_cons, heq]
      exact getElem?_finishBatch baseOffset f payload _
    rw [if_pos hmagic, all_flatMap hread, Option.map_some, flatMap]

/-! ## Message sets -/

/-- A message from its magic on. -/
def messagePayload (attributes : Int8) (timestampMs : Int64) (key : Option Bytes) (value : Bytes) :
    Bytes :=
  putI8 1 ++ putI8 attributes ++ putI64 timestampMs ++ putBytes key ++ putBytes (some value)

theorem length_messagePayload (attributes : Int8) (timestampMs : Int64) (key : Option Bytes)
    (value : Bytes) : (messagePayload attributes timestampMs key value).length =
      18 + (key.getD []).length + value.length := by
  cases key <;> simp [messagePayload, putI8, putI64, putI32, putBytes] <;> omega

theorem length_finishMessage (lib : Crates) (offset : Int64) (msg : Bytes) :
    (finishMessage lib offset msg).length = 16 + msg.length := by
  simp only [finishMessage, length_append, putI64, putI32, putU32, BigEndian.length_encode]

theorem message_finish {offset timestampMs : Int64} {attributes : Int8} {key : Option Bytes}
    {value : Bytes} {records : List FetchedRecord}
    (hlen : 22 + (key.getD []).length + value.length < 2 ^ 31)
    (hcontents : messageContents lib inner attributes.toUInt8.toNat offset.toInt timestampMs.toInt
      key value = some records) :
    message lib inner (finishMessage lib offset (messagePayload attributes timestampMs key value) ++
      tail) = some (records, tail) := by
  have hlength := length_messagePayload attributes timestampMs key value
  generalize hmsg : messagePayload attributes timestampMs key value = msg at hlength ⊢
  have hkey : ∀ bs, key = some bs → bs.length < 2 ^ 31 := by
    rintro bs rfl
    rw [Option.getD_some] at hlen
    omega
  have hvalue : ∀ bs, some value = some bs → bs.length < 2 ^ 31 := by
    intro bs hbs
    rw [← Option.some.inj hbs]
    omega
  have hmagic : ((1 : Int8).toUInt8.toNat == 1) = true := by decide
  have hbody : whole (messageBody lib inner offset.toInt) (putU32 (lib.crc32 msg) ++ msg) =
      some records := by
    unfold messageBody
    rw [whole, bind_run (uintBE_putU32 _), bind_run (a := msg) rfl,
      bind_run (check_true (by simp)), ← hmsg, messagePayload]
    simp only [append_assoc]
    have hlast := fixedBytes_put hvalue []
    rw [append_nil] at hlast
    rw [bind_run (uintBE_putI8 _), bind_run (check_true hmagic), bind_run (uintBE_putI8 _),
      bind_run (intBE_putI64 _), bind_run (fixedBytes_put hkey _), bind_run hlast,
      Option.getD_some, hcontents]
    rfl
  have hbytes : 4 + msg.length = (putU32 (lib.crc32 msg) ++ msg).length := by simp [putU32]
  have hsize : (putU32 (lib.crc32 msg) ++ msg).length < 2 ^ 31 := by omega
  simpa [message, finishMessage, hbytes] using frame_encode hsize hbody

/-- A message as the consumer sees it: the format has no headers. -/
def shownMessage (r : Record) : FetchedRecord where
  offset := (offsetAsI64 r.offset).toInt
  timestamp := r.timestampMs.toInt
  key := r.key
  value := r.value
  headers := []

theorem encodeMessage_eq (r : Record) : encodeMessage lib r =
    finishMessage lib (offsetAsI64 r.offset) (messagePayload 0 r.timestampMs r.key r.value) := rfl

theorem message_encode {r : Record} (hbound : wireBound r < 2 ^ 31) :
    message lib inner (encodeMessage lib r ++ tail) = some ([shownMessage r], tail) := by
  refine message_finish ?_ rfl
  unfold wireBound at hbound
  omega

theorem encodeMessage_ne_nil (r : Record) : encodeMessage lib r ≠ [] := by
  intro hnil
  have hlength := length_finishMessage lib (offsetAsI64 r.offset)
    (messagePayload 0 r.timestampMs r.key r.value)
  rw [← encodeMessage_eq, hnil, length_nil] at hlength
  omega

variable {data : List Record}

theorem all_messageSet (hbound : (data.map wireBound).sum < 2 ^ 31) :
    (all (message lib inner) (encodeMessageSet lib data)).map flatten =
      some (data.map shownMessage) := by
  rw [encodeMessageSet, all_flatMap (f := fun r => [shownMessage r]) fun r hr =>
    ⟨encodeMessage_ne_nil r, fun tail => message_encode
      (lt_of_le_of_lt (single_le_sum (by simp) _ (mem_map_of_mem hr)) hbound)⟩,
    Option.map_some, ← flatMap_def, ← map_eq_flatMap]

/-- The magic byte of a message. -/
theorem getElem?_finishMessage (offset : Int64) (attributes : Int8) (timestampMs : Int64)
    (key : Option Bytes) (value tail : Bytes) :
    (finishMessage lib offset (messagePayload attributes timestampMs key value) ++ tail)[16]? =
      some 1 := by
  exact getElem?_magic (BigEndian.length_encode 4 _)

theorem recordSet_messageSet (data : List Record) (hbound : (data.map wireBound).sum < 2 ^ 31) :
    recordSet lib (encodeMessageSet lib data) = some (data.map shownMessage) := by
  have hmagic : ¬ (encodeMessageSet lib data)[16]? = some 2 := by
    cases data with
    | nil => simp [encodeMessageSet]
    | cons r rest =>
      rw [encodeMessageSet, flatMap_cons, encodeMessage_eq, getElem?_finishMessage]
      decide
  rw [recordSet, if_neg hmagic, all_messageSet hbound]

/-- The offsets of a wrapper are those of its messages. -/
theorem relocate_last {first : Record} :
    relocate (offsetAsI64 (rest.getLast?.getD first).offset).toInt
        ((first :: rest).map shownMessage) = (first :: rest).map shownMessage := by
  have hlast : ((first :: rest).map shownMessage).getLast? =
      some (shownMessage (rest.getLast?.getD first)) := by
    rw [getLast?_map, getLast?_cons, Option.map_some]
  rw [relocate, hlast]
  dsimp only
  rw [map_map]
  refine map_congr_left fun r _ => ?_
  simp [shownMessage]

theorem recordSet_compressed (hlawful : lib.Lawful) {set : Bytes}
    (hne : data ≠ []) (hcodec : codec ≠ .none) (hbound : (data.map wireBound).sum < 2 ^ 31)
    (hset : encodeMessageSetCompressed lib data codec = .ok set) (hlen : set.length < 2 ^ 31) :
    recordSet lib set = some (data.map shownMessage) := by
  obtain ⟨first, rest, rfl⟩ := exists_cons_of_ne_nil hne
  unfold encodeMessageSetCompressed at hset
  dsimp only at hset
  rw [if_neg hcodec] at hset
  split at hset
  next => cases hset
  next compressed hcompress =>
    have hwrapper : set = finishMessage lib (offsetAsI64 (rest.getLast?.getD first).offset)
        (messagePayload (messageSetCodec codec).asU8.toInt8
          (rest.foldl (fun m r => max m r.timestampMs) first.timestampMs) none compressed) :=
      (Except.ok.inj hset).symm
    rw [hwrapper, length_finishMessage, length_messagePayload] at hlen
    have hattributes : codecOf (messageSetCodec codec).asU8.toInt8.toUInt8.toNat =
        some (messageSetCodec codec) ∧ messageSetCodec codec ≠ .none := by
      cases codec with
      | none => exact absurd rfl hcodec
      | _ => exact ⟨by decide, by decide⟩
    have hplain : plain lib (messageSetCodec codec) compressed =
        some (encodeMessageSet lib (first :: rest)) := by
      rw [plain, if_neg hattributes.2, hlawful _ _ _ hcompress]
      rfl
    have hinner : innerSet lib (encodeMessageSet lib (first :: rest)) =
        some ((first :: rest).map shownMessage) := all_messageSet hbound
    have hread (tail : Bytes) : message lib (innerSet lib) (set ++ tail) =
        some ((first :: rest).map shownMessage, tail) := by
      rw [hwrapper]
      refine message_finish (by rw [Option.getD_none] at hlen ⊢; omega) ?_
      rw [messageContents, hattributes.1]
      simp only [Option.bind_eq_bind, Option.bind_some, if_neg hattributes.2, hplain, hinner,
        Option.map_some, relocate_last]
    have hne' : set ≠ [] := by
      intro hnil
      have hlength := congrArg length hwrapper
      rw [hnil, length_finishMessage, length_nil] at hlength
      omega
    have hmagic : set[16]? = some 1 := by
      rw [hwrapper, ← append_nil (finishMessage _ _ _)]
      exact getElem?_finishMessage _ _ _ _ _ _
    have hall : all (message lib (innerSet lib)) ([()].flatMap fun _ => set) =
        some ([()].map fun _ => (first :: rest).map shownMessage) :=
      all_flatMap fun _ _ => ⟨hne', hread⟩
    rw [flatMap_cons, flatMap_nil, append_nil] at hall
    rw [recordSet, hmagic, hall]
    simp

/-- What a consumer reads from a response in the older format. -/
theorem recordSet_old (hlawful : lib.Lawful) {version : Int16}
    (hversion : version < 4) (hbound : (records.map wireBound).sum < 2 ^ 31)
    (hlen : (encodeFetchRecordSet lib codec records version).length < 2 ^ 31) :
    recordSet lib (encodeFetchRecordSet lib codec records version) =
      some ((records.filter fun r => !isTxnControlRecord r).map shownMessage) := by
  have hdata : ((records.filter fun r => !isTxnControlRecord r).map wireBound).sum < 2 ^ 31 :=
    lt_of_le_of_lt ((filter_sublist.map wireBound).sum_le_sum (by simp)) hbound
  have hnil : recordSet lib [] = some [] := recordSet_messageSet [] (by simp)
  unfold encodeFetchRecordSet at hlen ⊢
  by_cases hrecords : records.isEmpty = true
  · rw [if_pos hrecords, hnil, isEmpty_iff.mp hrecords]
    rfl
  rw [if_neg hrecords, if_pos hversion] at hlen ⊢
  generalize records.filter (fun r => !isTxnControlRecord r) = data at hdata hlen ⊢
  by_cases hempty : data.isEmpty = true
  · rw [if_pos hempty, hnil, isEmpty_iff.mp hempty]
    rfl
  rw [if_neg hempty] at hlen ⊢
  by_cases hcodec : codec = .none
  · rw [if_pos hcodec]
    exact recordSet_messageSet _ hdata
  rw [if_neg hcodec] at hlen ⊢
  cases hset : encodeMessageSetCompressed lib data codec with
  | error e => exact recordSet_messageSet _ hdata
  | ok set =>
    rw [hset] at hlen
    exact recordSet_compressed hlawful (by simpa using hempty) hcodec hdata hset hlen

end

end Volant.Kafka
