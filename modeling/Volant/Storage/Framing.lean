-- SUMMARY: Which bytes decode as one record, and that a decoded record fits the format it was read from.
import Volant.Storage.Scan

/-!
# Framing

`decode_record_at` looks only at the bytes of the record it returns. `Frame`
says which byte strings it reads as one record; everything a scan does at a
position follows from the frame that starts there. The length field fixes how
long that frame is, so what stands behind a record cannot change how it is
read, and a record cut short is not read at all.
-/

namespace Volant.Storage

open List Reader
open LittleEndian (decode decode_encode decode_lt encode)

variable {buf rest : Bytes}

/-! ## What the parser consumes -/

theorem readI64_eq_some {t : Int64} : readI64 buf = some (t, rest) ↔
      8 ≤ buf.length ∧ t = decodeI64 (buf.take 8) ∧ rest = buf.drop 8 := by
  unfold readI64
  exact ite_eq_some

theorem readName_consumes {len : Nat} {name : String} (h : readName len buf = some (name, rest)) :
    name.toUTF8.data.toList.length = len ∧ len + rest.length = buf.length := by
  obtain ⟨bs, mid, hbytes, h⟩ := bind_eq_some.mp h
  obtain ⟨hlen, rfl, rfl⟩ := bytes_eq_some.mp hbytes
  rcases hutf : String.fromUTF8? ⟨(buf.take len).toArray⟩ with _ | s <;> rw [hutf] at h
  · cases h
  · obtain ⟨rfl, rfl⟩ := pure_eq_some.mp h
    unfold String.fromUTF8? at hutf
    split at hutf
    · obtain rfl := Option.some.inj hutf
      refine ⟨?_, by rw [length_drop]; omega⟩
      change (buf.take len).toArray.toList.length = len
      simp [hlen]
    · cases hutf

theorem readRecordHeader_consumes {h : String × Bytes}
    (hrun : readRecordHeader buf = some (h, rest)) :
    2 + h.1.toUTF8.data.toList.length + 4 + h.2.length + rest.length = buf.length ∧
      h.1.toUTF8.data.toList.length < 2 ^ 16 := by
  obtain ⟨n, b1, hn, hrun⟩ := bind_eq_some.mp hrun
  obtain ⟨name, b2, hname, hrun⟩ := bind_eq_some.mp hrun
  obtain ⟨v, b3, hv, hrun⟩ := bind_eq_some.mp hrun
  obtain ⟨value, b4, hvalue, hrun⟩ := bind_eq_some.mp hrun
  obtain ⟨rfl, rfl⟩ := pure_eq_some.mp hrun
  obtain ⟨hlen1, rfl, rfl⟩ := uint_eq_some.mp hn
  obtain ⟨hsize, hlen2⟩ := readName_consumes hname
  obtain ⟨hlen3, rfl, rfl⟩ := uint_eq_some.mp hv
  obtain ⟨hlen4, rfl, rfl⟩ := bytes_eq_some.mp hvalue
  have hshort := decode_lt (buf.take 2)
  rw [length_take, Nat.min_eq_left hlen1] at hshort
  simp only [length_take, length_drop] at hlen2 hlen4 ⊢
  exact ⟨by omega, by omega⟩

theorem readKey_consumes {k : Option Bytes} (h : readKey buf = some (k, rest)) :
    (match k with | some k => 4 + k.length | none => 4) + rest.length = buf.length := by
  obtain ⟨n, b1, hn, h⟩ := bind_eq_some.mp h
  obtain ⟨hn, rfl, rfl⟩ := uint_eq_some.mp hn
  split at h
  · obtain ⟨rfl, rfl⟩ := pure_eq_some.mp h
    simp only [length_drop]
    omega
  · obtain ⟨bs, b2, hbs, h⟩ := bind_eq_some.mp h
    obtain ⟨rfl, rfl⟩ := pure_eq_some.mp h
    obtain ⟨hbs, rfl, rfl⟩ := bytes_eq_some.mp hbs
    simp only [length_take, length_drop] at *
    omega

/-- A parsed record takes no more room than the body it was read from, and its header names fit
their length field. -/
theorem parseBody_consumes {body : Bytes} {r : Record} (h : parseBody body = some (r, rest)) :
    recordBodySize r.toMessage + rest.length = body.length ∧
      (∀ h ∈ r.headers, h.1.toUTF8.data.toList.length < 2 ^ 16) ∧ r.offset = decode (body.take 8) ∧
      r.timestampMs = decodeI64 ((body.drop 8).take 8) := by
  obtain ⟨offset, b1, hoffset, h⟩ := bind_eq_some.mp h
  obtain ⟨ts, b2, hts, h⟩ := bind_eq_some.mp h
  obtain ⟨key, b3, hkey, h⟩ := bind_eq_some.mp h
  obtain ⟨vlen, b4, hvlen, h⟩ := bind_eq_some.mp h
  obtain ⟨value, b5, hvalue, h⟩ := bind_eq_some.mp h
  obtain ⟨count, b6, hcount, h⟩ := bind_eq_some.mp h
  obtain ⟨headers, b7, hheaders, h⟩ := bind_eq_some.mp h
  obtain ⟨rfl, rfl⟩ := pure_eq_some.mp h
  obtain ⟨hlen1, rfl, rfl⟩ := uint_eq_some.mp hoffset
  obtain ⟨hlen2, rfl, rfl⟩ := readI64_eq_some.mp hts
  have hlen3 := readKey_consumes hkey
  obtain ⟨hlen4, rfl, rfl⟩ := uint_eq_some.mp hvlen
  obtain ⟨hlen5, rfl, rfl⟩ := bytes_eq_some.mp hvalue
  obtain ⟨hlen6, rfl, rfl⟩ := uint_eq_some.mp hcount
  obtain ⟨hsizes, hnames⟩ := times_consumes
    (fun {_ _ _} hone => readRecordHeader_consumes hone) hheaders
  refine ⟨?_, hnames, rfl, rfl⟩
  simp only [length_drop] at hlen2 hlen3 hlen5 hlen6 hsizes
  cases key with
  | none =>
    simp only [recordBodySize, Record.toMessage, length_take, length_drop] at hlen3 ⊢
    omega
  | some k =>
    simp only [recordBodySize, Record.toMessage, length_take, length_drop] at hlen3 ⊢
    omega

/-! ## Frames -/

/-- The bytes are one whole record, read as `r`. -/
structure Frame (crc : Bytes → UInt32) (bytes : Bytes) (r : Record) : Prop where
  long : 8 ≤ bytes.length
  recordLength : 4 + decode (bytes.take 4) = bytes.length
  crc : decode ((bytes.drop 4).take 4) = (crc (bytes.drop 8)).toNat
  body : ∃ rest, parseBody (bytes.drop 8) = some (r, rest)

section

variable {crc : Bytes → UInt32} {data bytes : Bytes} {r : Record} {pos n s : Nat}

/-- What a decode at `pos` returns is decided by the bytes of the frame that starts there. -/
theorem decodeRecordAt_eq_ok {p : Nat} : decodeRecordAt crc data pos = .ok r p n s ↔
      p = pos ∧ n = pos + s ∧ n ≤ data.length ∧ Frame crc ((data.drop pos).take s) r := by
  -- the pieces of the record, as the decoder and as the frame cut them out
  have hpieces : ∀ L, ((data.drop (pos + 4)).take L) = ((data.drop pos).take (4 + L)).drop 4 := by
    intro L
    rw [drop_take, drop_drop, Nat.add_sub_cancel_left]
  have hfirst : ∀ L, ((data.drop pos).take (4 + L)).take 4 = (data.drop pos).take 4 := by
    intro L
    rw [take_take, Nat.min_eq_left (by omega)]
  constructor
  · intro h
    unfold decodeRecordAt at h
    split at h
    · cases h
    simp only at h
    split at h
    · cases h
    split at h
    · cases h
    split at h
    · cases h
    rename_i hsum
    split at h
    · rename_i record rest hbody
      cases h
      refine ⟨rfl, rfl, by omega, ?_⟩
      have hlong : ((data.drop pos).take
          (4 + decode ((data.drop pos).take 4))).length =
          4 + decode ((data.drop pos).take 4) := by
        rw [length_take, length_drop]
        omega
      refine ⟨by omega, by rw [hfirst, hlong], ?_, rest, ?_⟩
      · rw [hpieces, drop_drop] at hsum
        exact not_not.mp hsum
      · rw [hpieces, drop_drop] at hbody
        exact hbody
    · cases h
  · rintro ⟨rfl, rfl, hle, hlong, hlength, hsum, rest, hbody⟩
    have hs : ((data.drop p).take s).length = s := by
      rw [length_take, length_drop]
      omega
    obtain ⟨L, rfl⟩ : ∃ L, s = 4 + L := ⟨s - 4, by omega⟩
    rw [hfirst] at hlength
    have hL : decode ((data.drop p).take 4) = L := by omega
    unfold decodeRecordAt
    simp only [hL, hpieces, drop_drop]
    rw [if_neg (by omega), if_neg (by omega), if_neg (by omega), if_neg (by simpa using hsum),
      hbody]

/-- The frame decodes wherever it stands, whatever is around it. -/
theorem Frame.decode (h : Frame crc bytes r) (before after : Bytes) :
    decodeRecordAt crc (before ++ (bytes ++ after)) before.length =
      .ok r before.length (before.length + bytes.length) bytes.length := by
  refine decodeRecordAt_eq_ok.mpr ⟨rfl, rfl, ?_, ?_⟩
  · simp only [length_append]
    omega
  · rwa [drop_left, take_left]

/-- The length field fixes where a frame ends. -/
theorem Frame.length_eq (h : Frame crc bytes r) {other : Bytes} {t : Record}
    (ho : Frame crc other t) (hfour : other.take 4 = bytes.take 4) :
    other.length = bytes.length := by
  rw [← h.recordLength, ← ho.recordLength, hfour]

/-- A record cut short does not decode. -/
theorem Frame.torn (h : Frame crc bytes r) {piece rest : Bytes} (hcut : bytes = piece ++ rest)
    (hrest : rest ≠ []) (before : Bytes) (t : Record) (p : Nat) :
    decodeRecordAt crc (before ++ piece) before.length ≠ .ok t p n s := by
  intro hok
  obtain ⟨-, rfl, hle, hframe⟩ := decodeRecordAt_eq_ok.mp hok
  rw [drop_left] at hframe
  have hlen := h.length_eq hframe (by
    rw [hcut, take_take, take_append_of_le_length]
    · have := hframe.long
      rw [length_take] at this
      rw [Nat.min_eq_left (by omega)]
    · have := hframe.long
      rw [length_take] at this
      omega)
  have hpos := length_pos_iff.mpr hrest
  rw [hcut, length_take, length_append] at hlen
  omega

/-- A frame that an encoded record begins with has the record's offset and timestamp. -/
theorem Frame.offset_eq {t : Record} (h : Frame crc ((encodeStored crc r).take n) t)
    (ho : r.offset < 2 ^ 64) : t.offset = r.offset ∧ t.timestampMs = r.timestampMs := by
  obtain ⟨rest, hbody⟩ := h.body
  obtain ⟨hsize, -, hoffset, htime⟩ := parseBody_consumes hbody
  have hdrop : ((encodeStored crc r).take n).drop 8 =
      (encodeBody r.offset r.timestampMs r.toMessage).take (n - 8) := by
    rw [drop_take, encodeStored, encodeRecord, drop_left' (by simp)]
  have hlong : 28 ≤ recordBodySize t.toMessage := by
    simp only [recordBodySize]
    split <;> omega
  rw [hdrop] at hsize hoffset htime
  rw [length_take] at hsize
  have h1 : ((encodeBody r.offset r.timestampMs r.toMessage).take (n - 8)).take 8 =
      encode 8 r.offset := by
    rw [take_take, Nat.min_eq_left (by omega)]
    simp [encodeBody]
  have h2 : (((encodeBody r.offset r.timestampMs r.toMessage).take (n - 8)).drop 8).take 8 =
      encodeI64 r.timestampMs := by
    rw [drop_take, take_take, Nat.min_eq_left (by omega)]
    simp [encodeBody]
  rw [h1, decode_encode (by simpa using ho)] at hoffset
  rw [h2, decodeI64_encodeI64] at htime
  exact ⟨hoffset, htime⟩

/-- A record that was read fits the format. -/
theorem Frame.storable (h : Frame crc bytes r) (ho : r.offset < u64Max) : Storable r := by
  obtain ⟨rest, hbody⟩ := h.body
  obtain ⟨hsize, hnames, -, -⟩ := parseBody_consumes hbody
  have hlt := decode_lt (bytes.take 4)
  have hlen := h.recordLength
  rw [length_take, Nat.min_eq_left (by omega)] at hlt
  rw [length_drop] at hsize
  exact ⟨⟨by omega, hnames⟩, ho⟩

end

/-! ## Messages that do not survive the codec -/

/-- Only a message whose lengths fit their fields comes back from its encoding. -/
theorem fits_of_decode {crc : Bytes → UInt32} {m : Message} {o : Nat} {t : Int64}
    (h : decodeRecordAt crc (encodeRecord crc o t m) 0 =
      .ok (m.toRecord o t) 0 (encodedRecordSize m) (encodedRecordSize m)) : Message.Fits m := by
  obtain ⟨-, -, -, hframe⟩ := decodeRecordAt_eq_ok.mp h
  rw [drop_zero, ← length_encodeRecord crc o t m, take_length] at hframe
  obtain ⟨rest, hbody⟩ := hframe.body
  obtain ⟨-, hnames, -⟩ := parseBody_consumes hbody
  have hlt := decode_lt ((encodeRecord crc o t m).take 4)
  have hlen := hframe.recordLength
  rw [length_take, Nat.min_eq_left (by omega)] at hlt
  rw [length_encodeRecord, encodedRecordSize] at hlen
  exact ⟨by omega, hnames⟩

/-- One more byte than the length field of a header name can count. -/
@[irreducible] def longNameLength : Nat := 2 ^ 16

theorem longNameLength_eq : longNameLength = 65536 := by
  unfold longNameLength
  rfl

def longName : String := String.ofList (List.replicate longNameLength 'a')

def longNamed : Message where
  key := none
  value := []
  timestampMs := some 0
  headers := [(longName, [])]

theorem toUTF8_replicate (n : Nat) :
    (String.ofList (replicate n 'a')).toUTF8.data.toList = replicate n 97 := by
  change (replicate n 'a').utf8Encode.data.toList = _
  rw [utf8Encode, data_toByteArray]
  induction n with
  | zero => rfl
  | succ n ih =>
    exact congrArg (97 :: ·) ih

theorem toUTF8_longName : longName.toUTF8.data.toList = replicate longNameLength 97 :=
  toUTF8_replicate _

theorem recordBodySize_longNamed : recordBodySize longNamed = 34 + longNameLength := by
  have hone : ∀ name, recordBodySize { longNamed with headers := [(name, [])] } =
      34 + name.toUTF8.data.toList.length := by
    simp only [recordBodySize, longNamed, map_cons, map_nil, sum_cons, sum_nil, length_nil]
    omega
  have h := hone longName
  rwa [toUTF8_longName, length_replicate] at h

/-- The name's length is written as zero, so its first bytes are taken for the length of the
header's value, which is then too long. -/
theorem parseBody_longNamed (o : Nat) (t : Int64) (ho : o < 2 ^ 64) :
    parseBody (encodeBody o t longNamed) = none := by
  have hname : ∀ rest, readName 0 rest = some ("", rest) := readName_toUTF8 ""
  -- four times the letter `a`
  have hfirst : encode 4 1633771873 = replicate 4 (97 : UInt8) := by decide
  have hzero : encode 2 longNameLength = encode 2 0 := by
    rw [longNameLength_eq]
    decide
  have hvlen : uint 4 (replicate longNameLength 97 ++ encode 4 0) =
      some (1633771873, replicate (longNameLength - 4) 97 ++ encode 4 0) := by
    have hsplit : longNameLength = 4 + (longNameLength - 4) := by
      rw [longNameLength_eq]
    rw [hsplit, replicate_add, ← hfirst, append_assoc, uint_encode (by decide),
      Nat.add_sub_cancel_left]
  have hshort : bytes 1633771873
      (replicate (longNameLength - 4) 97 ++ encode 4 0) = none := by
    rw [bytes]
    rw [length_append, length_replicate, longNameLength_eq]
    decide
  have hheader : readRecordHeader (encode 2 longNameLength ++
      (replicate longNameLength 97 ++ encode 4 0)) = none := by
    rw [readRecordHeader, hzero, bind_run (uint_encode (by decide) _),
      bind_run (hname _), bind_run hvlen]
    simp only [bind, StateT.bind, hshort]
    rfl
  have hitem : longNamed.headers.flatMap encodeRecordHeader =
      encode 2 longNameLength ++
        (replicate longNameLength 97 ++ encode 4 0) := by
    rw [longNamed, flatMap_cons, flatMap_nil, append_nil, encodeRecordHeader,
      toUTF8_longName, length_replicate, append_nil, append_assoc]
    rfl
  have htimes : times longNamed.headers.length readRecordHeader
      (longNamed.headers.flatMap encodeRecordHeader) = none := by
    rw [hitem, show longNamed.headers.length = 1 from rfl, times]
    simp only [bind, StateT.bind, hheader]
    rfl
  have hkey : encodeKey longNamed.key = encodeKey none := rfl
  simp only [parseBody, encodeBody, hkey, append_assoc]
  rw [bind_run (uint_encode (by simpa using ho) _),
    bind_run (readI64_encodeI64 _ _), bind_run (readKey_encodeKey (by simp) _),
    bind_run (uint_encode (by decide) _), bind_run (bytes_append _ _),
    bind_run (uint_encode (by decide) _)]
  simp only [bind, StateT.bind, htimes]
  rfl

/-- A scan does not get past the message. -/
theorem decodeRecordAt_longNamed (crc : Bytes → UInt32) {o : Nat} (ho : o < 2 ^ 64) (t : Int64)
    (before after : Bytes) (r : Record) (p n s : Nat) :
    decodeRecordAt crc (before ++ (encodeRecord crc o t longNamed ++ after)) before.length ≠
      .ok r p n s := by
  intro hok
  obtain ⟨-, rfl, hle, hframe⟩ := decodeRecordAt_eq_ok.mp hok
  rw [drop_left] at hframe
  have hsize : 4 + recordBodySize longNamed < 256 ^ 4 := by
    rw [recordBodySize_longNamed, longNameLength_eq]
    decide
  -- the length field is right, so the frame is the whole encoding
  have hlen := hframe.recordLength
  have hlong := hframe.long
  simp only [length_append, length_encodeRecord] at hle
  rw [length_take, length_append, length_encodeRecord, take_take,
    Nat.min_eq_left (by rw [length_take] at hlong; omega)] at hlen
  have hfour : (encodeRecord crc o t longNamed ++ after).take 4 =
      encode 4 (4 + recordBodySize longNamed) := by
    simp [encodeRecord]
  rw [hfour, decode_encode hsize] at hlen
  have hwhole : (encodeRecord crc o t longNamed ++ after).take s = encodeRecord crc o t longNamed := by
    apply take_left'
    rw [length_encodeRecord, encodedRecordSize]
    omega
  obtain ⟨rest, hbody⟩ := hframe.body
  rw [hwhole, encodeRecord, drop_left' (by simp), parseBody_longNamed o t ho] at hbody
  cases hbody

end Volant.Storage
