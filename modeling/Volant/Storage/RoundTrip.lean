-- SUMMARY: Exactly the messages whose lengths fit their fields come back from the record codec; the others are accepted and lost.
import Volant.Storage.Refinement
import Volant.Storage.WritePath

/-!
# Round trip of the record codec

`encode_record` narrows every length it writes, and nothing in the append path
looks at a message first. The codec gives back the messages whose lengths fit.
A message with a longer header name is accepted, acknowledged and not there
when the log is opened again.
-/

namespace Volant.Storage

open Exec List

/-- A message comes back from its encoding, in front of any bytes and behind any, exactly when its
lengths fit; and a file of records that fit is recovered to its end. -/
theorem record_codec_round_trip (crc : Bytes → UInt32) :
    (∀ (m : Message) (offset : Nat) (t : Int64), offset < 2 ^ 64 → ((∀ before after : Bytes,
          decodeRecordAt crc (before ++ (encodeRecord crc offset t m ++ after)) before.length =
            .ok (m.toRecord offset t) before.length (before.length + encodedRecordSize m)
              (encodedRecordSize m)) ↔ Message.Fits m)) ∧
    ∀ (base interval : Nat) (header : Bytes) (rs : List Record), header.length = HEADER_SIZE →
      Growing rs → (∀ r ∈ rs, base ≤ r.offset ∧ Message.Fits r.toMessage) →
      RecoversTo crc (header ++ encodeAll crc rs) base interval rs := by
  refine ⟨?_, ?_⟩
  · intro m offset t ho
    constructor
    · intro h
      have hplain := h [] []
      rw [append_nil, length_nil, Nat.zero_add] at hplain
      exact fits_of_decode hplain
    · intro hm before after
      exact decodeRecordAt_encodeRecord crc hm ho t before after
  · intro base interval header rs hheader hgrow hfits
    have hscan : ∀ r ∈ rs, base ≤ r.offset ∧ Framed crc r := by
      intro r hr
      obtain ⟨hbase, hr'⟩ := hfits r hr
      have := hgrow.wide r hr
      unfold u64Max at this
      exact ⟨hbase, .of_fits hr' (by omega)⟩
    have h := @recoverAndIndex_zeros crc base interval header rs hheader hgrow hscan 0
    rw [replicate_zero, append_nil] at h
    exact recoversTo_scanAll h

/-- A message with a key and a header. -/
def taggedMessage : Message where
  key := some [107]
  value := [120]
  timestampMs := some 3
  headers := [("trace", [1, 2])]

theorem taggedMessage_fits : Message.Fits taggedMessage where
  recordLength := by decide +kernel
  names := by simp +decide

theorem record_codec_round_trip_tagged :
    decodeRecordAt (fun _ => 0) ([1, 2] ++ (encodeRecord (fun _ => 0) 7 3 taggedMessage ++ [9])) 2 =
      .ok (taggedMessage.toRecord 7 3) 2 (2 + encodedRecordSize taggedMessage)
        (encodedRecordSize taggedMessage) ∧
    RecoversTo (fun _ => 0) (replicate HEADER_SIZE 0 ++
      encodeAll (fun _ => 0) [taggedMessage.toRecord 7 3]) 5 4096 [taggedMessage.toRecord 7 3] := by
  constructor
  · exact ((record_codec_round_trip fun _ => 0).1 taggedMessage 7 3 (by decide)).mpr
      taggedMessage_fits [1, 2] [9]
  · refine (record_codec_round_trip fun _ => 0).2 5 4096 _ _ (length_replicate ..)
      ⟨by decide, by simp⟩ fun r hr => ?_
    obtain rfl := mem_singleton.mp hr
    exact ⟨by decide, taggedMessage_fits⟩

/-! ## A message that is accepted and lost -/

namespace PartitionLog

theorem onActive_run {α : Type} {missing : String} {x : SegM α} {s : LogState}
    {front : List Segment} {g : Segment} {Q : α → SegState → Prop}
    (hsegs : s.log.segments = front ++ [g]) (h : Runs x ⟨s.host, g⟩ Q) :
    Runs (onActive missing x) s fun a s' => ∃ t, Q a t ∧
      s' = ⟨t.host, { s.log with segments := front ++ [t.seg] }⟩ := by
  obtain ⟨a, t, hx, hq⟩ := h
  refine ⟨a, ⟨t.host, { s.log with segments := front ++ [t.seg] }⟩, ?_, t, hq, rfl⟩
  unfold onActive
  rw [hsegs, getLast?_concat]
  simp [hx]

end PartitionLog

/-- The segment a plain log begins with. -/
def firstSegment : Segment where
  dir := .data
  baseOffset := 0
  nextOffset := 0
  size := HEADER_SIZE
  lastTimestampMs := 0
  createdAtMs := 0
  indexIntervalBytes := 4096
  bytesSinceIndex := 0
  index := []
  logWriter := some { cursor := HEADER_SIZE, buf := [] }
  logFile := false
  indexWriter := true
  mmap := none
  useMmap := true
  sealed := false
  directIo := false
  physicalSize := HEADER_SIZE
  pending := []
  backend := some .std

/-- A plain log that has just been created. -/
def newLog : LogState where
  host := {
    logs := (AList.insert ⟨.data, 0⟩ (encodeHeader 0 0) ∅).insert ⟨.data, 0⟩ (encodeHeader 0 0)
    indexes := [⟨.data, 0⟩]
    clock := fun _ => 0
    tick := 1 }
  log := {
    config := .default
    segments := [firstSegment]
    nextOffset := 0
    appendsSinceFlush := 0 }

theorem newLog_backs : SegState.Backs ⟨newLog.host, firstSegment⟩ (encodeHeader 0 0) where
  file := ⟨encodeHeader 0 0, AList.lookup_insert _, .buffered _ rfl rfl rfl rfl
    (length_encodeHeader 0 0).symm (append_nil _)⟩
  size := (length_encodeHeader 0 0).symm

/-- Any message is accepted as the first of a log, and its encoding is in the file. -/
theorem append_newLog (P : Platform) (m : Message) (t : Int64) (hm : m.timestampMs = some t) :
    Runs (PartitionLog.append P m) ⟨newLog.host, newLog.log⟩ fun r s => r = m.toRecord 0 t ∧
      s.host.logs.lookup ⟨.data, 0⟩ = some (encodeHeader 0 0 ++ encodeRecord P.crc 0 t m) ∧
      ∀ base, base ≠ 0 → s.host.logs.lookup ⟨.data, base⟩ = none := by
  have hsegment : Runs (Segment.append P 0 m t) ⟨newLog.host, firstSegment⟩ fun r u =>
      r = m.toRecord 0 t ∧
      u.host.logs.lookup ⟨.data, 0⟩ = some (encodeHeader 0 0 ++ encodeRecord P.crc 0 t m) ∧
      ∀ base, base ≠ 0 → u.host.logs.lookup ⟨.data, base⟩ = none := by
    have hrun := @Segment.append_run P ⟨newLog.host, firstSegment⟩ _ newLog_backs rfl (by decide)
      (by decide) m t
    refine (hrun.and_ok fun r u hu => ?_).mono fun r u h => ⟨h.1.1, h.2⟩
    obtain ⟨hs, -, hencoded⟩ := Segment.append_ok hu
    obtain ⟨-, hback, hset, hothers, w, ps, pd, sz, i, b, n, hseg⟩ :=
      Segment.appendEncoded_backs newLog_backs hs hencoded
    obtain ⟨file, hfile, hb⟩ := hback.file
    have hpath : u.seg.path = ⟨.data, 0⟩ := by
      rw [hseg]
      rfl
    have hplain : u.seg.sealed = false ∧ u.seg.directIo = false ∧ u.seg.logFile = false := by
      rw [hseg]
      exact ⟨rfl, rfl, rfl⟩
    rw [hpath] at hfile
    refine ⟨?_, ?_⟩
    · cases hb with
      | sealed hs' => simp [hplain.1] at hs'
      | buffered w' _ _ hw' _ _ hbytes =>
        rw [hset w' hw', append_nil] at hbytes
        rw [hfile, hbytes]
        rfl
      | raw _ _ _ _ hbytes =>
        rw [hfile, hbytes]
        rfl
      | direct _ hd => simp [hplain.2.1] at hd
    · intro base hbase
      have hne : (⟨.data, base⟩ : Path) ≠ ⟨.data, 0⟩ := fun hp => hbase (congrArg Path.base hp)
      rw [hothers _ hne]
      exact (AList.lookup_insert_ne hne).trans (AList.lookup_insert_ne hne)
  unfold PartitionLog.append PartitionLog.appendOne PartitionLog.timestampOf
  rw [hm]
  refine .bind (.bind (.pure (.bind (.get (.bind (.pure (.bind (.get (.bind ?_)))))))))
  refine (PartitionLog.onActive_run (show _ = [] ++ [_] from rfl) hsegment).mono ?_
  rintro r s ⟨u, ⟨rfl, hfile, hothers⟩, rfl⟩
  refine .bind (.modify (.pure (.bind (.bind (.modify (.bind (.get ?_)))))))
  exact .pure (.pure ⟨rfl, hfile, hothers⟩)

/-- A log with one segment ends where the recovery of its file ends. -/
theorem open_first {P : Platform} {h : Host} {tail : Bytes} {acc : Segment.Recovered}
    (hfile : h.logs.lookup ⟨.data, 0⟩ = some (encodeHeader 0 0 ++ tail))
    (hothers : ∀ base, base ≠ 0 → h.logs.lookup ⟨.data, base⟩ = none)
    (hrecover : Segment.recoverAndIndex P.crc (encodeHeader 0 0 ++ tail) 0 4096 = .ok acc) :
    Runs (PartitionLog.open P .default) h fun log _ => log.nextOffset = acc.nextOffset := by
  have hbases : listSegmentBases h = [0] := by
    refine listSegmentBases_eq (by simp) fun base => ?_
    by_cases hb : base = 0
    · subst hb
      simp [hfile]
    · simp [hb, hothers base hb]
  have hlen : ¬ (encodeHeader 0 0 ++ tail).length < HEADER_SIZE := by
    rw [length_append, length_encodeHeader]
    omega
  have hrec : Segment.recoverFile P.crc (encodeHeader 0 0 ++ tail) 0 4096 =
      .ok ({ version := VERSION, flags := 0, baseOffset := 0, createdAtMs := 0 }, acc) := by
    unfold Segment.recoverFile
    rw [if_neg hlen, take_left' (length_encodeHeader 0 0),
      decodeHeader_encodeHeader (by decide), hrecover]
    simp only [bind, Except.bind, pure, Except.pure]
    rw [if_neg (by simp)]
  have hopen : Runs (Segment.openWithOptions P .data 0 (StorageConfig.default.segmentOptions false)
    false) h _ := Segment.openWithOptions_run hfile hrec
  refine .bind (.get ?_)
  rw [hbases]
  refine .bind (.bind (hopen.mono ?_))
  rintro g h' ⟨rfl, -⟩
  exact .bind (.pure (.pure (.pure rfl)))

/-- An accepted append and the open that follows it, as operations of the store. -/
theorem exec_append_open {P : Platform} {m : Message} {log log' : PartitionLog} {h h' : Host}
    {r : Record} {t : LogState} (happend : PartitionLog.append P m ⟨h, log⟩ = .ok r t)
    (hopen : PartitionLog.open P .default t.host = .ok log' h') :
    exec P (.append m) ⟨h, some log⟩ = .ok (.records [r]) ⟨t.host, some t.log⟩ ∧
      exec P (.openLog .default) ⟨t.host, some t.log⟩ = .ok .done ⟨h', some log'⟩ := by
  refine ⟨?_, ?_⟩
  · simp [exec, onLog, happend]
  · simp [exec, openStore, hopen]

/-- A message with a header name of 65536 bytes is accepted and acknowledged at offset 0, and the
log ends at offset 0 when it is opened again. -/
theorem long_header_name_lost_at_reopen :
    exec plainPlatform (.openLog .default) (Store.fresh fun _ => 0) =
        .ok .done ⟨newLog.host, some newLog.log⟩ ∧
      ∃ s s' log, exec plainPlatform (.append longNamed) ⟨newLog.host, some newLog.log⟩ =
          .ok (.records [longNamed.toRecord 0 0]) s ∧
        exec plainPlatform (.openLog .default) s = .ok .done s' ∧ s'.log = some log ∧
        log.logEndOffset = 0 := by
  refine ⟨rfl, ?_⟩
  obtain ⟨r, t, happend, rfl, hfile, hothers⟩ := append_newLog plainPlatform longNamed 0 rfl
  obtain ⟨log, h', hopen, hend⟩ := @open_first plainPlatform _ _ _ hfile hothers
    recoverAndIndex_longNamed
  obtain ⟨h1, h2⟩ := exec_append_open happend hopen
  exact ⟨_, _, log, h1, h2, rfl, hend⟩

end Volant.Storage
