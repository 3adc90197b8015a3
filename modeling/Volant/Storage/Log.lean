-- SUMMARY: Model of the partition log: open, append, read, prefix deletion, retention and compaction over segments.
import Volant.Storage.Segment

/-!
# Partition log

An ordered list of segments, all sealed but the last. The group-commit
coordinator is modelled on its own; used through `&mut self` it has a single
caller, which leads its own flush.
-/

namespace Volant.Storage

/-- `StorageConfig` without the buffer pool and the group-commit record threshold, which only
decides when a leader stops waiting. -/
structure StorageConfig where
  segmentSize : Nat
  useMmap : Bool
  flushEveryN : Nat
  groupCommitMaxMs : Nat
  indexIntervalBytes : Nat
  retentionMs : Option Nat
  retentionBytes : Option Nat
  compact : Bool
  ioBackend : IoBackendKind
  directIo : Bool
deriving DecidableEq, Repr

namespace StorageConfig

/-- `StorageConfig::default()` -/
def default : StorageConfig where
  segmentSize := 256 * 1024 * 1024
  useMmap := true
  flushEveryN := 0
  groupCommitMaxMs := 0
  indexIntervalBytes := 4096
  retentionMs := none
  retentionBytes := none
  compact := false
  ioBackend := .std
  directIo := false

def groupCommitEnabled (c : StorageConfig) : Bool := decide (0 < c.groupCommitMaxMs)

/-- Options of a segment opened under this configuration; direct I/O is for the active one. -/
def segmentOptions (c : StorageConfig) (sealed : Bool) : SegmentOptions where
  indexIntervalBytes := c.indexIntervalBytes
  useMmap := c.useMmap
  directIo := c.directIo && !sealed
  ioBackend := c.ioBackend

end StorageConfig

structure PartitionLog where
  config : StorageConfig
  segments : List Segment
  nextOffset : Nat
  appendsSinceFlush : Nat
deriving DecidableEq, Repr

structure LogState where
  host : Host
  log : PartitionLog

abbrev LogM := EStateM Error LogState

def i64SaturatingSub (a b : Int64) : Int64 :=
  let d := a.toInt - b.toInt
  if Int64.maxValue.toInt < d then Int64.maxValue
  else if d < Int64.minValue.toInt then Int64.minValue
  else Int64.ofInt d

namespace PartitionLog

/-! ## Lifting -/

def liftHost {α : Type} (x : HostM α) : LogM α := fun s =>
  match x s.host with
  | .ok a h => .ok a { s with host := h }
  | .error e h => .error e { s with host := h }

/-- Run a segment operation on the last segment; what it changed stays, even when it fails. -/
def onActive {α : Type} (missing : String) (x : SegM α) : LogM α := fun s =>
  match s.log.segments.getLast? with
  | none => .error (.storage missing) s
  | some g =>
    let put (t : SegState) : LogState :=
      { host := t.host
        log := { s.log with segments := s.log.segments.dropLast ++ [t.seg] } }
    match x ⟨s.host, g⟩ with
    | .ok a t => .ok a (put t)
    | .error e t => .error e (put t)

def modifyLog (f : PartitionLog → PartitionLog) : LogM Unit :=
  modify fun s => { s with log := f s.log }

/-! ## Open -/

/-- Open the segments of the data directory in order; all but the last are sealed. -/
def openSegments (P : Platform) (config : StorageConfig) : List Nat → HostM (List Segment)
  | [] => pure []
  | base :: rest => do
    let sealed := !rest.isEmpty
    let seg ← Segment.openWithOptions P .data base (config.segmentOptions sealed) sealed
    let segs ← openSegments P config rest
    pure (seg :: segs)

/-- The first two neighbouring segments that overlap. -/
def firstOverlap : List Segment → Option (Segment × Segment)
  | a :: b :: rest => if b.baseOffset < a.nextOffset then some (a, b) else firstOverlap (b :: rest)
  | _ => none

end PartitionLog

variable (P : Platform)

/-- Open or create a partition log. -/
def PartitionLog.open (config : StorageConfig) : HostM PartitionLog := do
  let bases := listSegmentBases (← get)
  if bases.isEmpty then
    let now ← nowMs
    let seg ← Segment.createWithOptions P .data 0 now (config.segmentOptions false)
    pure { config := config, segments := [seg], nextOffset := seg.nextOffset
           appendsSinceFlush := 0 }
  else
    let segments ← PartitionLog.openSegments P config bases
    match PartitionLog.firstOverlap segments with
    | some (a, b) =>
      throw (.storage (s!"segment overlap: segment ending at {a.nextOffset} followed by " ++
        s!"base {b.baseOffset}"))
    | none =>
      pure { config := config, segments := segments
             nextOffset := (segments.getLast?.map (·.nextOffset)).getD 0
             appendsSinceFlush := 0 }

namespace PartitionLog

/-! ## Append -/

def needsRoll (log : PartitionLog) (recordSize : Nat) : Bool :=
  match log.segments.getLast? with
  | none => false
  | some active =>
    -- Always allow at least one record per segment.
    if active.nextOffset = active.baseOffset then false
    else decide (log.config.segmentSize < saturatingAdd active.size recordSize)

def roll (P : Platform) : LogM Unit := do
  let log := (← get).log
  onActive "no active segment to roll" Segment.seal
  let now ← liftHost nowMs
  let seg ← liftHost (Segment.createWithOptions P .data log.nextOffset now
    (log.config.segmentOptions false))
  modifyLog fun log => { log with segments := log.segments ++ [seg] }

/-- `message.timestamp_ms.unwrap_or_else(now_ms)` -/
def timestampOf (message : Message) : LogM Int64 :=
  match message.timestampMs with
  | some t => pure t
  | none => liftHost nowMs

/-- Encode and write one message without updating the flush counter. -/
def appendOne (message : Message) : LogM Record := do
  let timestampMs ← timestampOf message
  Exec.when ((← get).log.needsRoll (encodedRecordSize message)) (roll P)
  let offset := (← get).log.nextOffset
  let record ← onActive "no active segment" (Segment.append P offset message timestampMs)
  modifyLog fun log => { log with nextOffset := Offset.next offset }
  pure record

/-- Flush (fsync) the active segment data and index. -/
def flush : LogM Unit := do
  Exec.when (!(← get).log.segments.isEmpty) (onActive "" Segment.flush)
  modifyLog fun log => { log with appendsSinceFlush := 0 }

/-- The flush policy behind an append. A waiting caller leads its own group-commit flush. -/
def finishAppend (n : Nat) (waitGroup : Bool) : LogM Unit := do
  modifyLog fun log => { log with appendsSinceFlush := saturatingAdd log.appendsSinceFlush n }
  let log := (← get).log
  let due :=
    if log.config.groupCommitEnabled then waitGroup
    else decide (0 < log.config.flushEveryN) &&
      decide (log.config.flushEveryN ≤ log.appendsSinceFlush)
  Exec.when due flush

def append (message : Message) : LogM Record := do
  let record ← appendOne P message
  finishAppend 1 true
  pure record

/-- The writes of a batch, in order. -/
def appendEach (P : Platform) : List Message → LogM (List Record)
  | [] => pure []
  | m :: ms => do
    let record ← appendOne P m
    let records ← appendEach P ms
    pure (record :: records)

def appendBatchInner (messages : List Message) (waitGroup : Bool) :
    LogM (List Record) := do
  let records ← appendEach P messages
  Exec.when (!records.isEmpty) (finishAppend records.length waitGroup)
  pure records

def appendBatch (messages : List Message) : LogM (List Record) :=
  appendBatchInner P messages true

def appendBatchUncommitted (messages : List Message) : LogM (List Record) :=
  appendBatchInner P messages false

/-- Append a message at an exact offset (follower replication path). -/
def appendWithOffset (offset : Nat) (message : Message) : LogM Record := do
  let expected := (← get).log.nextOffset
  if offset ≠ expected then
    throw (.storage s!"append_with_offset gap: expected offset {expected}, got {offset}")
  else
    let record ← appendOne P message
    -- The replication path does not wait for a group commit.
    finishAppend 1 false
    pure record

/-- Append multiple records at their exact offsets. -/
def appendRecordsWithOffsets (P : Platform) : List Record → LogM (List Record)
  | [] => pure []
  | r :: rs => do
    let record ← appendWithOffset P r.offset r.toMessage
    let records ← appendRecordsWithOffsets P rs
    pure (record :: records)

/-! ## Read -/

def logEndOffset (log : PartitionLog) : Nat := log.nextOffset

def highWatermark (log : PartitionLog) : Nat := log.nextOffset

/-- Earliest available offset (base of the first segment). -/
def logStartOffset (log : PartitionLog) : Nat := (log.segments.head?.map (·.baseOffset)).getD 0

/-- The size the byte limit of a read counts for a record. -/
def approxSize (r : Record) : Nat := r.value.length + ((r.key.map (·.length)).getD 0) + 32

/-- The loop over the segments of a read. -/
def readSegments (P : Platform) (h : Host) (start maxMessages maxBytes : Nat) :
    List Segment → Nat → List Record → Except Error (List Record)
  | [], _, out => .ok out
  | g :: gs, bytesAcc, out =>
    if g.nextOffset ≤ start then readSegments P h start maxMessages maxBytes gs bytesAcc out
    else if maxMessages ≤ out.length then .ok out
    else if decide (maxBytes ≠ usizeMax) && decide (maxBytes ≤ bytesAcc) && !out.isEmpty then
      .ok out
    else do
      let remainingBytes := if maxBytes = usizeMax then usizeMax else maxBytes - bytesAcc
      let recs ← Segment.readFrom P h g (max start g.baseOffset) (maxMessages - out.length)
        remainingBytes
      let acc := recs.foldl (fun acc r => saturatingAdd acc (approxSize r)) bytesAcc
      readSegments P h start maxMessages maxBytes gs acc (out ++ recs)

/-- Read records with both message-count and approximate byte limits. -/
def readBytes (s : LogState) (start maxMessages maxBytes : Nat) : Except Error (List Record) :=
  let start := max start s.log.logStartOffset
  if s.log.highWatermark ≤ start || maxMessages = 0 then .ok []
  else readSegments P s.host start maxMessages maxBytes s.log.segments 0 []

def read (s : LogState) (start maxMessages : Nat) : Except Error (List Record) :=
  readBytes P s start maxMessages usizeMax

/-! ## Prefix deletion -/

def deleteAll : List Segment → HostM Unit
  | [] => pure ()
  | g :: gs => do
    g.deleteFiles
    deleteAll gs

/-- Drop whole segments whose records are entirely before `beforeOffset`. -/
def deleteRecords (beforeOffset : Nat) : LogM Nat := do
  let log := (← get).log
  let keepFrom := (log.segments.takeWhile (·.nextOffset ≤ beforeOffset)).length
  if keepFrom = 0 then pure log.logStartOffset
  else
    modifyLog fun log => { log with segments := log.segments.drop keepFrom }
    liftHost (deleteAll (log.segments.take keepFrom))
    Exec.when (log.segments.drop keepFrom).isEmpty do
      -- Recreate an empty active segment at the high watermark.
      let now ← liftHost nowMs
      let seg ← liftHost (Segment.createWithOptions P .data log.nextOffset now
        (log.config.segmentOptions false))
      modifyLog fun log => { log with segments := log.segments ++ [seg] }
    pure (← get).log.logStartOffset

/-! ## Compaction -/

structure CompactStats where
  inputRecords : Nat
  outputRecords : Nat
  segmentsRemoved : Nat
deriving DecidableEq, Repr

/-- Keep the latest value of each key; an empty value removes its key, and records without a key
all stay. -/
def survivors (input : List Record) : List Record :=
  let step (acc : AList (fun _ : Bytes => Record) × List Record) (r : Record) :=
    match r.key with
    | none => (acc.1, acc.2 ++ [r])
    | some k => if r.value.isEmpty then (acc.1.erase k, acc.2) else (acc.1.insert k r, acc.2)
  let (latest, nullKeys) := input.foldl step (∅, [])
  (latest.entries.map (·.2) ++ nullKeys).insertionSort (·.offset ≤ ·.offset)

/-- Run a segment operation on a segment that no log holds yet. -/
def runSeg {α : Type} (g : Segment) (x : SegM α) : HostM Segment := fun h =>
  match x ⟨h, g⟩ with
  | .ok _ t => .ok t.seg t.host
  | .error e t => .error e t.host

def appendSurvivors (P : Platform) : List Record → SegM Unit
  | [] => pure ()
  | r :: rs => do
    let _ ← Segment.appendAllowGap P r.offset r.toMessage r.timestampMs
    appendSurvivors P rs

/-- All records of the given segments. -/
def readSealed (P : Platform) (h : Host) : List Segment → Except Error (List Record)
  | [] => .ok []
  | g :: gs => do
    let recs ← Segment.readFrom P h g g.baseOffset usizeMax usizeMax
    let rest ← readSealed P h gs
    return recs ++ rest

/-- `fs::rename` of the compacted segment's files into the data directory. -/
def renameCompacted (base : Nat) : HostM Unit := do
  let src : Path := ⟨.compact base, base⟩
  let dst : Path := ⟨.data, base⟩
  match (← get).logs.lookup src with
  | none => throw (.storage "rename compact log: entity not found")
  | some file =>
    modify fun h => { h with
      logs := (h.logs.erase src).insert dst file
      indexes := dst :: (h.indexes.erase src).erase dst }

def compactOptions (log : PartitionLog) : SegmentOptions :=
  { log.config.segmentOptions false with directIo := false }

/-- Build the compacted segment in its temporary directory. -/
def buildCompacted (log : PartitionLog) (kept : List Record) (activeBase : Nat) :
    HostM Unit := do
  let base := log.logStartOffset
  -- Leftovers of an earlier attempt are removed.
  modify fun h => { h with
    logs := h.logs.erase ⟨.compact base, base⟩
    indexes := h.indexes.erase ⟨.compact base, base⟩ }
  let now ← nowMs
  let seg ← Segment.createWithOptions P (.compact base) base now log.compactOptions
  let _ ← runSeg seg do
    appendSurvivors P kept
    Segment.setNextOffset activeBase
    Segment.seal

/-- Delete the old sealed segments, move the compacted one in and reopen it sealed. -/
def swapCompacted (log : PartitionLog) (activeBase : Nat)
    (sealedSegs : List Segment) : HostM Segment := do
  let base := log.logStartOffset
  deleteAll sealedSegs
  renameCompacted base
  let opened ← Segment.openWithOptions P .data base log.compactOptions true
  -- Recovery takes the next offset from the last record; stretch it to the active base.
  runSeg opened (Segment.setNextOffset activeBase)

/-- Compact sealed segments: keep the latest value per key; an empty value is a tombstone. -/
def compactSealed : LogM CompactStats := do
  let s ← get
  let sealedSegs := s.log.segments.dropLast
  match s.log.segments.getLast?, sealedSegs with
  | some active, _ :: _ =>
    match readSealed P s.host sealedSegs with
    | .error e => throw e
    | .ok input =>
      let kept := survivors input
      if input.isEmpty then pure ⟨0, 0, 0⟩
      else if kept.length = input.length && sealedSegs.length = 1 then
        pure ⟨input.length, kept.length, 0⟩
      else
        liftHost (buildCompacted P s.log kept active.baseOffset)
        modifyLog fun log => { log with segments := [active] }
        let seg ← liftHost (swapCompacted P s.log active.baseOffset sealedSegs)
        modifyLog fun log => { log with segments := seg :: log.segments }
        pure ⟨input.length, kept.length, sealedSegs.length⟩
  | _, _ => pure ⟨0, 0, 0⟩

/-! ## Retention -/

def totalSize (log : PartitionLog) : Nat := (log.segments.map (·.size)).sum

/-- `if let Some(n) = value` -/
def ifSome (value : Option Nat) (body : Nat → LogM Unit) : LogM Unit :=
  match value with
  | some n => body n
  | none => pure ()

/-- Drop the oldest segments whose last record is older than the cutoff, never the active one. -/
def retainByTime (retentionMs : Nat) : LogM Unit := do
  let now ← liftHost nowMs
  let cutoff := i64SaturatingSub now (UInt64.ofNat retentionMs).toInt64
  let log := (← get).log
  let dropCount := (log.segments.dropLast.takeWhile (·.lastTimestampMs < cutoff)).length
  ifSome (log.segments[dropCount]?.map (·.baseOffset)) fun before =>
    Exec.when (decide (0 < dropCount)) do let _ ← deleteRecords P before

/-- Drop the oldest segment until the total size is within the limit. Each round removes at least
one segment, so the number of segments is enough fuel. -/
def retainBySize (P : Platform) (limit : Nat) : Nat → LogM Unit
  | 0 => pure ()
  | fuel + 1 => do
    let log := (← get).log
    if log.totalSize ≤ limit then pure ()
    else match log.segments[1]? with
      | none => pure ()
      | some g => do
        let _ ← deleteRecords P g.baseOffset
        retainBySize P limit fuel

/-- Apply the configured time and size retention, then compaction. -/
def applyRetention : LogM Unit := do
  let config := (← get).log.config
  ifSome config.retentionMs (retainByTime P)
  let count := (← get).log.segments.length
  ifSome config.retentionBytes fun limit => retainBySize P limit count
  Exec.when config.compact do let _ ← compactSealed P

end PartitionLog

end Volant.Storage
