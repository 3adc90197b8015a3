-- SUMMARY: Model of a log segment: files, the buffered and the direct write path, recovery, reads and sealing.
import Mathlib.Data.List.AList
import Volant.Base.Exec
import Volant.Storage.Record
import Volant.Storage.Index

/-!
# Segments

A segment is a `.log` file with a sparse index beside it. The contents of the
`.index` file are never read back (opening a segment rebuilds the index from
the log), so only the existence of index files is kept.

The active segment has one of three write paths. Buffered writes go through a
`BufWriter`. With direct I/O, encoded bytes gather in `pending` and reach the
file in aligned chunks. A segment reopened with `direct_io` requested but not
granted writes each record at its place through the I/O backend.
-/

namespace Volant.Storage

/-- What the build and the machine decide. -/
structure Platform where
  /-- `crc32fast::hash` -/
  crc : Bytes → UInt32
  /-- The `direct-io` feature is compiled in and the target is Linux. -/
  directIo : Bool
  /-- The file system accepts an open with `O_DIRECT`. -/
  acceptsDirect : Bool

inductive IoBackendKind where
  | std
  | ioUring
deriving DecidableEq, Repr

/-- Alignment required for `O_DIRECT` writes (4 KiB). -/
def DIRECT_IO_ALIGN : Nat := 4096

variable (P : Platform)

def applyDirectIoFlag (wantDirect : Bool) : Bool := wantDirect && P.directIo

/-- The open asks for `O_DIRECT`, and the file system refuses it. -/
def refusesDirect (wantDirect : Bool) : Bool := applyDirectIoFlag P wantDirect && !P.acceptsDirect

def alignUp (n align : Nat) : Nat :=
  if align = 0 then n else (n + align - 1) / align * align

/-! ## Files -/

/-- The partition's data directory, or the directory a compaction builds its segment in. -/
inductive Dir where
  | data
  | compact (base : Nat)
deriving DecidableEq, Repr

/-- A segment's files are named by its base offset. -/
structure Path where
  dir : Dir
  base : Nat
deriving DecidableEq, Repr

structure Host where
  logs : AList (fun _ : Path => Bytes)
  indexes : List Path
  /-- Every reading of the clock, in the order the program takes them. -/
  clock : Nat → Int64
  tick : Nat

namespace Host

/-- Replace the bytes at `offset`, extending the file with zeros where it is too short. -/
def writeAt (file : Bytes) (offset : Nat) (buf : Bytes) : Bytes :=
  file.take offset ++ List.replicate (offset - file.length) 0 ++ buf ++
    file.drop (offset + buf.length)

/-- `File::set_len` -/
def setLen (file : Bytes) (len : Nat) : Bytes :=
  file.take len ++ List.replicate (len - file.length) 0

def putLog (h : Host) (p : Path) (file : Bytes) : Host := { h with logs := h.logs.insert p file }

/-- The bytes of a file, empty when it does not exist. -/
def bytesOf (h : Host) (p : Path) : Bytes := (h.logs.lookup p).getD []

@[simp] theorem putLog_lookup_self (h : Host) (p : Path) (file : Bytes) :
    (h.putLog p file).logs.lookup p = some file := AList.lookup_insert _

theorem putLog_lookup_of_ne {p q : Path} (hne : q ≠ p) (h : Host) (file : Bytes) :
    (h.putLog p file).logs.lookup q = h.logs.lookup q := AList.lookup_insert_ne hne

end Host

/-- Programs over the files alone. -/
abbrev HostM := EStateM Error Host

def nowMs : HostM Int64 := do
  let h ← get
  set { h with tick := h.tick + 1 }
  pure (h.clock h.tick)

def readLog (p : Path) : HostM Bytes := do
  match (← get).logs.lookup p with
  | some file => pure file
  | none => throw (.io .notFound)

def createNewLog (p : Path) : HostM Unit := do
  match (← get).logs.lookup p with
  | some _ => throw (.io .alreadyExists)
  | none => modify (·.putLog p [])

def createNewIndex (p : Path) : HostM Unit := do
  if p ∈ (← get).indexes then throw (.io .alreadyExists)
  else modify fun h => { h with indexes := p :: h.indexes }

/-! ## Segment state -/

/-- `BufWriter<File>`. The buffer reaches the file when it is flushed; an earlier spill of a full
buffer is not visible, since every append ends with a flush. -/
structure BufWriter where
  cursor : Nat
  buf : Bytes
deriving DecidableEq, Repr

/-- `SegmentOptions` without the encode buffer pool, whose buffers are handed out empty. -/
structure SegmentOptions where
  indexIntervalBytes : Nat
  useMmap : Bool
  directIo : Bool
  ioBackend : IoBackendKind
deriving DecidableEq, Repr

structure Segment where
  dir : Dir
  baseOffset : Nat
  nextOffset : Nat
  /-- Logical size of the log file (header included, direct-I/O padding excluded). -/
  size : Nat
  lastTimestampMs : Int64
  createdAtMs : Int64
  indexIntervalBytes : Nat
  bytesSinceIndex : Nat
  index : SparseIndex
  logWriter : Option BufWriter
  /-- A raw file handle is held. -/
  logFile : Bool
  indexWriter : Bool
  /-- The mapped bytes. A mapping is only made of a file that is no longer written. -/
  mmap : Option Bytes
  useMmap : Bool
  sealed : Bool
  directIo : Bool
  physicalSize : Nat
  pending : Bytes
  backend : Option IoBackendKind
deriving DecidableEq, Repr

def Segment.path (g : Segment) : Path := ⟨g.dir, g.baseOffset⟩

/-- A segment under mutation, with the files it lives in. -/
structure SegState where
  host : Host
  seg : Segment

abbrev SegM := EStateM Error SegState

namespace Segment

def modifySeg (f : Segment → Segment) : SegM Unit := modify fun s => { s with seg := f s.seg }

/-- Rewrite the segment's own log file. -/
def modifyFile (f : Bytes → Bytes) : SegM Unit :=
  modify fun s => { s with host := s.host.putLog s.seg.path (f (s.host.bytesOf s.seg.path)) }

/-! ## Direct writes -/

/-- Write as many full aligned chunks of `pending` as possible. -/
def writeAligned : SegM Unit := do
  let g := (← get).seg
  let writable := g.pending.length / DIRECT_IO_ALIGN * DIRECT_IO_ALIGN
  if writable = 0 then pure ()
  else if g.physicalSize % DIRECT_IO_ALIGN ≠ 0 then
    throw (.storage s!"direct_io physical offset {g.physicalSize} not {DIRECT_IO_ALIGN}-aligned")
  else do
    modifyFile fun file => Host.writeAt file g.physicalSize (g.pending.take writable)
    modifySeg fun g => { g with
      physicalSize := g.physicalSize + writable
      pending := g.pending.drop writable }

/-- Zero-pad `pending` to the alignment. -/
def padPending (g : Segment) : Bytes :=
  g.pending ++
    List.replicate (alignUp g.pending.length DIRECT_IO_ALIGN - g.pending.length) 0

/-- Flush pending direct-I/O bytes. When `force`, pad with zeros to alignment. -/
def flushPendingAligned (force : Bool) : SegM Unit := do
  let g := (← get).seg
  if !g.directIo then pure ()
  else if !g.logFile then throw (.storage "direct_io segment missing file")
  else if g.backend.isNone then throw (.storage "direct_io segment missing backend")
  else if force then
    if g.pending.isEmpty then pure ()
    else do
      modifySeg fun g => { g with pending := g.padPending }
      writeAligned
  else writeAligned

/-- Write already-encoded record bytes to the log (buffered or direct). -/
def writeEncoded (buf : Bytes) : SegM Unit := do
  let g := (← get).seg
  if g.directIo then
    modifySeg fun g => { g with pending := g.pending ++ buf, size := g.size + buf.length }
    flushPendingAligned false
  else match g.logWriter with
    | some w =>
      modifySeg fun g => { g with
        logWriter := some { w with buf := w.buf ++ buf }
        size := g.size + buf.length
        physicalSize := g.size + buf.length }
    | none =>
      if !g.logFile then throw (.storage "segment has no writer")
      else if g.backend.isNone then throw (.storage "no I/O backend")
      else
        -- Unbuffered backend path without alignment constraints.
        modifyFile fun file => Host.writeAt file g.size buf
        modifySeg fun g => { g with
          size := g.size + buf.length
          physicalSize := g.size + buf.length }

/-- Flush the `BufWriter`, if there is one. -/
def flushWriter : SegM Unit := do
  match (← get).seg.logWriter with
  | some w =>
    modifyFile fun file => Host.writeAt file w.cursor w.buf
    modifySeg fun g => { g with
      logWriter := some { cursor := w.cursor + w.buf.length, buf := [] } }
  | none => pure ()

/-! ## Create -/

/-- Create a new log file. A refused `O_DIRECT` open leaves the file it has created, and the plain
open that follows asks for a new one again. -/
def openNewLog (p : Path) (wantDirect : Bool) : HostM Unit := do
  createNewLog p
  if refusesDirect P wantDirect then throw (.io .alreadyExists)

/-- Create a new empty segment. -/
def createWithOptions (dir : Dir) (baseOffset : Nat) (createdAtMs : Int64)
    (opts : SegmentOptions) : HostM Segment := do
  let path : Path := ⟨dir, baseOffset⟩
  openNewLog P path opts.directIo
  let effectiveDirect := applyDirectIoFlag P opts.directIo
  let header := encodeHeader baseOffset createdAtMs
  -- A direct segment keeps even its header in `pending` until a chunk is full.
  Exec.when (!effectiveDirect) (modify (·.putLog path header))
  createNewIndex path
  -- The first aligned flush is left out: 32 bytes fill no chunk.
  pure {
    dir := dir
    baseOffset := baseOffset
    nextOffset := baseOffset
    size := HEADER_SIZE
    lastTimestampMs := createdAtMs
    createdAtMs := createdAtMs
    indexIntervalBytes := opts.indexIntervalBytes
    bytesSinceIndex := 0
    index := []
    logWriter := if effectiveDirect then none else some { cursor := HEADER_SIZE, buf := [] }
    logFile := effectiveDirect
    indexWriter := true
    mmap := none
    useMmap := opts.useMmap
    sealed := false
    directIo := effectiveDirect
    physicalSize := if effectiveDirect then 0 else HEADER_SIZE
    pending := if effectiveDirect then header else []
    backend := some opts.ioBackend }

/-! ## Recovery -/

/-- The accumulator of the recovery scan. -/
structure Recovered where
  pos : Nat
  nextOffset : Nat
  lastTs : Option Int64
  index : SparseIndex
  bytesSinceIndex : Nat
deriving DecidableEq, Repr

/-- Take one decoded record into the accumulator. -/
def Recovered.push (acc : Recovered) (baseOffset indexIntervalBytes : Nat) (r : Record)
    (position nextPos size : Nat) : Recovered :=
  let shouldIndex := acc.index.isEmpty || decide (indexIntervalBytes ≤ acc.bytesSinceIndex)
  let delta := r.offset - baseOffset
  { pos := nextPos
    nextOffset := Offset.next r.offset
    lastTs := some r.timestampMs
    index :=
      if shouldIndex && decide (delta ≤ u32Max) && decide (position ≤ u32Max) then
        acc.index ++ [{ offsetDelta := delta, position := position }]
      else acc.index
    bytesSinceIndex := (if shouldIndex then 0 else acc.bytesSinceIndex) + size }

/-- The recovery loop. Every record takes at least eight bytes, so the length of the data is enough
fuel. -/
def recoverLoop (crc : Bytes → UInt32) (data : Bytes) (baseOffset indexIntervalBytes : Nat) :
    Nat → Recovered → Recovered
  | 0, acc => acc
  | fuel + 1, acc =>
    if acc.pos < data.length then
      match decodeRecordAt crc data acc.pos with
      | .ok record position nextPos size =>
        -- Contiguous or forward gap (compaction holes). Backward offset = tear.
        if record.offset < acc.nextOffset then acc
        else if record.offset < baseOffset then acc
        else recoverLoop crc data baseOffset indexIntervalBytes fuel
          (acc.push baseOffset indexIntervalBytes record position nextPos size)
      | .incomplete => acc
      | .corrupt => acc
    else acc

/-- The accumulator before the first record. -/
def Recovered.start (baseOffset : Nat) : Recovered where
  pos := HEADER_SIZE
  nextOffset := baseOffset
  lastTs := none
  index := []
  bytesSinceIndex := 0

/-- Recover the valid prefix of segment data and rebuild the sparse index. -/
def recoverAndIndex (crc : Bytes → UInt32) (data : Bytes) (baseOffset indexIntervalBytes : Nat) :
    Except Error Recovered :=
  if data.length < HEADER_SIZE then .error (.storage "segment file truncated in header")
  else .ok (recoverLoop crc data baseOffset indexIntervalBytes data.length (.start baseOffset))

def computeBytesSinceIndex (dataLen : Nat) (index : SparseIndex) : Nat :=
  if dataLen ≤ HEADER_SIZE then 0
  else dataLen - (index.getLast?.map (·.position)).getD HEADER_SIZE

/-- The checks and the recovery scan of an open. -/
def recoverFile (crc : Bytes → UInt32) (data : Bytes) (baseOffset indexIntervalBytes : Nat) :
    Except Error (SegmentHeader × Recovered) := do
  if data.length < HEADER_SIZE then throw (.io .unexpectedEof)
  let header ← decodeHeader (data.take HEADER_SIZE)
  if header.baseOffset ≠ baseOffset then
    throw (.storage (s!"segment base_offset mismatch: file has {header.baseOffset}, " ++
      s!"expected {baseOffset}"))
  let acc ← recoverAndIndex crc data baseOffset indexIntervalBytes
  return (header, acc)

/-- An unsealed segment is reopened with a raw file handle when direct I/O was requested, unless
the file system refused `O_DIRECT`. -/
def opensRaw (opts : SegmentOptions) (sealed : Bool) : Bool :=
  opts.directIo && !sealed && !refusesDirect P true

/-- The segment an open returns for a log file that now holds `file`. -/
def reopened (dir : Dir) (baseOffset : Nat) (opts : SegmentOptions) (sealed : Bool)
    (header : SegmentHeader) (acc : Recovered) (file : Bytes) : Segment :=
  let raw := opensRaw P opts sealed
  { dir := dir
    baseOffset := baseOffset
    nextOffset := acc.nextOffset
    size := acc.pos
    lastTimestampMs := acc.lastTs.getD header.createdAtMs
    createdAtMs := header.createdAtMs
    indexIntervalBytes := opts.indexIntervalBytes
    bytesSinceIndex := computeBytesSinceIndex acc.pos acc.index
    index := acc.index
    logWriter := if sealed || raw then none else some { cursor := acc.pos, buf := [] }
    logFile := raw
    indexWriter := !sealed
    mmap := if sealed && opts.useMmap then some file else none
    useMmap := opts.useMmap
    sealed := sealed
    directIo := raw && applyDirectIoFlag P true
    physicalSize := acc.pos
    pending := []
    backend := if sealed then none else some opts.ioBackend }

/-- Open an existing segment, cutting off a torn tail. -/
def openWithOptions (dir : Dir) (baseOffset : Nat) (opts : SegmentOptions)
    (sealed : Bool) : HostM Segment := do
  let path : Path := ⟨dir, baseOffset⟩
  let data ← readLog path
  match recoverFile P.crc data baseOffset opts.indexIntervalBytes with
  | .error e => throw e
  | .ok (header, acc) =>
    let file := data.take acc.pos
    -- `index.write_to` creates the index file when it is missing.
    modify fun h => { h.putLog path file with indexes := path :: h.indexes.erase path }
    pure (reopened P dir baseOffset opts sealed header acc file)

/-! ## Append -/

/-- Add an index entry for the record at `position` when one is due. -/
def indexRecord (offset position : Nat) : SegM Unit := do
  let g := (← get).seg
  if g.index.isEmpty || decide (g.indexIntervalBytes ≤ g.bytesSinceIndex) then
    if offset < g.baseOffset then throw (.storage "offset before base")
    else if offset - g.baseOffset > u32Max then throw (.storage "offset_delta exceeds u32")
    else if position > u32Max then throw (.storage "segment position exceeds u32")
    else
      modifySeg fun g => { g with
        index := g.index ++ [{ offsetDelta := offset - g.baseOffset, position := position }]
        bytesSinceIndex := 0 }
  else pure ()

def appendEncoded (offset : Nat) (message : Message) (timestampMs : Int64) :
    SegM Record := do
  let buf := encodeRecord P.crc offset timestampMs message
  writeEncoded buf
  let position := (← get).seg.size - buf.length
  indexRecord offset position
  modifySeg fun g => { g with
    bytesSinceIndex := g.bytesSinceIndex + buf.length
    nextOffset := Offset.next offset
    lastTimestampMs := timestampMs
    mmap := none }
  -- Flush the buffered path so that reads observe the data.
  flushWriter
  pure (message.toRecord offset timestampMs)

/-- Append a record at the given absolute `offset`. -/
def append (P : Platform) (offset : Nat) (message : Message) (timestampMs : Int64) :
    SegM Record := do
  let g := (← get).seg
  if g.sealed then throw (.storage "cannot append to sealed segment")
  else if offset ≠ g.nextOffset then
    throw (.storage s!"append offset mismatch: got {offset}, expected {g.nextOffset}")
  else appendEncoded P offset message timestampMs

/-- Append at `offset`, allowing gaps. Used by compaction. -/
def appendAllowGap (offset : Nat) (message : Message) (timestampMs : Int64) :
    SegM Record := do
  let g := (← get).seg
  if g.sealed then throw (.storage "cannot append to sealed segment")
  else if offset < g.nextOffset then
    throw (.storage s!"append_allow_gap offset {offset} before next {g.nextOffset}")
  else appendEncoded P offset message timestampMs

/-- Force the segment's next offset. -/
def setNextOffset (next : Nat) : SegM Unit := do
  let g := (← get).seg
  if next < g.nextOffset then
    throw (.storage s!"set_next_offset {next} before current {g.nextOffset}")
  else modifySeg fun g => { g with nextOffset := next }

/-! ## Flush and seal -/

/-- After a padded flush, take the last partial block back into `pending`, so that the next append
rewrites it without the padding. -/
def restoreTail : SegM Unit := do
  let s ← get
  let floor := s.seg.size / DIRECT_IO_ALIGN * DIRECT_IO_ALIGN
  if floor < s.seg.physicalSize then
    if floor < s.seg.size then
      let tail := ((s.host.bytesOf s.seg.path).drop floor).take (s.seg.size - floor)
      if tail.length < s.seg.size - floor then throw (.io .unexpectedEof)
      else modifySeg fun g => { g with pending := tail, physicalSize := floor }
    else modifySeg fun g => { g with pending := [], physicalSize := floor }
  else pure ()

/-- Flush buffered data; the fsyncs that follow have no effect on the contents. -/
def flush : SegM Unit := do
  if (← get).seg.directIo then
    flushPendingAligned true
    restoreTail
  else flushWriter

/-- The direct path's last write of a segment: pad, write and cut the file to its logical size. -/
def sealDirect : SegM Unit := do
  let g := (← get).seg
  Exec.when (!g.pending.isEmpty) do
    modifyFile fun file => Host.writeAt file g.physicalSize g.padPending
    modifySeg fun g => { g with
      physicalSize := g.physicalSize + g.padPending.length
      pending := [] }
  Exec.when g.logFile (modifyFile fun file => Host.setLen file g.size)

end Segment

/-- Seal the segment: flush, drop writers, optionally mmap for reads. -/
def Segment.seal : SegM Unit := do
  if (← get).seg.sealed then pure ()
  else
    Segment.flush
    Exec.when (← get).seg.directIo Segment.sealDirect
    modify fun s => { s with seg := { s.seg with
      logWriter := none
      logFile := false
      indexWriter := false
      backend := none
      mmap := if s.seg.useMmap then some (s.host.bytesOf s.seg.path) else s.seg.mmap
      sealed := true } }

namespace Segment

/-! ## Read -/

/-- Load segment bytes for reading (mapping, pending merge, or full file read). -/
def loadData (h : Host) (g : Segment) : Except Error Bytes :=
  match g.mmap with
  | some bytes => .ok bytes
  | none =>
    match h.logs.lookup g.path with
    | none => if g.directIo && decide (g.physicalSize = 0) then .ok (g.pending.take g.size)
        else .error (.io .notFound)
    | some file =>
      if g.directIo then
        if file.length < g.physicalSize then .error (.io .unexpectedEof)
        else .ok ((file.take g.physicalSize ++ g.pending).take g.size)
      else .ok file

/-- The read loop. Every record takes at least eight bytes, so the length of the data is enough
fuel. -/
def readLoop (crc : Bytes → UInt32) (data : Bytes) (start nextOffset maxMessages maxBytes : Nat) :
    Nat → Nat → Nat → List Record → List Record
  | 0, _, _, out => out
  | fuel + 1, pos, bytesAcc, out =>
    if pos < data.length && decide (out.length < maxMessages) then
      match decodeRecordAt crc data pos with
      | .ok record _ nextPos size =>
        if record.offset < start then
          readLoop crc data start nextOffset maxMessages maxBytes fuel nextPos bytesAcc out
        else if nextOffset ≤ record.offset then out
        -- Respect the byte limit but always allow the first message.
        else if !out.isEmpty && decide (maxBytes ≠ usizeMax) &&
            decide (maxBytes < saturatingAdd bytesAcc size) then out
        else readLoop crc data start nextOffset maxMessages maxBytes fuel nextPos
          (saturatingAdd bytesAcc size) (out ++ [record])
      | .incomplete => out
      | .corrupt => out
    else out

/-- Read records with `offset ≥ start`, up to message and byte limits. -/
def readFrom (h : Host) (g : Segment) (start maxMessages maxBytes : Nat) :
    Except Error (List Record) := do
  if maxMessages = 0 then return []
  if g.nextOffset ≤ start then return []
  if g.nextOffset = g.baseOffset then return []
  let data ← loadData h g
  if data.length < HEADER_SIZE then throw (.storage "segment data shorter than header")
  let startPos :=
    if start ≤ g.baseOffset then HEADER_SIZE
    else (g.index.lookup ((start - g.baseOffset) % 2 ^ 32)).getD HEADER_SIZE
  let logical := data.take (min g.size data.length)
  return readLoop P.crc logical start g.nextOffset maxMessages maxBytes data.length startPos 0 []

/-- Delete this segment's files from disk. -/
def deleteFiles (g : Segment) : HostM Unit :=
  modify fun h => { h with logs := h.logs.erase g.path, indexes := h.indexes.erase g.path }

end Segment

/-- Segment base offsets in the data directory, in order. -/
def listSegmentBases (h : Host) : List Nat :=
  ((h.logs.keys.filter (·.dir = .data)).map (·.base)).insertionSort (· ≤ ·)

end Volant.Storage
