-- SUMMARY: Model of the transaction functions of a standalone broker, from InitProducerId to fetch and restart.
import Volant.Base.FileTree
import Volant.Broker.State

/-!
# Transactions

The functions of the broker's `txn.rs`, and the fetch path that applies their
markers. Cluster fan-out, the opt-in transaction-state topic, metrics and the
coordinator registry are not part of a standalone broker's visibility rules
and are left out.
-/

namespace Volant.Broker

/-! ## Control markers -/

inductive ControlMarkerType where
  | abort
  | commit
deriving DecidableEq, Repr

def txnControlHeader : String := "volant.control"

/-- The bytes of `txn_marker`. -/
def txnControlHeaderValue : Bytes := [116, 120, 110, 95, 109, 97, 114, 107, 101, 114]

def isTxnControl (headers : List (String × Bytes)) : Bool :=
  headers.any fun h => h.1 == txnControlHeader && h.2 == txnControlHeaderValue

def isTxnControlRecord (r : Record) : Bool := isTxnControl r.headers

def bigEndian (w n : Nat) : Bytes := (LittleEndian.encode w n).reverse

def txnControlMessage (markerType : ControlMarkerType) (producerId producerEpoch : Nat)
    (nowMs : Int) : Message :=
  { key := some (bigEndian 2 0 ++ bigEndian 2 (match markerType with | .abort => 0 | .commit => 1))
    value := bigEndian 2 0 ++ bigEndian 4 0
    timestampMs := some (Int64.ofInt nowMs)
    headers := [(txnControlHeader, txnControlHeaderValue),
      ("volant.txn.pid", bigEndian 8 producerId),
      ("volant.txn.epoch", bigEndian 2 producerEpoch),
      ("volant.txn.marker", match markerType with
        | .abort => [97, 98, 111, 114, 116]
        | .commit => [99, 111, 109, 109, 105, 116])] }

/-- The partitions of a list that are not in `seen`, each once. -/
def unseen (seen : List TopicPartition) : List TopicPartition → List TopicPartition
  | [] => []
  | tp :: rest => if tp ∈ seen then unseen seen rest else tp :: unseen (tp :: seen) rest

/-- The smallest range that holds all ranges written to a partition. -/
def hullAt (tp : TopicPartition) : List WrittenRange → Option (Nat × Nat)
  | [] => none
  | r :: rest =>
    if r.tp = tp then
      match hullAt tp rest with
      | none => some (r.firstOffset, r.endOffset)
      | some (first, last) => some (min r.firstOffset first, max r.endOffset last)
    else hullAt tp rest

/-! ## Consumer offsets -/

/-- File names keep ASCII letters, digits, `-`, `_` and `.`. -/
def sanitize (name : String) : String :=
  name.map fun c =>
    if c.isAlphanum || c == '-' || c == '_' || c == '.' then c else '_'

def DeferredOffset.key (o : DeferredOffset) : OffsetKey :=
  { group := sanitize o.groupId, topic := sanitize o.topic, partition := o.partition }

/-- What the offset is for; offsets for different targets can have the same key. -/
def DeferredOffset.target (o : DeferredOffset) : OffsetKey :=
  { group := o.groupId, topic := o.topic, partition := o.partition }

/-- The offset file a commit without an epoch writes. -/
def DeferredOffset.entry (o : DeferredOffset) : CommittedOffset :=
  { offset := o.offset, metadata := o.metadata, leaderEpoch := -1 }

/-- The metadata fits the 16-bit length field of an offset file, and the names are short enough for
its directories. -/
def DeferredOffset.fits (o : DeferredOffset) : Bool :=
  decide (o.metadata.utf8ByteSize ≤ u16Max) &&
    decide ((sanitize o.groupId).utf8ByteSize ≤ FileTree.nameMax) &&
    decide ((sanitize o.topic).utf8ByteSize ≤ FileTree.nameMax)

namespace State

/-! ## Appends and files -/

variable (s : State) (producerId producerEpoch : Nat)

/-- Produce with `acks=1`. The flush that follows an append changes nothing here. -/
def produce (tp : TopicPartition) (messages : List Message) (origin : Origin)
    (step : DurableStep) : Except Error (List Record) × State :=
  match s.partitions tp with
  | none => (.error (.notFound s!"topic {tp.topic}"), s)
  | some p =>
    match Partition.produceInner (.standalone (Int64.ofInt s.nowMs)) messages 1 p with
    | (.error e, _) => (.error e, s)
    | (.ok (records, _), p) =>
      (.ok records, { s with
        partitions := Function.update s.partitions tp (some p)
        origins := Function.update s.origins tp (s.origins tp ++ records.map fun _ => origin)
        }.durable step)

def markersSnapshot : MarkersFile :=
  { openRanges := s.openTxns.entries.flatMap fun e => e.2.written.map fun r =>
      { producerId := e.1, producerEpoch := some e.2.producerEpoch, tp := r.tp,
        firstOffset := r.firstOffset, endOffset := r.endOffset }
    openAdded := s.openTxns.entries.flatMap fun e =>
      (e.2.added.filter fun tp => !e.2.written.any (·.tp == tp)).map fun tp =>
        { producerId := e.1, producerEpoch := some e.2.producerEpoch, tp }
    aborted := s.abortedTxns }

def persistTxnMarkers (step : DurableStep) : State :=
  { s with markersFile := some s.markersSnapshot }.durable step

def preparedSnapshot : List PreparedTxn := s.preparedTxns.entries.map fun e => e.2

def persistPreparedTxns : State :=
  { s with preparedFile := some s.preparedSnapshot }.durable .prepared

def persistProducerState : State :=
  { s with producersFile := some { nextId := s.nextProducerId, producers := s.producers } }.durable
    .producers

/-! ## Aborting -/

def pushAbortedMarker (tp : TopicPartition) (m : AbortedMarker) : State :=
  { s with abortedTxns := Function.update s.abortedTxns tp (s.abortedTxns tp ++ [m]) }

/-- Pushes one range for all that was written to the partition. -/
def pushAbortedHull (producerId : Nat) (written : List WrittenRange) (s : State)
    (tp : TopicPartition) : State :=
  match hullAt tp written with
  | none => s
  | some (firstOffset, endOffset) =>
    s.pushAbortedMarker tp { producerId, firstOffset, endOffset }

def pushAbortedHulls (producerId : Nat) (written : List WrittenRange) : State :=
  (unseen [] (written.map (·.tp))).foldl (pushAbortedHull producerId written) s

def recordAbortedFromTxn (producerId : Nat) (txn : OpenTxn) : State :=
  (s.pushAbortedHulls producerId txn.written).persistTxnMarkers .markers

/-- One control marker for each partition of the transaction. -/
def appendTxnControlMarkers (markerType : ControlMarkerType) (txn : OpenTxn) : State :=
  (unseen [] (txn.written.map (·.tp) ++ txn.added)).foldl (fun s tp =>
    (s.produce tp [txnControlMessage markerType producerId producerEpoch s.nowMs] .control
      .controlAppend).2) s

def isTxnAbortable (producerId : Nat) : Bool :=
  s.abortableProducers.contains producerId

def markTxnAbortable (producerId : Nat) : State :=
  { s with abortableProducers := producerId :: s.abortableProducers }

def clearTxnAbortable (producerId : Nat) : State :=
  { s with abortableProducers := s.abortableProducers.filter (· != producerId) }

/-! ## Timeouts -/

def clampTxnTimeoutMs (timeoutMs : Nat) : Nat :=
  if timeoutMs = 0 then 0
  else
    let maxMs := s.config.transactionMaxTimeoutMs
    if 0 < maxMs ∧ maxMs < timeoutMs then maxMs else timeoutMs

/-- The time since `start` has reached the timeout; zero disables it. -/
def timedOut (timeoutMs : Nat) (start : Int) : Bool :=
  decide (timeoutMs ≠ 0 ∧ castSigned 64 timeoutMs ≤ saturateSigned 64 (s.nowMs - start))

def openTxnTimedOut (producerId : Nat) (txn : OpenTxn) : Bool :=
  let raw := match s.producers.lookup producerId with
    | some p => if 0 < p.transactionTimeoutMs then p.transactionTimeoutMs
      else s.config.openTxnTimeoutMs
    | none => s.config.openTxnTimeoutMs
  s.timedOut (s.clampTxnTimeoutMs raw) (if 0 < txn.openedAtMs then txn.openedAtMs else s.nowMs)

/-- The open transactions that have timed out, with their producers' epochs. -/
def expiredOpenTxns : List (Nat × Nat × OpenTxn) :=
  (s.openTxns.entries.filter fun e => s.openTxnTimedOut e.1 e.2).map fun e =>
    (e.1, ((s.producers.lookup e.1).map (·.epoch)).getD 0, e.2)

def expiredPreparedTxns : List PreparedTxn :=
  (s.preparedTxns.entries.filter fun e =>
    s.timedOut (s.clampTxnTimeoutMs s.config.preparedTxnTimeoutMs) e.2.preparedAtMs).map (·.2)

/-- Abort a transaction that is in neither map any more, and mark its producer abortable. -/
def abortExpired (txn : OpenTxn) : State :=
  ((s.recordAbortedFromTxn producerId txn).appendTxnControlMarkers producerId producerEpoch .abort
    txn).markTxnAbortable producerId

/-- The open transactions without the timed-out ones. -/
def unexpiredOpenTxns : AList fun _ : Nat => OpenTxn :=
  s.expiredOpenTxns.foldl (fun open_ e => open_.erase e.1) s.openTxns

/-- All timed-out transactions leave the map before the first of them is recorded. -/
def expireTimedOutOpenTxns : State :=
  let expired := s.expiredOpenTxns
  if expired.isEmpty then s
  else
    let s := expired.foldl (fun s e => s.abortExpired e.1 e.2.1 e.2.2)
      { s with openTxns := s.unexpiredOpenTxns }
    s.persistTxnMarkers .markers

/-- The prepared transactions without the timed-out ones. -/
def unexpiredPreparedTxns : AList fun _ : String => PreparedTxn :=
  s.expiredPreparedTxns.foldl (fun prepared p => prepared.erase p.transactionalId) s.preparedTxns

def expireTimedOutPreparedTxns : State :=
  let expired := s.expiredPreparedTxns
  if expired.isEmpty then s
  else
    let s := expired.foldl (fun s p => s.abortExpired p.producerId p.producerEpoch p.body)
      { s with preparedTxns := s.unexpiredPreparedTxns }
    s.persistPreparedTxns

def expireTimedOutTxns : State :=
  s.expireTimedOutOpenTxns.expireTimedOutPreparedTxns

/-! ## InitProducerId -/

structure InitProducerIdResult where
  errorCode : ErrorCode
  producerId : Nat
  epoch : Nat
  ongoingTxnProducerId : Int
  ongoingTxnProducerEpoch : Int
deriving Repr, DecidableEq

/-- The producer epoch after a fence: it wraps at 16 bits and skips zero. -/
def bumpEpoch (epoch : Nat) : Nat :=
  let next := (epoch + 1) % 2 ^ 16
  if next = 0 then 1 else next

/-- Allocates a producer id. -/
def allocateProducer (producer : Producer) : Nat × State :=
  (s.nextProducerId, { s with
    nextProducerId := (s.nextProducerId + 1) % 2 ^ 64
    producers := s.producers.insert s.nextProducerId producer })

/-- Aborts the producer's open transaction, if it has one. -/
def fenceOpenTxn : State :=
  match s.openTxns.lookup producerId with
  | none => s
  | some txn =>
    let s := { s with openTxns := s.openTxns.erase producerId }
    (s.recordAbortedFromTxn producerId txn).appendTxnControlMarkers producerId producerEpoch .abort
      txn

def forceAbortPrepared (prep : PreparedTxn) : State :=
  ((s.recordAbortedFromTxn prep.producerId prep.body).appendTxnControlMarkers prep.producerId
    prep.producerEpoch .abort prep.body).persistPreparedTxns

/-- KeepPreparedTxn: the prepared transaction and its identity stay. -/
def keepPreparedTxn (transactionalId : String) (enable2pc : Bool) (clientTimeout : Nat)
    (prep : PreparedTxn) : InitProducerIdResult × State :=
  let pid := prep.producerId
  let epoch := prep.producerEpoch
  let producer : Producer := match s.producers.lookup pid with
    | some prod => { prod with
        transactional := true, transactionalId, epoch,
        enable2pc := enable2pc || prod.enable2pc,
        transactionTimeoutMs := clientTimeout }
    | none => { epoch, transactional := true, transactionalId, enable2pc,
                transactionTimeoutMs := clientTimeout, partitions := ∅ }
  let s := { s with
    producers := s.producers.insert pid producer
    transactionalIds := s.transactionalIds.insert transactionalId pid }
  let s := ((s.fenceOpenTxn pid epoch).clearTxnAbortable pid).persistProducerState
  ({ errorCode := .ok, producerId := pid, epoch, ongoingTxnProducerId := pid,
     ongoingTxnProducerEpoch := castSigned 16 epoch }, s)

/-- Fences the owner of a transactional id, or allocates a producer for it. -/
def fenceOrAllocate (transactionalId : String) (enable2pc : Bool)
    (clientTimeout : Nat) : InitProducerIdResult × State :=
  let existing := (s.transactionalIds.lookup transactionalId).bind fun pid =>
    (s.producers.lookup pid).map fun prod => (pid, prod)
  match existing with
  | some (pid, prod) =>
    let epoch := bumpEpoch prod.epoch
    let s := { s with producers := s.producers.insert pid { prod with
      epoch, partitions := ∅, transactional := true, transactionalId,
      enable2pc := enable2pc || prod.enable2pc, transactionTimeoutMs := clientTimeout } }
    let s := ((s.fenceOpenTxn pid prod.epoch).clearTxnAbortable pid).persistProducerState
    ({ errorCode := .ok, producerId := pid, epoch, ongoingTxnProducerId := -1,
       ongoingTxnProducerEpoch := -1 }, s)
  | none =>
    let (pid, s) := s.allocateProducer
      { epoch := 0, transactional := true, transactionalId, enable2pc,
        transactionTimeoutMs := clientTimeout, partitions := ∅ }
    let s := { s with
      transactionalIds := s.transactionalIds.insert transactionalId pid }.persistProducerState
    ({ errorCode := .ok, producerId := pid, epoch := 0, ongoingTxnProducerId := -1,
       ongoingTxnProducerEpoch := -1 }, s)

/-- Drops a prepared transaction of this transactional id. -/
def dropPreparedTxn (transactionalId : String) : State :=
  match s.preparedTxns.lookup transactionalId with
  | none => s
  | some prep =>
    let s := { s with preparedTxns := s.preparedTxns.erase transactionalId }
    (s.forceAbortPrepared prep).clearTxnAbortable prep.producerId

def initProducerIdWithOpts (transactionalId : String) (enable2pc keepPrepared : Bool)
    (transactionTimeoutMs : Int) : InitProducerIdResult × State :=
  let s := s.expireTimedOutTxns
  let clientTimeout := transactionTimeoutMs.toNat
  let maxMs := s.config.transactionMaxTimeoutMs
  if 0 < maxMs ∧ maxMs < clientTimeout then
    ({ errorCode := .invalidTransactionTimeout, producerId := 0, epoch := 0,
       ongoingTxnProducerId := -1, ongoingTxnProducerEpoch := -1 }, s)
  else if transactionalId.isEmpty then
    let (pid, s) := s.allocateProducer
      { epoch := 0, transactional := false, transactionalId := "", enable2pc := false,
        transactionTimeoutMs := clientTimeout, partitions := ∅ }
    ({ errorCode := .ok, producerId := pid, epoch := 0, ongoingTxnProducerId := -1,
       ongoingTxnProducerEpoch := -1 }, s.persistProducerState)
  else if keepPrepared then
    match s.preparedTxns.lookup transactionalId with
    | some prep => s.keepPreparedTxn transactionalId enable2pc clientTimeout prep
    | none => s.fenceOrAllocate transactionalId enable2pc clientTimeout
  else (s.dropPreparedTxn transactionalId).fenceOrAllocate transactionalId enable2pc clientTimeout

/-! ## Opening a transaction -/

/-- The producer's record if the epoch is current and the producer is transactional. -/
def checkTxnProducer : Except ErrorCode Producer :=
  match s.producers.lookup producerId with
  | none => .error .unknownProducerId
  | some prod =>
    if prod.epoch ≠ producerEpoch then .error .invalidProducerEpoch
    else if !prod.transactional then .error .invalidTxnState
    else .ok prod

def isPrepared (transactionalId : String) : Bool :=
  !transactionalId.isEmpty && (s.preparedTxns.lookup transactionalId).isSome

def beginTxn : ErrorCode × State :=
  let s := s.expireTimedOutTxns
  match s.checkTxnProducer producerId producerEpoch with
  | .error code => (code, s)
  | .ok prod =>
    if s.isTxnAbortable producerId then (.transactionAbortable, s)
    else if s.isPrepared prod.transactionalId then (.invalidTxnState, s)
    else if (s.openTxns.lookup producerId).isSome then (.invalidTxnState, s)
    else
      (.ok, { s with
        openTxns := s.openTxns.insert producerId
          { openedAtMs := s.nowMs, producerEpoch, added := [], written := [], pending := ∅,
            deferredOffsets := [], serial := s.nextSerial }
        nextSerial := s.nextSerial + 1 })

def ensureTxnOpen : ErrorCode × State :=
  let s := s.expireTimedOutTxns
  match s.checkTxnProducer producerId producerEpoch with
  | .error code => (code, s)
  | .ok prod =>
    if s.isTxnAbortable producerId then (.transactionAbortable, s)
    else if s.isPrepared prod.transactionalId then (.invalidTxnState, s)
    else if (s.openTxns.lookup producerId).isSome then (.ok, s)
    else s.beginTxn producerId producerEpoch

/-- The partitions `more` added to `added`, without repetition. -/
def addPartitions (added : List TopicPartition) (more : List TopicPartition) :
    List TopicPartition :=
  more.foldl (fun added tp => if added.contains tp then added else added ++ [tp]) added

def recordTxnAddedPartitions (producerId : Nat) (partitions : List TopicPartition) :
    ErrorCode × State :=
  if partitions.isEmpty then (.ok, s)
  else
    match s.openTxns.lookup producerId with
    | none => (.invalidTxnState, s)
    | some txn =>
      let txn := { txn with added := addPartitions txn.added partitions }
      (.ok, { s with openTxns := s.openTxns.insert producerId txn }.persistTxnMarkers .markers)

/-- The answer to a produce or an offset commit outside a transaction. -/
def noOpenTxn (producerId : Nat) : ErrorCode :=
  if s.isTxnAbortable producerId then .transactionAbortable else .invalidTxnState

def bufferTxnOffsets (offsets : List DeferredOffset) : ErrorCode × State :=
  let s := s.expireTimedOutTxns
  match s.checkTxnProducer producerId producerEpoch with
  | .error code => (code, s)
  | .ok prod =>
    if s.isPrepared prod.transactionalId then (.invalidTxnState, s)
    else
      match s.openTxns.lookup producerId with
      | none => (s.noOpenTxn producerId, s)
      | some txn =>
        let txn := { txn with deferredOffsets := txn.deferredOffsets ++ offsets }
        (.ok, { s with openTxns := s.openTxns.insert producerId txn })

/-! ## Producing -/

inductive IdempotentCheck where
  | accept (baseOffset : Nat)
  | duplicate (baseOffset count : Nat)
  | reject (errorCode : ErrorCode)
deriving Repr, DecidableEq

/-- The sequence gate against the last accepted batch. -/
def checkSequence (last : Option BatchState) (baseSequence : Int) (messageCount : Nat) :
    IdempotentCheck :=
  match last with
  | none => .accept 0
  | some last =>
    if baseSequence = last.baseSequence ∧ messageCount = last.count then
      .duplicate last.baseOffset last.count
    else if baseSequence = saturateSigned 32 (last.baseSequence + castSigned 32 last.count) then
      .accept 0
    else .reject .outOfOrderSequence

/-- The number of messages as the code's 32-bit count. -/
def messageCount (messages : List Message) : Nat := messages.length % 2 ^ 32

/-- The append of a transactional produce and the bookkeeping after it. -/
def writeThrough (producerId : Nat) (txn : OpenTxn) (tp : TopicPartition)
    (baseSequence : Int) (messages : List Message) : IdempotentCheck × State :=
  match s.produce tp messages (.txn txn.serial) .txnAppend with
  | (.error _, s) => (.reject .unknown, s)
  | (.ok records, s) =>
    let baseOffset := (records.head?.map (·.offset)).getD 0
    let endOffset := saturatingAdd baseOffset (messageCount messages)
    match s.openTxns.lookup producerId with
    | none =>
      let s := s.pushAbortedMarker tp { producerId, firstOffset := baseOffset, endOffset }
      (.reject (s.noOpenTxn producerId), s.persistTxnMarkers .markers)
    | some txn =>
      let range := { tp, firstOffset := baseOffset, endOffset, baseSequence,
                     count := messageCount messages }
      let batch := { baseSequence, count := messageCount messages, baseOffset }
      let txn := { txn with
        written := txn.written ++ [range], pending := txn.pending.insert tp batch }
      (.accept baseOffset,
        { s with openTxns := s.openTxns.insert producerId txn }.persistTxnMarkers .markers)

def bufferTxnProduce (tp : TopicPartition)
    (baseSequence : Int) (messages : List Message) : IdempotentCheck × State :=
  let s := s.expireTimedOutTxns
  if messageCount messages = 0 then (.reject .invalidArg, s)
  else
    match s.checkTxnProducer producerId producerEpoch with
    | .error code => (.reject code, s)
    | .ok prod =>
      if s.isPrepared prod.transactionalId then (.reject .invalidTxnState, s)
      else
        match s.openTxns.lookup producerId with
        | none => (.reject (s.noOpenTxn producerId), s)
        | some txn =>
          let last := (txn.pending.lookup tp).or (prod.partitions.lookup tp)
          match checkSequence last baseSequence (messageCount messages) with
          | .accept _ => s.writeThrough producerId txn tp baseSequence messages
          | check => (check, s)

/-! ## Ending a transaction -/

def recordIdempotentProduce (tp : TopicPartition)
    (baseSequence : Int) (count baseOffset : Nat) : State :=
  if producerId = 0 ∨ baseSequence < 0 then s
  else
    match s.producers.lookup producerId with
    | none => s
    | some prod =>
      if prod.epoch ≠ producerEpoch then s
      else
        let prod := { prod with
          partitions := prod.partitions.insert tp { baseSequence, count, baseOffset } }
        { s with producers := s.producers.insert producerId prod }.persistProducerState

/-- `commit_offsets` with generation zero; the error of oversized metadata or names is dropped. -/
def commitOffset (o : DeferredOffset) : State :=
  if o.fits then { s with offsets := Function.update s.offsets o.key (some o.entry) }.durable .offset
  else s

structure TxnCommitResult where
  tp : TopicPartition
  baseOffset : Nat
  count : Nat
deriving Repr, DecidableEq

def finalizeTxn (committed : Bool) (txn : OpenTxn)
    (offsets : List DeferredOffset) : List TxnCommitResult × State :=
  if !committed then
    ([], (s.recordAbortedFromTxn producerId txn).appendTxnControlMarkers producerId producerEpoch
      .abort txn)
  else
    let s := txn.written.foldl (fun s batch => s.recordIdempotentProduce producerId producerEpoch
      batch.tp batch.baseSequence batch.count batch.firstOffset) s
    let results := txn.written.map fun batch =>
      { tp := batch.tp, baseOffset := batch.firstOffset, count := batch.count }
    let s := s.appendTxnControlMarkers producerId producerEpoch .commit txn
    let s := (txn.deferredOffsets ++ offsets).foldl commitOffset s
    (results, s.persistTxnMarkers .commitMarkers)

/-- History: the commit of this transaction has returned. -/
def markCommitted (committed : Bool) (serial : Nat) : State :=
  if committed then { s with committed := serial :: s.committed } else s

/-- The second EndTxn of a two-phase producer. -/
def completePrepared (committed : Bool)
    (offsets : List DeferredOffset) (transactionalId : String) (prep : PreparedTxn) :
    ErrorCode × List TxnCommitResult × State :=
  if prep.producerId ≠ producerId then (.invalidTxnState, [], s)
  else if prep.producerEpoch ≠ producerEpoch then (.invalidProducerEpoch, [], s)
  else if prep.commit ≠ committed then (.invalidTxnState, [], s)
  else
    let s := { s with
      preparedTxns := s.preparedTxns.erase transactionalId }.clearTxnAbortable producerId
    let (results, s) := s.finalizeTxn producerId producerEpoch committed prep.body offsets
    (.ok, results, s.persistPreparedTxns.markCommitted committed prep.body.serial)

/-- The first EndTxn of a two-phase producer. -/
def prepareTxn (committed : Bool) (transactionalId : String) (txn : OpenTxn) : State :=
  let prep := { transactionalId, producerId, producerEpoch, commit := committed,
                preparedAtMs := s.nowMs, body := txn }
  ({ s with preparedTxns := s.preparedTxns.insert transactionalId prep }.persistTxnMarkers
    .prepareMarkers).persistPreparedTxns

/-- EndTxn of an open transaction. -/
def completeOpen (committed : Bool)
    (offsets : List DeferredOffset) (prod : Producer) : ErrorCode × List TxnCommitResult × State :=
  match s.openTxns.lookup producerId with
  | none =>
    if s.isTxnAbortable producerId then
      (.transactionAbortable, [], s.clearTxnAbortable producerId)
    else (.invalidTxnState, [], s)
  | some txn =>
    let s := { s with openTxns := s.openTxns.erase producerId }.clearTxnAbortable producerId
    if prod.enable2pc && !prod.transactionalId.isEmpty then
      (.ok, [], s.prepareTxn producerId producerEpoch committed prod.transactionalId txn)
    else
      let (results, s) := s.finalizeTxn producerId producerEpoch committed txn offsets
      (.ok, results, s.markCommitted committed txn.serial)

def endTxn (committed : Bool)
    (offsets : List DeferredOffset) : ErrorCode × List TxnCommitResult × State :=
  let s := s.expireTimedOutTxns
  match s.producers.lookup producerId with
  | none => (.unknownProducerId, [], s)
  | some prod =>
    if prod.epoch ≠ producerEpoch then (.invalidProducerEpoch, [], s)
    else if prod.transactionalId.isEmpty then
      s.completeOpen producerId producerEpoch committed offsets prod
    else
      match s.preparedTxns.lookup prod.transactionalId with
      | some prep =>
        s.completePrepared producerId producerEpoch committed offsets prod.transactionalId prep
      | none => s.completeOpen producerId producerEpoch committed offsets prod

/-! ## Fetching -/

/-- The ranges of open and prepared transactions. -/
def unstableRanges : List WrittenRange :=
  s.openTxns.entries.flatMap (fun e => e.2.written) ++
    s.preparedTxns.entries.flatMap fun e => e.2.body.written

/-- The last stable offset, after expiry. -/
def lsoAt (tp : TopicPartition) : Nat :=
  let hwm := ((s.partitions tp).map (·.leo)).getD 0
  (s.unstableRanges.filter (·.tp = tp)).foldl (fun lso r => min lso r.firstOffset) hwm

def lastStableOffset (tp : TopicPartition) : Nat × State :=
  let s := s.expireTimedOutTxns
  (s.lsoAt tp, s)

def isAbortedOffset (tp : TopicPartition) (offset : Nat) : Bool :=
  (s.abortedTxns tp).any fun m => decide (m.firstOffset ≤ offset ∧ offset < m.endOffset)

/-- The offset belongs to an open or prepared transaction, after expiry. -/
def isUnstableOffset (tp : TopicPartition) (offset : Nat) : Bool :=
  s.unstableRanges.any fun r =>
    decide (r.tp = tp ∧ r.firstOffset ≤ offset ∧ offset < r.endOffset)

inductive FetchIsolation where
  | readUncommitted
  | readCommitted
  | committedOnly
deriving DecidableEq, Repr

/-- READ_COMMITTED: control markers pass, aborted ranges do not, nothing passes from `lso` on. -/
def readCommittedKeeps (tp : TopicPartition) (lso : Nat) (r : Record) : Bool :=
  if isTxnControlRecord r then decide (r.offset < lso)
  else decide (r.offset < lso) && !s.isAbortedOffset tp r.offset

/-- The native view: open and aborted ranges and control markers are hidden. -/
def committedOnlyKeeps (tp : TopicPartition) (r : Record) : Bool :=
  !isTxnControlRecord r && !s.isUnstableOffset tp r.offset && !s.isAbortedOffset tp r.offset

/-- The records a fetch reads from the log, up to the high watermark. -/
def examined (tp : TopicPartition) (start maxMessages : Nat) : Except Error (List Record) :=
  match s.partitions tp with
  | none => .error (.notFound s!"topic {tp.topic}")
  | some p => .ok ((p.read start maxMessages).filter (·.offset < p.committedHwm))

/-- Expiry runs after the records are read: in the native view once the first record that is no
control marker is checked. -/
def fetchUpTo (tp : TopicPartition) (start maxMessages : Nat)
    (isolation : FetchIsolation) : Except Error (List Record) × State :=
  match s.examined tp start maxMessages with
  | .error e => (.error e, s)
  | .ok records =>
    match isolation with
    | .readUncommitted => (.ok records, s)
    | .readCommitted =>
      let (lso, s) := s.lastStableOffset tp
      (.ok (records.filter (s.readCommittedKeeps tp lso)), s)
    | .committedOnly =>
      let s := if records.all isTxnControlRecord then s else s.expireTimedOutTxns
      (.ok (records.filter (s.committedOnlyKeeps tp)), s)

/-! ## Restart -/

/-- Aborted ranges against the log start: drop what lies below, clip what straddles. -/
def gcAbortedMarkersBelow (logStart : Nat) (markers : List AbortedMarker) : List AbortedMarker :=
  (markers.filter fun m => decide (logStart < m.endOffset)).map fun m =>
    if m.firstOffset < logStart then { m with firstOffset := logStart } else m

def gcStaleAbortedMarkersAll : State :=
  { s with abortedTxns := fun tp =>
      match s.partitions tp with
      | some p => gcAbortedMarkersBelow p.logStart (s.abortedTxns tp)
      | none => s.abortedTxns tp }

/-- The transactions that a marker file promotes to aborted, one for each producer. -/
def crashedTxns (file : MarkersFile) : List (Nat × Option Nat × OpenTxn) :=
  let pids := (file.openRanges.map (·.producerId) ++ file.openAdded.map (·.producerId)).dedup
  pids.map fun pid =>
    let ranges := file.openRanges.filter (·.producerId = pid)
    let added := file.openAdded.filter (·.producerId = pid)
    let epochs := ranges.map (·.producerEpoch) ++ added.map (·.producerEpoch)
    let epoch := (epochs.find? (·.isSome)).join
    (pid, epoch,
      { openedAtMs := 0, producerEpoch := (epochs.head?.join).getD 0
        added := addPartitions [] (added.map (·.tp))
        written := ranges.map fun r =>
          { tp := r.tp, firstOffset := r.firstOffset, endOffset := r.endOffset, baseSequence := 0,
            count := 0 }
        pending := ∅, deferredOffsets := [], serial := 0 })

def appendCrashAbortControlMarkers (file : MarkersFile) : State :=
  (crashedTxns file).foldl (fun s crashed =>
    match crashed.2.1.or ((s.producers.lookup crashed.1).map (·.epoch)) with
    | none => s
    | some epoch => s.appendTxnControlMarkers crashed.1 epoch .abort crashed.2.2) s

/-- The aborted ranges a marker file stands for: crash means abort, so those stored as open too. -/
def promotedMarkers (file : MarkersFile) (tp : TopicPartition) : List AbortedMarker :=
  file.aborted tp ++ (file.openRanges.filter (·.tp = tp)).map fun r =>
    { producerId := r.producerId, firstOffset := r.firstOffset, endOffset := r.endOffset }

def loadTxnMarkers : State :=
  match s.markersFile with
  | none => s.gcStaleAbortedMarkersAll
  | some file =>
    let s := { s with abortedTxns := fun tp => s.abortedTxns tp ++ promotedMarkers file tp }
    let s := s.appendCrashAbortControlMarkers file
    s.gcStaleAbortedMarkersAll.persistTxnMarkers .markers

def loadPreparedTxns : State :=
  match s.preparedFile with
  | none => s
  | some prepared =>
    { s with preparedTxns := prepared.foldl (fun m p => m.insert p.transactionalId { p with
        preparedAtMs := if 0 < p.preparedAtMs then p.preparedAtMs else s.nowMs
        body := { p.body with openedAtMs := 0, producerEpoch := p.producerEpoch } }) s.preparedTxns }

/-- The state a broker opens over a disk, before the transaction files are loaded. -/
def opened (d : Disk) (config : Config) (nowMs : Int) (nextSerial : Nat) (committed : List Nat) :
    State :=
  let file := d.producers.getD { nextId := 1, producers := ∅ }
  { config, nowMs
    partitions := fun tp => (d.logs tp).map fun log => Partition.openSingle log 0
    nextProducerId := if file.nextId = 0 then 1 else file.nextId
    producers := file.producers.entries.foldl (fun m e =>
      m.insert e.1 { e.2 with transactional := !e.2.transactionalId.isEmpty }) ∅
    transactionalIds := file.producers.entries.foldl (fun m e =>
      if e.2.transactionalId.isEmpty then m else m.insert e.2.transactionalId e.1) ∅
    openTxns := ∅, preparedTxns := ∅, abortedTxns := fun _ => [], abortableProducers := []
    markersFile := d.markers, preparedFile := d.prepared, producersFile := d.producers
    offsets := d.offsets, trace := [], origins := d.origins
    nextSerial, committed }

/-- The broker over a disk with both transaction files loaded. -/
def loaded (d : Disk) (config : Config) (nowMs : Int) (nextSerial : Nat) (committed : List Nat) :
    State :=
  (opened d config nowMs nextSerial committed).loadTxnMarkers.loadPreparedTxns

/-- The broker that starts over a disk. The history goes on. -/
def restart (d : Disk) (config : Config) (nowMs : Int) (nextSerial : Nat) (committed : List Nat) :
    State :=
  (loaded d config nowMs nextSerial committed).expireTimedOutTxns

end State

end Volant.Broker
