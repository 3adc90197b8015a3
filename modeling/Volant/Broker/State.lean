-- SUMMARY: State of a standalone broker's transactions: producers, open and prepared transactions, markers, files.
import Volant.Broker.Partition

/-!
# Broker state

The state that the transactional operations of a standalone broker read and
write, in memory and on disk. Every append and every replaced file is a
durable step; `trace` collects the disk image after each durable step of the
running operation, so that a crash can happen at any of them. Appends are
durable once made, and appends and file writes succeed.

The broker appends transactional records at once and remembers what is theirs
as offset ranges. Four maps of the state decide what a consumer sees: the open
transactions, the prepared ones, the ranges of aborted ones, and the logs.

History that no function reads: every record on a log has an `Origin`, every
transaction has a serial number, and `committed` lists the transactions whose
commit returned.
-/

namespace Volant.Broker

/-- Where a record on a log comes from. -/
inductive Origin where
  | plain
  /-- A control marker that the broker wrote. -/
  | control
  | txn (serial : Nat)
deriving DecidableEq, Repr

/-- The last batch accepted from a producer on a partition. -/
structure BatchState where
  baseSequence : Int
  count : Nat
  baseOffset : Nat
deriving DecidableEq, Repr

structure Producer where
  epoch : Nat
  transactional : Bool
  transactionalId : String
  enable2pc : Bool
  transactionTimeoutMs : Nat
  partitions : AList (fun _ : TopicPartition => BatchState)

/-- One write-through range inside a transaction. -/
structure WrittenRange where
  tp : TopicPartition
  firstOffset : Nat
  endOffset : Nat
  baseSequence : Int
  count : Nat
deriving DecidableEq, Repr

/-- A consumer offset to apply on commit. -/
structure DeferredOffset where
  groupId : String
  topic : String
  partition : Nat
  offset : Nat
  metadata : String
deriving DecidableEq, Repr

structure OpenTxn where
  openedAtMs : Int
  producerEpoch : Nat
  /-- Partitions registered without a write. -/
  added : List TopicPartition
  written : List WrittenRange
  pending : AList (fun _ : TopicPartition => BatchState)
  deferredOffsets : List DeferredOffset
  /-- History: the number of this transaction. -/
  serial : Nat

structure PreparedTxn where
  transactionalId : String
  producerId : Nat
  producerEpoch : Nat
  /-- `true` for PrepareCommit. -/
  commit : Bool
  preparedAtMs : Int
  body : OpenTxn

/-- An aborted range `[firstOffset, endOffset)`. -/
structure AbortedMarker where
  producerId : Nat
  firstOffset : Nat
  endOffset : Nat
deriving DecidableEq, Repr

/-! ## Files -/

structure StoredRange where
  producerId : Nat
  producerEpoch : Option Nat
  tp : TopicPartition
  firstOffset : Nat
  endOffset : Nat
deriving DecidableEq, Repr

structure StoredAdded where
  producerId : Nat
  producerEpoch : Option Nat
  tp : TopicPartition
deriving DecidableEq, Repr

/-- The contents of `__txn_markers/state.json`. -/
structure MarkersFile where
  openRanges : List StoredRange
  openAdded : List StoredAdded
  aborted : TopicPartition → List AbortedMarker

/-- The contents of `__producer_state/state.json`. -/
structure ProducerFile where
  nextId : Nat
  producers : AList (fun _ : Nat => Producer)

structure OffsetKey where
  group : String
  topic : String
  partition : Nat
deriving DecidableEq, Repr

structure CommittedOffset where
  offset : Nat
  metadata : String
  leaderEpoch : Int
deriving DecidableEq, Repr

/-- Everything that survives a crash. -/
structure Disk where
  logs : TopicPartition → Option (List Record)
  markers : Option MarkersFile
  prepared : Option (List PreparedTxn)
  producers : Option ProducerFile
  offsets : OffsetKey → Option CommittedOffset
  /-- History: the origin of each record of each log. -/
  origins : TopicPartition → List Origin

/-- The kinds of durable steps. -/
inductive DurableStep where
  | createPartition
  | plainAppend
  | txnAppend
  | controlAppend
  /-- `persist_txn_markers`. -/
  | markers
  /-- The `persist_txn_markers` of a two-phase prepare. -/
  | prepareMarkers
  /-- The `persist_txn_markers` that ends a commit. -/
  | commitMarkers
  /-- `persist_prepared_txns`. -/
  | prepared
  /-- `persist_producer_state`. -/
  | producers
  /-- One offset file. -/
  | offset
deriving DecidableEq, Repr

/-! ## The state -/

structure Config where
  openTxnTimeoutMs : Nat
  preparedTxnTimeoutMs : Nat
  transactionMaxTimeoutMs : Nat

structure State where
  config : Config
  /-- The wall clock, in milliseconds. -/
  nowMs : Int
  partitions : TopicPartition → Option Partition
  nextProducerId : Nat
  producers : AList (fun _ : Nat => Producer)
  transactionalIds : AList (fun _ : String => Nat)
  openTxns : AList (fun _ : Nat => OpenTxn)
  preparedTxns : AList (fun _ : String => PreparedTxn)
  abortedTxns : TopicPartition → List AbortedMarker
  /-- Producers whose transaction timed out and that have not acknowledged it. -/
  abortableProducers : List Nat
  markersFile : Option MarkersFile
  preparedFile : Option (List PreparedTxn)
  producersFile : Option ProducerFile
  offsets : OffsetKey → Option CommittedOffset
  /-- The durable steps of the running operation. -/
  trace : List (DurableStep × Disk)
  /-- History. -/
  origins : TopicPartition → List Origin
  nextSerial : Nat
  committed : List Nat

namespace State

def disk (s : State) : Disk :=
  { logs := fun tp => (s.partitions tp).map (·.log)
    markers := s.markersFile
    prepared := s.preparedFile
    producers := s.producersFile
    offsets := s.offsets
    origins := s.origins }

/-- A durable step is over. -/
def durable (s : State) (step : DurableStep) : State :=
  { s with trace := s.trace ++ [(step, s.disk)] }

/-- A standalone broker with no topics. -/
def fresh (config : Config) : State :=
  { config, nowMs := 0, partitions := fun _ => none, nextProducerId := 1, producers := ∅,
    transactionalIds := ∅, openTxns := ∅, preparedTxns := ∅, abortedTxns := fun _ => [],
    abortableProducers := [], markersFile := none, preparedFile := none, producersFile := none,
    offsets := fun _ => none, trace := [], origins := fun _ => [], nextSerial := 0,
    committed := [] }

/-- The origin of the record at an offset. -/
def originAt (s : State) (tp : TopicPartition) (offset : Nat) : Option Origin :=
  (s.origins tp)[offset]?

end State

end Volant.Broker
