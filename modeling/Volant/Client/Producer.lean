-- SUMMARY: Model of the native client's transactional producer, talking to a standalone broker.
import Volant.Broker.Idempotent

/-!
# The transactional producer

The client numbers its batches itself. For each partition it keeps the base
sequence of the next batch; it takes a copy of these numbers when a transaction
begins and goes back to it when the broker has answered an abort. The functions
are those of the client's `client.rs`, with the broker's handlers in place of
the connection: every request is answered.
-/

namespace Volant.Client

open Broker

structure ClientConfig where
  transactionalId : Option String
  acks : Nat
  maxRetries : Nat

/-- The in-memory state of an idempotent or transactional producer. -/
structure IdempotentState where
  producerId : Nat
  epoch : Nat
  initialized : Bool
  /-- True after `BeginTxn` until `EndTxn`. -/
  inTransaction : Bool
  /-- The copy of `nextSeq` at `BeginTxn`. -/
  seqAtBegin : AList fun _ : TopicPartition => Int
  /-- The base sequence of the next batch. -/
  nextSeq : AList fun _ : TopicPartition => Int

/-- The state a client starts with. -/
def IdempotentState.default : IdempotentState :=
  { producerId := 0, epoch := 0, initialized := false, inTransaction := false, seqAtBegin := ∅,
    nextSeq := ∅ }

inductive ClientError where
  | invalidArgument (msg : String)
  /-- A response with an error code, for the operation named. -/
  | failed (op : String) (errorCode : ErrorCode)
  /-- A response that is an error. -/
  | answered (e : Error)
deriving DecidableEq, Repr

/-- The codes of the modelled handlers that a client retries. -/
def isTransientErrorCode : ErrorCode → Bool
  | .timeout | .notEnoughReplicas => true
  | _ => false

/-- Sends a request again while its answer is transient, at most `maxRetries` times. -/
def retrying {α : Type} (transient : α → Bool) (send : State → α × State) : Nat → State → α × State
  | 0, s => send s
  | maxRetries + 1, s =>
    let (answer, s) := send s
    if transient answer then retrying transient send maxRetries s else (answer, s)

/-- An answer that is final is the answer of the first attempt. -/
theorem retrying_of_final {α : Type} {transient : α → Bool} {send : State → α × State} {s : State}
    (h : transient (send s).1 = false) (maxRetries : Nat) :
    retrying transient send maxRetries s = send s := by
  cases maxRetries with
  | zero => rfl
  | succ n => simp [retrying, h]

def checkOk (op : String) (errorCode : ErrorCode) : Except ClientError Unit :=
  if errorCode = .ok then .ok () else .error (.failed op errorCode)

/-- What the broker's own storage adds to a produce: nothing fails, and there is no cluster. -/
def standaloneEnv (s : State) : RequestEnv :=
  { Partition.ProduceEnv.standalone (Int64.ofInt s.nowMs) with hwmSeen := 0, flushError := none }

/-- The base sequence after a batch, a signed 32-bit number that saturates. -/
def sequenceAfter (baseSequence : Int) (count : Nat) : Int :=
  saturateSigned 32 (baseSequence + castSigned 32 count)

/-- One client and the broker it is connected to. -/
structure Session where
  config : ClientConfig
  client : IdempotentState
  broker : State

namespace Session

/-- The base sequence of the next batch to a partition. -/
def sequence (x : Session) (tp : TopicPartition) : Int := (x.client.nextSeq.lookup tp).getD 0

/-- The native InitProducerId request asks for no two-phase commit and the default timeout, and
its answer carries no error. -/
def ensureProducerId (x : Session) : Session :=
  if x.client.initialized then x
  else
    let (r, broker) :=
      x.broker.initProducerIdWithOpts (x.config.transactionalId.getD "") false false 0
    { x with
      client := { x.client with
        producerId := r.producerId, epoch := r.epoch, initialized := true, inTransaction := false,
        nextSeq := ∅ }
      broker }

def beginTransaction (x : Session) : Except ClientError Unit × Session :=
  if x.config.transactionalId.isNone then
    (.error (.invalidArgument "transactional_id not configured"), x)
  else
    let x := x.ensureProducerId
    let (errorCode, broker) := retrying isTransientErrorCode
      (·.beginTxn x.client.producerId x.client.epoch) x.config.maxRetries x.broker
    match checkOk "begin_txn" errorCode with
    | .error e => (.error e, { x with broker })
    | .ok () =>
      (.ok (), { x with
        client := { x.client with seqAtBegin := x.client.nextSeq, inTransaction := true }, broker })

structure ProduceResult where
  tp : TopicPartition
  baseOffset : Nat
  count : Nat
deriving DecidableEq, Repr

/-- The request of a batch. -/
def produceRequest (x : Session) (tp : TopicPartition) (messages : List Message) : ProduceRequest :=
  { acks := x.config.acks, messages, producerId := x.client.producerId,
    producerEpoch := x.client.epoch, baseSequence := x.sequence tp }

def isTransientAnswer : Except Error ProduceResponse → Bool
  | .ok r => isTransientErrorCode r.errorCode
  | .error (.io _) => true
  | .error _ => false

/-- Produce to a given partition. -/
def produce (x : Session) (tp : TopicPartition) (messages : List Message) :
    Except ClientError ProduceResult × Session :=
  if messages.isEmpty then (.error (.invalidArgument "empty produce batch"), x)
  else
    let x := x.ensureProducerId
    let baseSequence := x.sequence tp
    let (answer, broker) := retrying isTransientAnswer
      (fun s => s.handleProduce (standaloneEnv s) tp (x.produceRequest tp messages))
      x.config.maxRetries x.broker
    match answer with
    | .error e => (.error (.answered e), { x with broker })
    | .ok r =>
      match checkOk "produce" r.errorCode with
      | .error e => (.error e, { x with broker })
      | .ok () =>
        let nextSeq := if 0 ≤ baseSequence then
          x.client.nextSeq.insert tp (sequenceAfter baseSequence r.count) else x.client.nextSeq
        (.ok ⟨tp, r.baseOffset, r.count⟩, { x with client := { x.client with nextSeq }, broker })

/-- `commit_transaction` and `abort_transaction`. -/
def endTransaction (x : Session) (committed : Bool) (offsets : List DeferredOffset) :
    Except ClientError (List State.TxnCommitResult) × Session :=
  if !x.client.initialized then
    (.error (.invalidArgument "producer id not initialized"), x)
  else
    let (answer, broker) := retrying (fun r : ErrorCode × _ => isTransientErrorCode r.1)
      (fun s =>
        let (errorCode, results, s) :=
          s.endTxn x.client.producerId x.client.epoch committed offsets
        ((errorCode, results), s)) x.config.maxRetries x.broker
    match checkOk "end_txn" answer.1 with
    | .error e => (.error e, { x with broker })
    | .ok () =>
      -- The broker has dropped the pending sequences of an abort.
      let nextSeq := if committed then x.client.nextSeq else x.client.seqAtBegin
      (.ok answer.2, { x with
        client := { x.client with inTransaction := false, nextSeq, seqAtBegin := ∅ }, broker })

end Session

end Volant.Client
