-- SUMMARY: The inter-broker side of transactions: participant open, prepare and complete, and the rollback of a prepare.
import Volant.Broker.Txn

/-!
# Transaction participants

A broker that initialises a producer, begins a transaction or ends one tells
its live peers. These are the peers' handlers and the messages they receive.
The index of prepared transactions that the controller keeps and the registry
of coordinators are left out: no handler reads them to decide anything.
-/

namespace Volant.Broker

/-- `TxnParticipantOpen`. -/
structure ParticipantOpen where
  transactionalId : String
  producerId : Nat
  producerEpoch : Nat
  enable2pc : Bool
  installOpen : Bool
deriving DecidableEq, Repr

/-- `TxnParticipantPrepare` and `TxnParticipantComplete`. -/
structure ParticipantEnd where
  transactionalId : String
  producerId : Nat
  producerEpoch : Nat
  commit : Bool
deriving DecidableEq, Repr

/-- What an EndTxn sends to the live peers. -/
inductive Txn2pcFanout where
  | none
  | prepare (m : ParticipantEnd)
  | complete (m : ParticipantEnd)
deriving DecidableEq, Repr

namespace State

/-- `AllocateProducerIds`: the first id of the block, and the block's length. -/
def allocateProducerIds (s : State) (len : UInt32) : (Nat × Nat) × State :=
  ((s.nextProducerId, len.toNat),
    { s with nextProducerId := (s.nextProducerId + len.toNat) % 2 ^ 64 }.persistProducerState)

/-! ## Open -/

/-- The message after an InitProducerId with a transactional id: it opens no transaction. -/
def txn2pcInitRegisterFanout (transactionalId : String) (producerId producerEpoch : Nat)
    (enable2pc : Bool) : Option ParticipantOpen :=
  if transactionalId.isEmpty then none
  else some { transactionalId, producerId, producerEpoch, enable2pc, installOpen := false }

/-- The message after a transaction was begun. -/
def txn2pcOpenFanout (s : State) (producerId : Nat) : Option ParticipantOpen :=
  match s.producers.lookup producerId with
  | none => none
  | some prod =>
    if !prod.transactional || prod.transactionalId.isEmpty then none
    else some { transactionalId := prod.transactionalId, producerId, producerEpoch := prod.epoch
                enable2pc := prod.enable2pc, installOpen := true }

/-- An empty open transaction for a peer's producer, or the new epoch on the one there is. -/
def installOpenTxn (s : State) (transactionalId : String) (producerId producerEpoch : Nat) :
    State :=
  match s.openTxns.lookup producerId with
  | some txn => { s with openTxns := s.openTxns.insert producerId { txn with producerEpoch } }
  | none =>
    if s.isPrepared transactionalId then s
    else { s with
      openTxns := s.openTxns.insert producerId
        { openedAtMs := s.nowMs, producerEpoch, added := [], written := [], pending := ∅,
          deferredOffsets := [], serial := s.nextSerial }
      nextSerial := s.nextSerial + 1 }

/-- The record of a peer's producer, if the message is not older than it. -/
def participantProducer (old : Option Producer) (m : ParticipantOpen) : Option Producer :=
  match old with
  | some prod =>
    if m.producerEpoch < prod.epoch then none
    else some { prod with
      epoch := m.producerEpoch, transactional := true, transactionalId := m.transactionalId
      enable2pc := m.enable2pc || prod.enable2pc }
  | none => some
      { epoch := m.producerEpoch, transactional := true, transactionalId := m.transactionalId
        enable2pc := m.enable2pc, transactionTimeoutMs := 0, partitions := ∅ }

def handleTxnParticipantOpen (s : State) (m : ParticipantOpen) : ErrorCode × State :=
  match participantProducer (s.producers.lookup m.producerId) m with
  | none => (.invalidProducerEpoch, s)
  | some prod =>
    let s := { s with producers := s.producers.insert m.producerId prod }
    let s := if m.transactionalId.isEmpty then s
      else { s with transactionalIds := s.transactionalIds.insert m.transactionalId m.producerId }
    let s := if m.installOpen then
        s.installOpenTxn m.transactionalId m.producerId m.producerEpoch
      else s
    (.ok, s.persistProducerState)

/-! ## Prepare and complete -/

/-- The message of an EndTxn. Only a successful one sends any. -/
def endTxnFanout (s : State) (producerId producerEpoch : Nat) (committed : Bool) : Txn2pcFanout :=
  let s := s.expireTimedOutTxns
  match s.producers.lookup producerId with
  | none => .none
  | some prod =>
    let transactionalId := prod.transactionalId
    let m := { transactionalId, producerId, producerEpoch, commit := committed }
    let prepared := if transactionalId.isEmpty then none else s.preparedTxns.lookup transactionalId
    if prod.epoch ≠ producerEpoch then .none
    else
      match prepared with
      | some prep =>
        if prep.producerId ≠ producerId ∨ prep.producerEpoch ≠ producerEpoch ∨
          prep.commit ≠ committed then .none
        else .complete m
      | none =>
        if (s.openTxns.lookup producerId).isNone || transactionalId.isEmpty then .none
        else if prod.enable2pc then .prepare m
        else .complete m

/-- The producer is known with another epoch. -/
def otherEpoch (s : State) (producerId producerEpoch : Nat) : Bool :=
  (s.producers.lookup producerId).any fun prod => decide (prod.epoch ≠ producerEpoch)

def handleTxnParticipantPrepare (s : State) (m : ParticipantEnd) : ErrorCode × State :=
  if m.transactionalId.isEmpty then (.invalidArg, s)
  else
    match s.preparedTxns.lookup m.transactionalId with
    | some prep =>
      if prep.producerId ≠ m.producerId then (.invalidTxnState, s)
      else if prep.producerEpoch ≠ m.producerEpoch then (.invalidProducerEpoch, s)
      else if prep.commit ≠ m.commit then (.invalidTxnState, s)
      else (.ok, s)
    | none =>
      match s.openTxns.lookup m.producerId with
      | none =>
        -- an empty participant
        if s.otherEpoch m.producerId m.producerEpoch then (.invalidProducerEpoch, s) else (.ok, s)
      | some txn =>
        if txn.producerEpoch ≠ 0 ∧ txn.producerEpoch ≠ m.producerEpoch then
          (.invalidProducerEpoch, s)
        else if s.otherEpoch m.producerId m.producerEpoch then (.invalidProducerEpoch, s)
        else
          (.ok, { s with openTxns := s.openTxns.erase m.producerId }.prepareTxn m.producerId
            m.producerEpoch m.commit m.transactionalId txn)

/-- A peer finalizes what it has prepared, or else what it has open, whatever its epoch. -/
def handleTxnParticipantComplete (s : State) (m : ParticipantEnd) : ErrorCode × State :=
  let prepared :=
    if m.transactionalId.isEmpty then none else s.preparedTxns.lookup m.transactionalId
  match prepared with
  | some prep =>
    let taken := { s with preparedTxns := s.preparedTxns.erase m.transactionalId }
    if prep.producerId ≠ m.producerId then (.invalidTxnState, s)
    else if prep.producerEpoch ≠ m.producerEpoch then (.invalidProducerEpoch, s)
    else if prep.commit ≠ m.commit then
      if m.commit then (.invalidTxnState, s) else (.ok, taken.forceAbortPrepared prep)
    else
      let s := (taken.finalizeTxn m.producerId m.producerEpoch m.commit prep.body []).2
      (.ok, s.persistPreparedTxns.markCommitted m.commit prep.body.serial)
  | none =>
    match s.openTxns.lookup m.producerId with
    | none => (.ok, s)
    | some txn =>
      let s := { s with openTxns := s.openTxns.erase m.producerId }
      let s := (s.finalizeTxn m.producerId m.producerEpoch m.commit txn []).2
      (.ok, s.markCommitted m.commit txn.serial)

/-- A failed prepare goes back to open on the broker that started it. -/
def rollbackLocalPrepare (s : State) (transactionalId : String) : State :=
  match s.preparedTxns.lookup transactionalId with
  | none => s
  | some prep =>
    { s with
      preparedTxns := s.preparedTxns.erase transactionalId
      openTxns := s.openTxns.insert prep.producerId prep.body
      }.persistPreparedTxns.persistTxnMarkers .markers

end State
end Volant.Broker
