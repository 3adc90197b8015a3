-- SUMMARY: The transaction calls and the fetch path as programs of critical sections that interleave.
import Volant.Base.Sections
import Volant.Broker.Txn

/-!
# Concurrent calls

The broker takes a lock for each table it touches and releases it before it
takes the next. Here `begin_txn`, `buffer_txn_produce`, `end_txn`, the expiry of
timed-out transactions and `fetch_up_to` are programs of these sections; a clock
reading and a file write are sections of their own.

The shared state has history that no section reads: the ranges each call has in
its hands between two sections, the transaction that a call's sequence check
found open, the transactions that have passed the point where they commit, and
every range that was ever registered in a transaction. The sections whose order
decides what a reader sees are labelled.
-/

namespace Volant.Broker

open Sections

/-- The sections that depend on what other calls are doing. -/
inductive Label where
  | other
  /-- The append of a transactional batch. -/
  | append (tp : TopicPartition) (messages : List Message)
  /-- The registration of the appended range, after a sequence check that found `serial`. -/
  | register (producerId serial : Nat)
  /-- The insertion into the prepared table. -/
  | prepare (transactionalId : String)
  /-- A reader's look at the open table, for records at these offsets. -/
  | scanOpen (tp : TopicPartition) (offsets : List Nat)
  /-- A reader's look at the prepared table. -/
  | scanPrepared (tp : TopicPartition) (offsets : List Nat)
deriving DecidableEq

/-- Ranges that a call has in its hands, with the transactions they belong to. -/
structure Hands where
  /-- On the log, but not registered yet. -/
  appended : Option (Nat × WrittenRange)
  /-- Of transactions out of their table, but not in the next one yet. -/
  taken : List (Nat × WrittenRange)

def Hands.empty : Hands := { appended := none, taken := [] }

structure Shared where
  state : State
  /-- History: what the calls have in their hands. -/
  hands : AList fun _ : Nat => Hands
  /-- History: the transaction that the call's sequence check found open. -/
  checked : Nat → Option Nat
  /-- History: the transactions that have been ended with commit. -/
  ended : List Nat
  /-- History: the ranges that were written to each transaction. -/
  registered : List (Nat × WrittenRange)

namespace Shared

def hand (sh : Shared) (t : Nat) : Hands := (sh.hands.lookup t).getD .empty

def setAppended (sh : Shared) (t : Nat) (appended : Option (Nat × WrittenRange)) : Shared :=
  { sh with hands := sh.hands.insert t { sh.hand t with appended } }

def setTaken (sh : Shared) (t : Nat) (taken : List (Nat × WrittenRange)) : Shared :=
  { sh with hands := sh.hands.insert t { sh.hand t with taken } }

/-- The transactions leave their table: this is where a commit happens, and else the call has
their ranges in its hands. -/
def leave (sh : Shared) (t : Nat) (commits : Bool) (txns : List OpenTxn) : Shared :=
  if commits then { sh with ended := txns.map (·.serial) ++ sh.ended }
  else sh.setTaken t (txns.flatMap fun txn => txn.written.map fun r => (txn.serial, r))

end Shared

/-- A call of the broker. -/
abbrev Program := Prog Label Shared

namespace Program

variable {α : Type}

def reads (read : State → α) : Program α := .look .other fun sh => read sh.state

def modifies (update : State → State) : Program Unit :=
  .write .other fun sh => { sh with state := update sh.state }

def runs (run : State → α × State) : Program α :=
  .section_ .other fun sh => ((run sh.state).1, { sh with state := (run sh.state).2 })

/-! ## Files -/

def persistTxnMarkers (step : DurableStep) : Program Unit := do
  let (openRanges, openAdded) ← reads fun s =>
    (s.markersSnapshot.openRanges, s.markersSnapshot.openAdded)
  let aborted ← reads (·.abortedTxns)
  modifies fun s => { s with markersFile := some { openRanges, openAdded, aborted } }.durable step

def persistPreparedTxns : Program Unit := do
  let prepared ← reads (·.preparedSnapshot)
  modifies fun s => { s with preparedFile := some prepared }.durable .prepared

/-! ## Aborting -/

/-- The ranges on this partition are in the aborted table now. -/
def pushAbortedHull (t producerId : Nat) (written : List WrittenRange) (tp : TopicPartition) :
    Program Unit :=
  .write .other fun sh =>
    { sh.setTaken t ((sh.hand t).taken.filter fun l => !decide (l.2 ∈ written ∧ l.2.tp = tp)) with
      state := sh.state.pushAbortedHull producerId written tp }

/-- One section for each partition. -/
def recordAbortedFromTxn (t producerId : Nat) (txn : OpenTxn) : Program Unit := do
  Prog.forEach (pushAbortedHull t producerId txn.written) (unseen [] (txn.written.map (·.tp)))
  persistTxnMarkers .markers

def appendTxnControlMarkers (producerId producerEpoch : Nat) (markerType : ControlMarkerType)
    (txn : OpenTxn) : Program Unit :=
  Prog.forEach (fun tp => modifies fun s =>
      (s.produce tp [txnControlMessage markerType producerId producerEpoch s.nowMs] .control
        .controlAppend).2)
    (unseen [] (txn.written.map (·.tp) ++ txn.added))

/-! ## Timeouts -/

variable (t producerId producerEpoch : Nat) (committed : Bool)

def abortExpired (txn : OpenTxn) : Program Unit := do
  recordAbortedFromTxn t producerId txn
  appendTxnControlMarkers producerId producerEpoch .abort txn
  modifies (·.markTxnAbortable producerId)

/-- All open transactions that had timed out at `nowMs` leave the table at once. -/
def takeExpiredOpen (t : Nat) (nowMs : Int) (sh : Shared) : List (Nat × Nat × OpenTxn) × Shared :=
  let s := { sh.state with nowMs }
  (s.expiredOpenTxns,
    { sh.leave t false (s.expiredOpenTxns.map (·.2.2)) with
      state := { sh.state with openTxns := s.unexpiredOpenTxns } })

def expireTimedOutOpenTxns (t : Nat) : Program Unit := do
  let nowMs ← reads (·.nowMs)
  let expired ← .section_ .other (takeExpiredOpen t nowMs)
  Prog.forEach (fun e => abortExpired t e.1 e.2.1 e.2.2) expired
  if expired.isEmpty then pure () else persistTxnMarkers .markers

def takeExpiredPrepared (t : Nat) (nowMs : Int) (sh : Shared) : List PreparedTxn × Shared :=
  let s := { sh.state with nowMs }
  (s.expiredPreparedTxns,
    { sh.leave t false (s.expiredPreparedTxns.map (·.body)) with
      state := { sh.state with preparedTxns := s.unexpiredPreparedTxns } })

def expireTimedOutPreparedTxns (t : Nat) : Program Unit := do
  let nowMs ← reads (·.nowMs)
  let expired ← .section_ .other (takeExpiredPrepared t nowMs)
  Prog.forEach (fun p => abortExpired t p.producerId p.producerEpoch p.body) expired
  if expired.isEmpty then pure () else persistPreparedTxns

def expireTimedOutTxns (t : Nat) : Program Unit := do
  expireTimedOutOpenTxns t
  expireTimedOutPreparedTxns t

/-! ## Opening and writing -/

/-- The check and the insertion under the lock of the open table. -/
def insertOpen (producerId producerEpoch : Nat) (nowMs : Int) (s : State) : ErrorCode × State :=
  if (s.openTxns.lookup producerId).isSome then (.invalidTxnState, s)
  else
    (.ok, { s with
      openTxns := s.openTxns.insert producerId
        { openedAtMs := nowMs, producerEpoch, added := [], written := [], pending := ∅,
          deferredOffsets := [], serial := s.nextSerial }
      nextSerial := s.nextSerial + 1 })

def beginTxn : Program ErrorCode := do
  expireTimedOutTxns t
  match ← reads (·.checkTxnProducer producerId producerEpoch) with
  | .error code => pure code
  | .ok prod =>
    if ← reads (·.isTxnAbortable producerId) then pure .transactionAbortable
    else if ← reads (·.isPrepared prod.transactionalId) then pure .invalidTxnState
    else do
      let nowMs ← reads (·.nowMs)
      runs (insertOpen producerId producerEpoch nowMs)

/-- The sequence check under the lock of the open table: the transaction it found open, or the
answer that ends the call. -/
def checkTxnSequence (producerId : Nat) (tp : TopicPartition) (baseSequence : Int) (count : Nat)
    (s : State) : Except State.IdempotentCheck Nat :=
  match s.openTxns.lookup producerId with
  | none => .error (.reject (s.noOpenTxn producerId))
  | some txn =>
    let last := (txn.pending.lookup tp).or
      ((s.producers.lookup producerId).bind (·.partitions.lookup tp))
    match State.checkSequence last baseSequence count with
    | .accept _ => .ok txn.serial
    | check => .error check

/-- The range of a batch appended at `baseOffset`. -/
def rangeOf (tp : TopicPartition) (baseSequence : Int) (messages : List Message)
    (baseOffset : Nat) : WrittenRange :=
  { tp, firstOffset := baseOffset
    endOffset := saturatingAdd baseOffset (State.messageCount messages), baseSequence
    count := State.messageCount messages }

def appendBatch (t serial : Nat) (tp : TopicPartition) (baseSequence : Int)
    (messages : List Message) (sh : Shared) : Option Nat × Shared :=
  match sh.state.produce tp messages (.txn serial) .txnAppend with
  | (.error _, _) => (none, sh)
  | (.ok records, s) =>
    let baseOffset := (records.head?.map (·.offset)).getD 0
    (some baseOffset,
      { sh.setAppended t (some (serial, rangeOf tp baseSequence messages baseOffset)) with state := s })

/-- Whether the producer still has a transaction open; if so the range is registered in it. -/
def register (t producerId : Nat) (range : WrittenRange) (sh : Shared) : Bool × Shared :=
  match sh.state.openTxns.lookup producerId with
  | none => (false, sh)
  | some txn =>
    let batch := { baseSequence := range.baseSequence, count := range.count,
                   baseOffset := range.firstOffset }
    let txn' := { txn with
      written := txn.written ++ [range], pending := txn.pending.insert range.tp batch }
    (true,
      { sh.setAppended t none with
        state := { sh.state with openTxns := sh.state.openTxns.insert producerId txn' }
        registered := (txn.serial, range) :: sh.registered })

/-- The append, and the bookkeeping in a later section. -/
def writeThrough (t producerId serial : Nat) (tp : TopicPartition) (baseSequence : Int)
    (messages : List Message) : Program State.IdempotentCheck := do
  match ← Prog.section_ (.append tp messages) (appendBatch t serial tp baseSequence messages) with
  | none => pure (.reject .unknown)
  | some baseOffset =>
    let range := rangeOf tp baseSequence messages baseOffset
    if ← Prog.section_ (.register producerId serial) (register t producerId range) then do
      persistTxnMarkers .markers
      pure (.accept baseOffset)
    else do
      Prog.write .other fun sh => { sh.setAppended t none with
        state := sh.state.pushAbortedMarker tp
          { producerId, firstOffset := range.firstOffset, endOffset := range.endOffset } }
      persistTxnMarkers .markers
      let code ← reads (·.noOpenTxn producerId)
      pure (.reject code)

def passSequence (t producerId : Nat) (tp : TopicPartition) (baseSequence : Int) (count : Nat)
    (sh : Shared) : Except State.IdempotentCheck Nat × Shared :=
  match checkTxnSequence producerId tp baseSequence count sh.state with
  | .error check => (.error check, sh)
  | .ok serial => (.ok serial, { sh with checked := Function.update sh.checked t (some serial) })

def bufferTxnProduce (tp : TopicPartition) (baseSequence : Int)
    (messages : List Message) : Program State.IdempotentCheck := do
  expireTimedOutTxns t
  if State.messageCount messages = 0 then pure (.reject .invalidArg)
  else
    match ← reads (·.checkTxnProducer producerId producerEpoch) with
    | .error code => pure (.reject code)
    | .ok prod =>
      if ← reads (·.isPrepared prod.transactionalId) then pure (.reject .invalidTxnState)
      else
        match ← Prog.section_ .other
          (passSequence t producerId tp baseSequence (State.messageCount messages)) with
        | .error check => pure check
        | .ok serial => writeThrough t producerId serial tp baseSequence messages

/-! ## Ending -/

/-- The producer's last batch on the partition, if the epoch is still its own. -/
def insertBatch (producerId producerEpoch : Nat) (batch : WrittenRange) (s : State) :
    Bool × State :=
  match s.producers.lookup producerId with
  | none => (false, s)
  | some prod =>
    if prod.epoch ≠ producerEpoch then (false, s)
    else
      let last := { baseSequence := batch.baseSequence, count := batch.count,
                    baseOffset := batch.firstOffset }
      let prod := { prod with partitions := prod.partitions.insert batch.tp last }
      (true, { s with producers := s.producers.insert producerId prod })

def recordIdempotentProduce (producerId producerEpoch : Nat) (batch : WrittenRange) :
    Program Unit :=
  if producerId = 0 ∨ batch.baseSequence < 0 then pure ()
  else do
    if ← runs (insertBatch producerId producerEpoch batch) then
      modifies (·.persistProducerState)
    else pure ()

def finalizeTxn (txn : OpenTxn)
    (offsets : List DeferredOffset) : Program (List State.TxnCommitResult) :=
  if !committed then do
    recordAbortedFromTxn t producerId txn
    appendTxnControlMarkers producerId producerEpoch .abort txn
    pure []
  else do
    Prog.forEach (recordIdempotentProduce producerId producerEpoch) txn.written
    appendTxnControlMarkers producerId producerEpoch .commit txn
    Prog.forEach (fun o => modifies (·.commitOffset o)) (txn.deferredOffsets ++ offsets)
    persistTxnMarkers .commitMarkers
    pure (txn.written.map fun batch =>
      { tp := batch.tp, baseOffset := batch.firstOffset, count := batch.count })

/-- The second EndTxn's look at the prepared table: nothing there, an error, or the transaction,
which leaves the table. -/
def takePrepared (transactionalId : String)
    (sh : Shared) : Option (Except ErrorCode PreparedTxn) × Shared :=
  match sh.state.preparedTxns.lookup transactionalId with
  | none => (none, sh)
  | some prep =>
    if prep.producerId ≠ producerId then (some (.error .invalidTxnState), sh)
    else if prep.producerEpoch ≠ producerEpoch then (some (.error .invalidProducerEpoch), sh)
    else if prep.commit ≠ committed then (some (.error .invalidTxnState), sh)
    else
      (some (.ok prep),
        { sh.leave t committed [prep.body] with
          state := { sh.state with
            preparedTxns := sh.state.preparedTxns.erase transactionalId } })

/-- The open transaction leaves its table; `commits` says that this commits it. -/
def takeOpen (t producerId : Nat) (commits : Bool) (sh : Shared) :
    Except ErrorCode OpenTxn × Shared :=
  match sh.state.openTxns.lookup producerId with
  | none =>
    if sh.state.isTxnAbortable producerId then
      (.error .transactionAbortable, { sh with state := sh.state.clearTxnAbortable producerId })
    else (.error .invalidTxnState, sh)
  | some txn =>
    (.ok txn,
      { sh.leave t commits [txn] with
        state := { sh.state with openTxns := sh.state.openTxns.erase producerId } })

def insertPrepared (transactionalId : String)
    (nowMs : Int) (txn : OpenTxn) (sh : Shared) : Shared :=
  let prep := { transactionalId, producerId, producerEpoch, commit := committed,
                preparedAtMs := nowMs, body := txn }
  { sh.setTaken t [] with
    state := { sh.state with preparedTxns := sh.state.preparedTxns.insert transactionalId prep } }

def completeOpen (offsets : List DeferredOffset) (prod : Producer) :
    Program (ErrorCode × List State.TxnCommitResult) := do
  let twoPhase := prod.enable2pc && !prod.transactionalId.isEmpty
  match ← Prog.section_ .other (takeOpen t producerId (committed && !twoPhase)) with
  | .error code => pure (code, [])
  | .ok txn =>
    modifies (·.clearTxnAbortable producerId)
    if twoPhase then do
      let nowMs ← reads (·.nowMs)
      Prog.write (.prepare prod.transactionalId)
        (insertPrepared t producerId producerEpoch committed prod.transactionalId nowMs txn)
      persistTxnMarkers .prepareMarkers
      persistPreparedTxns
      pure (.ok, [])
    else do
      let results ← finalizeTxn t producerId producerEpoch committed txn offsets
      pure (.ok, results)

def endTxn (offsets : List DeferredOffset) :
    Program (ErrorCode × List State.TxnCommitResult) := do
  expireTimedOutTxns t
  match ← reads (·.producers.lookup producerId) with
  | none => pure (.unknownProducerId, [])
  | some prod =>
    if prod.epoch ≠ producerEpoch then pure (.invalidProducerEpoch, [])
    else if prod.transactionalId.isEmpty then
      completeOpen t producerId producerEpoch committed offsets prod
    else
      match ← Prog.section_ .other
        (takePrepared t producerId producerEpoch committed prod.transactionalId) with
      | none => completeOpen t producerId producerEpoch committed offsets prod
      | some (.error code) => pure (code, [])
      | some (.ok prep) => do
        modifies (·.clearTxnAbortable producerId)
        let results ← finalizeTxn t producerId producerEpoch committed prep.body offsets
        persistPreparedTxns
        pure (.ok, results)

/-! ## Fetching -/

def openRanges (s : State) : List WrittenRange := s.openTxns.entries.flatMap fun e => e.2.written

def preparedRanges (s : State) : List WrittenRange :=
  s.preparedTxns.entries.flatMap fun e => e.2.body.written

/-- The last stable offset is held back by ranges on the partition. -/
def heldBack (tp : TopicPartition) (ranges : List WrittenRange) (lso : Nat) : Nat :=
  (ranges.filter (·.tp = tp)).foldl (fun lso r => min lso r.firstOffset) lso

/-- `offsets` are those of the records that the caller has read. -/
def lastStableOffset (t : Nat) (tp : TopicPartition) (offsets : List Nat) : Program Nat := do
  expireTimedOutTxns t
  let hwm ← reads fun s => ((s.partitions tp).map (·.leo)).getD 0
  let lso ← Prog.look (.scanOpen tp offsets) fun sh => heldBack tp (openRanges sh.state) hwm
  Prog.look (.scanPrepared tp offsets) fun sh => heldBack tp (preparedRanges sh.state) lso

def readCommittedKeeps (tp : TopicPartition) (lso : Nat) (r : Record) : Program Bool :=
  if isTxnControlRecord r then pure (decide (r.offset < lso))
  else if r.offset < lso then do
    let aborted ← reads (·.isAbortedOffset tp r.offset)
    pure !aborted
  else pure false

def holdsOffset (tp : TopicPartition) (offset : Nat) (ranges : List WrittenRange) : Bool :=
  ranges.any fun r => decide (r.tp = tp ∧ r.firstOffset ≤ offset ∧ offset < r.endOffset)

def isUnstableOffset (t : Nat) (tp : TopicPartition) (offset : Nat) : Program Bool := do
  expireTimedOutTxns t
  if ← Prog.look (.scanOpen tp [offset]) fun sh => holdsOffset tp offset (openRanges sh.state) then
    pure true
  else Prog.look (.scanPrepared tp [offset]) fun sh =>
    holdsOffset tp offset (preparedRanges sh.state)

def committedOnlyKeeps (t : Nat) (tp : TopicPartition) (r : Record) : Program Bool :=
  if isTxnControlRecord r then pure false
  else do
    if ← isUnstableOffset t tp r.offset then pure false
    else do
      let aborted ← reads (·.isAbortedOffset tp r.offset)
      pure !aborted

def fetchUpTo (t : Nat) (tp : TopicPartition) (start maxMessages : Nat)
    (isolation : State.FetchIsolation) : Program (Except Error (List Record)) := do
  match ← reads (·.examined tp start maxMessages) with
  | .error e => pure (.error e)
  | .ok records =>
    match isolation with
    | .readUncommitted => pure (.ok records)
    | .readCommitted => do
      let lso ← lastStableOffset t tp (records.map (·.offset))
      let records ← Prog.filter (readCommittedKeeps tp lso) records
      pure (.ok records)
    | .committedOnly => do
      let records ← Prog.filter (committedOnlyKeeps t tp) records
      pure (.ok records)

end Program

/-! ## Calls -/

inductive Call where
  | beginTxn (producerId producerEpoch : Nat)
  | bufferTxnProduce (producerId producerEpoch : Nat) (tp : TopicPartition) (baseSequence : Int)
      (messages : List Message)
  | endTxn (producerId producerEpoch : Nat) (committed : Bool) (offsets : List DeferredOffset)
  | expireTimedOutTxns
  | fetchUpTo (tp : TopicPartition) (start maxMessages : Nat) (isolation : State.FetchIsolation)
  /-- A produce outside transactions. -/
  | produce (tp : TopicPartition) (messages : List Message)
  /-- The wall clock moves. -/
  | clock (nowMs : Int)

inductive Outcome where
  | began (code : ErrorCode)
  | produced (check : State.IdempotentCheck)
  | ended (code : ErrorCode) (results : List State.TxnCommitResult)
  | fetched (result : Except Error (List Record))
  | done

def Call.body (t : Nat) : Call → Program Outcome
  | .beginTxn pid epoch => do
    let code ← Program.beginTxn t pid epoch
    pure (.began code)
  | .bufferTxnProduce pid epoch tp baseSequence messages => do
    let check ← Program.bufferTxnProduce t pid epoch tp baseSequence messages
    pure (.produced check)
  | .endTxn pid epoch committed offsets => do
    let (code, results) ← Program.endTxn t pid epoch committed offsets
    pure (.ended code results)
  | .expireTimedOutTxns => do
    Program.expireTimedOutTxns t
    pure .done
  | .fetchUpTo tp start maxMessages isolation => do
    let result ← Program.fetchUpTo t tp start maxMessages isolation
    pure (.fetched result)
  | .produce tp messages => do
    Program.modifies fun s => (s.produce tp messages .plain .plainAppend).2
    pure .done
  | .clock nowMs => do
    Program.modifies fun s => { s with nowMs }
    pure .done

end Volant.Broker
