-- SUMMARY: Requests in flight with one batch: appended at most once if no check runs between another's check and its recording.
import Volant.Broker.Idempotent
import Volant.Broker.Concurrent

/-!
# Duplicates in flight

A produce request checks the sequence number of its batch, appends, and records
the sequence number, under a lock of its own each time. Here any number of
requests that carry one batch take these steps in any order. The plain path and
the path inside a transaction differ in where they look the last batch up and
record it; a `Gate` is what they have in common.
-/

namespace Volant.Broker

open Trail (first orders ready)

/-- The sequence check of a batch, and the recording of its append. -/
structure Gate where
  accepts : State → Bool
  record : Nat → State → State

/-- `check_idempotent_produce` and `record_idempotent_produce`. -/
def plainGate (producerId producerEpoch : Nat) (tp : TopicPartition) (baseSequence : Int)
    (messages : List Message) : Gate where
  accepts s :=
    match s.checkIdempotentProduce producerId producerEpoch tp baseSequence
        (State.messageCount messages) with
    | .accept _ => true
    | _ => false
  record baseOffset s := s.recordIdempotentProduce producerId producerEpoch tp baseSequence
    (State.messageCount messages) baseOffset

/-- The two sections of `buffer_txn_produce` around its append. -/
def txnGate (producerId : Nat) (tp : TopicPartition) (baseSequence : Int)
    (messages : List Message) : Gate where
  accepts s :=
    match Program.checkTxnSequence producerId tp baseSequence (State.messageCount messages) s with
    | .ok _ => true
    | .error _ => false
  record baseOffset s :=
    let range := Program.rangeOf tp baseSequence messages baseOffset
    match s.openTxns.lookup producerId with
    | none => (s.pushAbortedMarker tp
        ⟨producerId, range.firstOffset, range.endOffset⟩).persistTxnMarkers .markers
    | some txn =>
      let txn := { txn with
        written := txn.written ++ [range]
        pending := txn.pending.insert tp ⟨baseSequence, State.messageCount messages, baseOffset⟩ }
      { s with openTxns := s.openTxns.insert producerId txn }.persistTxnMarkers .markers

/-- What the steps of the requests rest on. -/
structure Gate.Lawful (g : Gate) (tp : TopicPartition) : Prop where
  append : ∀ s p, g.accepts (s.setPartition tp p) = g.accepts s
  closes : ∀ s o, g.accepts s = true → g.accepts (g.record o s) = false
  log : ∀ s o, (g.record o s).logOf tp = s.logOf tp

structure Flight where
  state : State
  /-- The requests that have passed the check and not ended, with the offset of their append. -/
  sending : List (Option Nat)

inductive FlightEvent where
  /-- Another request runs its check. -/
  | check
  | append (i : Nat) (env : Partition.ProduceEnv) (acks : Nat)
  | record (i : Nat)
  /-- The request ends with an error: a timeout of `acks=all`, or a failed flush. -/
  | giveUp (i : Nat)

namespace Flight

def step (g : Gate) (tp : TopicPartition) (messages : List Message) (f : Flight) :
    FlightEvent → Flight
  | .check => if g.accepts f.state then { f with sending := f.sending ++ [none] } else f
  | .append i env acks =>
    match f.sending[i]?, f.state.partitions tp with
    | some none, some p =>
      match Partition.produceInner env messages acks p with
      | (.ok (records, .ok), p') =>
        { state := f.state.setPartition tp p'
          sending := f.sending.set i (some ((records.head?.map Record.offset).getD 0)) }
      | (_, p') => { state := f.state.setPartition tp p', sending := f.sending.eraseIdx i }
    | some none, none => { f with sending := f.sending.eraseIdx i }
    | _, _ => f
  | .record i =>
    match f.sending[i]? with
    | some (some baseOffset) =>
      { state := g.record baseOffset f.state, sending := f.sending.eraseIdx i }
    | _ => f
  | .giveUp i => { f with sending := f.sending.eraseIdx i }

/-- A check runs while no request is between its own check and its recording, an append leaves all
of its records or none, and a request that has appended records its batch. -/
def Spaced (f : Flight) : FlightEvent → Prop
  | .check => f.sending = []
  | .append _ env acks => (∀ failure ∈ env.appendFails, failure.1 = 0) ∧
      ((decide (acks ≠ 0) && env.groupCommit) = true → env.flushFails = none)
  | .record _ => True
  | .giveUp i => ∀ o, f.sending[i]? ≠ some (some o)

/-- Every event of the run is spaced where it happens. -/
def SpacedRun (g : Gate) (tp : TopicPartition) (messages : List Message) :
    Flight → List FlightEvent → Prop
  | _, [] => True
  | f, e :: es => f.Spaced e ∧ SpacedRun g tp messages (f.step g tp messages e) es

variable {g : Gate} {tp : TopicPartition} {messages : List Message} {log : List Record} {f : Flight}
  {i leo : Nat}

/-- At most one request is on its way, and once it has recorded no other check passes. -/
inductive Inv (g : Gate) (tp : TopicPartition) (messages : List Message) (log : List Record)
    (leo : Nat) : Flight → Prop
  | idle {s : State} (hlog : s.logOf tp = log ∧ s.leoOf tp = leo) : Inv g tp messages log leo ⟨s, []⟩
  | checked {s : State} (hlog : s.logOf tp = log ∧ s.leoOf tp = leo) (haccepts : g.accepts s = true) :
      Inv g tp messages log leo ⟨s, [none]⟩
  | appended {s : State} (nowMs : Int64) (o : Nat)
      (hlog : s.logOf tp = log ++ Partition.stamp nowMs leo messages)
      (haccepts : g.accepts s = true) : Inv g tp messages log leo ⟨s, [some o]⟩
  | recorded {s : State} (nowMs : Int64)
      (hlog : s.logOf tp = log ++ Partition.stamp nowMs leo messages)
      (hclosed : g.accepts s = false) : Inv g tp messages log leo ⟨s, []⟩

theorem Inv.check (h : Inv g tp messages log leo f) (hspaced : f.Spaced .check) :
    Inv g tp messages log leo (f.step g tp messages .check) := by
  simp only [step]
  split_ifs with haccepts
  · cases h with
    | idle hlog => exact .checked hlog haccepts
    | checked hlog _ => cases hspaced
    | appended nowMs o hlog _ => cases hspaced
    | recorded nowMs hlog hclosed => cases hclosed.symm.trans haccepts
  · exact h

theorem Inv.append (hg : g.Lawful tp) (hne : messages ≠ []) (h : Inv g tp messages log leo f)
    {env : Partition.ProduceEnv} {acks : Nat} (hspaced : f.Spaced (.append i env acks)) :
    Inv g tp messages log leo (f.step g tp messages (.append i env acks)) := by
  cases h with
  | idle hlog => exact .idle hlog
  | recorded nowMs hlog hclosed => exact .recorded nowMs hlog hclosed
  | appended nowMs o hlog haccepts => cases i <;> exact .appended nowMs o hlog haccepts
  | @checked s hlog haccepts =>
    cases i with
    | succ i => exact .checked hlog haccepts
    | zero =>
      simp only [step, List.getElem?_cons_zero]
      cases hp : s.partitions tp with
      | none => exact .idle hlog
      | some p =>
        have hplog : log = p.log := by simp [← hlog.1, State.logOf, hp]
        have hpleo : leo = p.leo := by simp [← hlog.2, State.leoOf, hp]
        have hkept : (s.setPartition tp p).logOf tp = log ∧ (s.setPartition tp p).leoOf tp = leo :=
          ⟨(State.logOf_setPartition s tp p).trans hplog.symm,
            (State.leoOf_setPartition s tp p).trans hpleo.symm⟩
        dsimp only
        rcases hrun : Partition.produceInner env messages acks p with ⟨result, p'⟩
        rcases Partition.produceInner_inv hne hrun with
          ⟨rfl, code, rfl, rfl | rfl⟩ | ⟨-, ⟨k, e, happend, rfl, rfl⟩ | ⟨-, rfl, hflush⟩⟩
        · exact .idle hkept
        · exact .idle hkept
        · obtain rfl : k = 0 := hspaced.1 _ happend
          rw [List.take_zero, List.append_nil]
          exact .idle hkept
        · rcases hflush with ⟨e, hfails, hgroup, -⟩ | rfl
          · cases (hspaced.2 hgroup).symm.trans hfails
          · refine .appended env.nowMs _ ?_ ((hg.append s _).trans haccepts)
            rw [State.logOf_setPartition, Partition.advanceHwm_log, hplog, hpleo]

theorem Inv.record (hg : g.Lawful tp) (h : Inv g tp messages log leo f) :
    Inv g tp messages log leo (f.step g tp messages (.record i)) := by
  cases h with
  | idle hlog => exact .idle hlog
  | checked hlog haccepts => cases i <;> exact .checked hlog haccepts
  | recorded nowMs hlog hclosed => exact .recorded nowMs hlog hclosed
  | appended nowMs o hlog haccepts =>
    cases i with
    | zero => exact .recorded nowMs ((hg.log _ _).trans hlog) (hg.closes _ o haccepts)
    | succ i => exact .appended nowMs o hlog haccepts

theorem Inv.giveUp (h : Inv g tp messages log leo f) (hspaced : f.Spaced (.giveUp i)) :
    Inv g tp messages log leo (f.step g tp messages (.giveUp i)) := by
  cases h with
  | idle hlog => exact .idle hlog
  | recorded nowMs hlog hclosed => exact .recorded nowMs hlog hclosed
  | checked hlog haccepts =>
    cases i with
    | zero => exact .idle hlog
    | succ i => exact .checked hlog haccepts
  | appended nowMs o hlog haccepts =>
    cases i with
    | zero => exact absurd rfl (hspaced o)
    | succ i => exact .appended nowMs o hlog haccepts

theorem Inv.run (hg : g.Lawful tp) (hne : messages ≠ []) {es : List FlightEvent}
    (h : Inv g tp messages log leo f) (hspaced : SpacedRun g tp messages f es) :
    Inv g tp messages log leo (es.foldl (step g tp messages) f) := by
  induction es generalizing f with
  | nil => exact h
  | cons e es ih =>
    refine ih ?_ hspaced.2
    cases e with
    | check => exact h.check hspaced.1
    | append i env acks => exact h.append hg hne hspaced.1
    | record i => exact h.record hg
    | giveUp i => exact h.giveUp hspaced.1

/-! ## The two gates -/

variable {pid epoch : Nat} {baseSequence : Int}

theorem checkSequence_same (n o : Nat) :
    State.checkSequence (some ⟨baseSequence, n, o⟩) baseSequence n = .duplicate o n := by
  simp [State.checkSequence]

theorem lawful_plainGate (hpid : pid ≠ 0) (hbase : 0 ≤ baseSequence) :
    (plainGate pid epoch tp baseSequence messages).Lawful tp where
  append _ _ := rfl
  log _ _ := State.logOf_recordIdempotentProduce ..
  closes s o haccepts := by
    have hgate : ¬(pid = 0 ∨ baseSequence < 0) := not_or.mpr ⟨hpid, not_lt.mpr hbase⟩
    simp only [plainGate, State.checkIdempotentProduce, State.recordIdempotentProduce, if_neg hgate]
      at haccepts ⊢
    split_ifs at haccepts ⊢ with hcount
    cases hprod : s.producers.lookup pid with
    | none => simp [hprod] at haccepts
    | some prod =>
      simp only [hprod] at haccepts ⊢
      split_ifs at haccepts ⊢ with hepoch htxn
      simp [State.persistProducerState, State.durable, hepoch, htxn, checkSequence_same]

theorem lawful_txnGate : (txnGate pid tp baseSequence messages).Lawful tp where
  append _ _ := rfl
  log s o := by
    simp only [txnGate]
    split <;> rfl
  closes s o haccepts := by
    simp only [txnGate, Program.checkTxnSequence] at haccepts ⊢
    cases htxn : s.openTxns.lookup pid with
    | none => simp [htxn] at haccepts
    | some txn => simp [State.persistTxnMarkers, State.durable, checkSequence_same]

/-- Requests that carry one batch append it at most once, in every spaced run. -/
theorem batch_in_flight_appended_once (hpid : pid ≠ 0) (hbase : 0 ≤ baseSequence)
    (hne : messages ≠ []) (s : State) (es : List FlightEvent) :
    ∀ g ∈ [plainGate pid epoch tp baseSequence messages, txnGate pid tp baseSequence messages],
      SpacedRun g tp messages ⟨s, []⟩ es →
        let log := (es.foldl (step g tp messages) ⟨s, []⟩).state.logOf tp
        log = s.logOf tp ∨
          ∃ nowMs, log = s.logOf tp ++ Partition.stamp nowMs (s.leoOf tp) messages := by
  intro g hmem hspaced
  have hg : g.Lawful tp := by
    rcases List.mem_pair.mp hmem with rfl | rfl
    · exact lawful_plainGate hpid hbase
    · exact lawful_txnGate
  have hinv := (Inv.idle ⟨rfl, rfl⟩).run hg hne hspaced
  generalize es.foldl (step g tp messages) ⟨s, []⟩ = f at hinv ⊢
  cases hinv with
  | idle hlog => exact .inl hlog.1
  | checked hlog _ => exact .inl hlog.1
  | appended nowMs _ hlog _ => exact .inr ⟨nowMs, hlog⟩
  | recorded nowMs hlog _ => exact .inr ⟨nowMs, hlog⟩

def firstGate : Gate := plainGate 7 0 orders first.baseSequence first.messages

/-- The second request checks when the first has recorded. -/
def takeTurns : List FlightEvent :=
  [.check, .append 0 (.standalone 0) 1, .record 0, .check, .append 0 (.standalone 0) 1, .record 0]

theorem takeTurns_appended_once :
    let log := (takeTurns.foldl (step firstGate orders first.messages)
      ⟨ready [1], []⟩).state.logOf orders
    log = [] ∨ ∃ nowMs, log = Partition.stamp nowMs 0 first.messages :=
  batch_in_flight_appended_once (by decide) (by decide) (by decide) (ready [1]) takeTurns
    firstGate List.mem_cons_self ⟨rfl, ⟨nofun, nofun⟩, trivial, rfl, ⟨nofun, nofun⟩, trivial, trivial⟩

/-- Both requests check before either has recorded. -/
def checkTogether : List FlightEvent :=
  [.check, .check, .append 0 (.standalone 0) 1, .append 1 (.standalone 0) 1, .record 0, .record 0]

/-- A broker on which the producer has a transaction open. -/
def readyOpen : State :=
  { ready [1] with
    openTxns := (∅ : AList _).insert 7 ⟨0, 0, [], [], ∅, [], 0⟩ }

theorem checkTogether_appended_twice :
    let log (g : Gate) (s : State) := ((checkTogether.foldl
      (step g orders first.messages) ⟨s, []⟩).state.logOf orders).map (·.value)
    log firstGate (ready [1]) = [[1], [2], [1], [2]] ∧
      log (txnGate 7 orders first.baseSequence first.messages) readyOpen =
        [[1], [2], [1], [2]] := by
  decide +kernel

end Flight

end Volant.Broker
