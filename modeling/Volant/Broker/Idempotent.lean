-- SUMMARY: The native Produce handler, and that idempotent batches are appended at most once.
import Volant.Broker.Txn

/-!
# Idempotent produce

The handler of a native Produce request checks the batch's sequence number,
appends, waits for the high watermark if the client asks for it, flushes, and
only then records the sequence number. What happens outside the broker in the
meantime is the request's environment. If every request that appends also gets
as far as recording, a batch is on the log at most once however often it is
sent; a request that fails in between leaves records that the next send of the
batch appends again.
-/

namespace Volant.Broker

open List
open Broker.Partition (advanceHwm produceInner stamp)

structure ProduceRequest where
  /-- `255` stands for `acks=all`. -/
  acks : Nat
  messages : List Message
  producerId : Nat
  producerEpoch : Nat
  baseSequence : Int

structure ProduceResponse where
  baseOffset : Nat
  count : Nat
  errorCode : ErrorCode
deriving DecidableEq, Repr

/-- What one request finds outside the broker. -/
structure RequestEnv extends Partition.ProduceEnv where
  /-- The high watermark that the replicas reach while the handler waits. -/
  hwmSeen : Nat
  /-- The error of the handler's own flush. -/
  flushError : Option Error

namespace State

def isTransactionalProducer (s : State) (producerId : Nat) : Bool :=
  ((s.producers.lookup producerId).map (·.transactional)).getD false

def checkIdempotentProduce (s : State) (producerId producerEpoch : Nat) (tp : TopicPartition)
    (baseSequence : Int) (messageCount : Nat) : IdempotentCheck :=
  if producerId = 0 ∨ baseSequence < 0 then .accept 0
  else if messageCount = 0 then .reject .invalidArg
  else
    match s.producers.lookup producerId with
    | none => .reject .unknownProducerId
    | some prod =>
      if prod.epoch ≠ producerEpoch then .reject .invalidProducerEpoch
      else if prod.transactional then .reject .invalidTxnState
      else checkSequence (prod.partitions.lookup tp) baseSequence messageCount

/-- The answer to a check that ends the request. -/
def checkResponse : IdempotentCheck → Nat → ProduceResponse
  | .reject errorCode, _ => { baseOffset := 0, count := 0, errorCode }
  | .duplicate baseOffset count, _ => { baseOffset, count, errorCode := .ok }
  | .accept baseOffset, count => { baseOffset, count, errorCode := .ok }

/-- The broker with this partition in place of the old one. -/
def setPartition (s : State) (tp : TopicPartition) (p : Partition) : State :=
  { s with partitions := Function.update s.partitions tp (some p) }

/-- The rest of the handler, from the append on. -/
def appendAndRecord (s : State) (env : RequestEnv) (tp : TopicPartition) (req : ProduceRequest) :
    Except Error ProduceResponse × State :=
  match s.partitions tp with
  | none => (.error (.notFound s!"topic {tp.topic}"), s)
  | some p =>
    match produceInner env.toProduceEnv req.messages req.acks p with
    | (.error e, p') => (.error e, s.setPartition tp p')
    | (.ok (records, errorCode), p') =>
      let s := s.setPartition tp p'
      if errorCode = .notLeaderForPartition ∨ errorCode = .notEnoughReplicas then
        (.ok { baseOffset := 0, count := 0, errorCode }, s)
      else
        let baseOffset := (records.head?.map (·.offset)).getD 0
        let count := records.length % 2 ^ 32
        let waits := decide (req.acks = 255) && env.cluster.isSome && decide (0 < count)
        let reached := decide (baseOffset + count ≤ max p'.committedHwm env.hwmSeen)
        let finalError := if waits && !reached then .timeout else errorCode
        match (if decide (req.acks ≠ 0) && !env.groupCommit then env.flushError else none) with
        | some e => (.error e, s)
        | none =>
          let s := if finalError = .ok then
            s.recordIdempotentProduce req.producerId req.producerEpoch tp req.baseSequence count
              baseOffset
            else s
          (.ok { baseOffset, count, errorCode := finalError }, s)

/-- A native Produce request to a given partition. -/
def handleProduce (s : State) (env : RequestEnv) (tp : TopicPartition) (req : ProduceRequest) :
    Except Error ProduceResponse × State :=
  if req.messages.isEmpty then (.error (.invalidArgument "empty produce batch"), s)
  else if env.cluster.isSome && (s.partitions tp).any (fun p => !p.isLeader env.nodeId) then
    (.ok { baseOffset := 0, count := 0, errorCode := .notLeaderForPartition }, s)
  else if req.producerId ≠ 0 ∧ 0 ≤ req.baseSequence ∧
      s.isTransactionalProducer req.producerId = true then
    let (check, s) := s.bufferTxnProduce req.producerId req.producerEpoch tp req.baseSequence
      req.messages
    (.ok (checkResponse check (messageCount req.messages)), s)
  else
    match s.checkIdempotentProduce req.producerId req.producerEpoch tp req.baseSequence
        (messageCount req.messages) with
    | .accept _ => s.appendAndRecord env tp req
    | check => (.ok (checkResponse check 0), s)

end State

/-! ## Batches in sequence order -/

structure Batch where
  baseSequence : Int
  messages : List Message
deriving DecidableEq, Repr

/-- Batches whose sequence numbers follow each other, from `next` on, within 32 bits. -/
def Consecutive : Int → List Batch → Prop
  | _, [] => True
  | next, b :: rest => b.baseSequence = next ∧ b.messages ≠ [] ∧
    next + b.messages.length ≤ 2 ^ 31 ∧ Consecutive (next + b.messages.length) rest

variable {batches : List Batch}

theorem Consecutive.bounds {next : Int} (h : Consecutive next batches)
    {b : Batch} (hb : b ∈ batches) : next ≤ b.baseSequence ∧ b.messages ≠ [] ∧
      b.baseSequence + b.messages.length ≤ 2 ^ 31 := by
  induction batches generalizing next with
  | nil => cases hb
  | cons a rest ih =>
    obtain ⟨rfl, hne, hle, hrest⟩ := h
    rcases mem_cons.mp hb with rfl | hin
    · exact ⟨le_rfl, hne, hle⟩
    · obtain ⟨hlow, hbounds⟩ := ih hrest hin
      exact ⟨by omega, hbounds⟩

/-- No batch begins inside another. -/
theorem Consecutive.eq_of_inside {next : Int} (h : Consecutive next batches)
    {b b' : Batch} (hb : b ∈ batches) (hb' : b' ∈ batches)
    (hlow : b.baseSequence ≤ b'.baseSequence)
    (hhigh : b'.baseSequence < b.baseSequence + b.messages.length) : b' = b := by
  induction batches generalizing next with
  | nil => cases hb
  | cons a rest ih =>
    obtain ⟨rfl, hne, hle, hrest⟩ := h
    have hpos : 0 < a.messages.length := length_pos_iff.mpr hne
    rcases mem_cons.mp hb with rfl | hin <;> rcases mem_cons.mp hb' with rfl | hin'
    · rfl
    · have hafter := (hrest.bounds hin').1
      omega
    · have hafter := (hrest.bounds hin).1
      omega
    · exact ih hrest hin hin'

/-! ## One request -/

def ProduceResponse.succeeded : Except Error ProduceResponse → Bool
  | .ok r => decide (r.errorCode = .ok)
  | .error _ => false

namespace Partition

/-- With one in-sync replica the high watermark is at the log end at once. -/
theorem advanceHwm_of_single {env : ProduceEnv} {acks : Nat} {p : Partition}
    (h : p.isr.length = 1) : p.leo ≤ (advanceHwm env acks p).committedHwm := by
  have hcatch : p.leo ≤ p.catchUpHwm.committedHwm := by
    unfold catchUpHwm
    split_ifs with hlt
    · exact le_rfl
    · exact Nat.le_of_not_lt hlt
  unfold advanceHwm
  simp [h, hcatch]

end Partition

/-- The producer with a batch recorded as its last one on a partition. -/
def Producer.recorded (prod : Producer) (tp : TopicPartition) (b : BatchState) : Producer :=
  { prod with partitions := prod.partitions.insert tp b }

namespace State

/-- The records of a partition. -/
def logOf (s : State) (tp : TopicPartition) : List Record :=
  ((s.partitions tp).map (·.log)).getD []

def leoOf (s : State) (tp : TopicPartition) : Nat := ((s.partitions tp).map (·.leo)).getD 0

/-- The request does not end in an error between the append and the recording: the storage appends
all or nothing, the flush succeeds, and the replicas catch up in time. -/
structure Undisturbed (s : State) (tp : TopicPartition) (env : RequestEnv) (acks : Nat)
    (messages : List Message) : Prop where
  append : ∀ failure ∈ env.appendFails, failure.1 = 0
  groupFlush : env.appendFails = none → acks ≠ 0 → env.groupCommit = true → env.flushFails = none
  flush : env.appendFails = none → acks ≠ 0 → env.groupCommit = false → env.flushError = none
  replicas : env.appendFails = none → acks = 255 → env.cluster.isSome = true →
    ∀ p ∈ s.partitions tp, p.isr.length ≠ 1 → p.leo + messages.length ≤ env.hwmSeen

instance (s : State) (tp : TopicPartition) (env : RequestEnv) (acks : Nat)
    (messages : List Message) : Decidable (s.Undisturbed tp env acks messages) :=
  decidable_of_iff
    ((∀ failure ∈ env.appendFails, failure.1 = 0) ∧
      (env.appendFails = none → acks ≠ 0 → env.groupCommit = true → env.flushFails = none) ∧
      (env.appendFails = none → acks ≠ 0 → env.groupCommit = false → env.flushError = none) ∧
      (env.appendFails = none → acks = 255 → env.cluster.isSome = true →
        ∀ p ∈ s.partitions tp, p.isr.length ≠ 1 → p.leo + messages.length ≤ env.hwmSeen))
    ⟨fun h => ⟨h.1, h.2.1, h.2.2.1, h.2.2.2⟩, fun h => ⟨h.1, h.2, h.3, h.4⟩⟩

variable {s : State} {tp : TopicPartition} {env : RequestEnv} {req : ProduceRequest}
  {last : Option BatchState} {seq : Int} {count : Nat}

theorem logOf_setPartition (s : State) (tp : TopicPartition) (p : Partition) :
    (s.setPartition tp p).logOf tp = p.log := by
  simp [logOf, setPartition]

theorem leoOf_setPartition (s : State) (tp : TopicPartition) (p : Partition) :
    (s.setPartition tp p).leoOf tp = p.leo := by
  simp [leoOf, setPartition]

theorem logOf_recordIdempotentProduce (s : State) (pid epoch : Nat) (tp tp' : TopicPartition)
    (baseSequence : Int) (count baseOffset : Nat) :
    (s.recordIdempotentProduce pid epoch tp' baseSequence count baseOffset).logOf tp =
      s.logOf tp := by
  unfold recordIdempotentProduce
  split_ifs
  · rfl
  · split
    · rfl
    · split_ifs <;> rfl

/-- What an accepted request leaves: all of the batch and its sequence number, or nothing. -/
def AppendsOrNot (s : State) (tp : TopicPartition) (req : ProduceRequest)
    (result : Except Error ProduceResponse × State) : Prop :=
  (ProduceResponse.succeeded result.1 = false ∧ result.2.logOf tp = s.logOf tp ∧
      result.2.producers = s.producers) ∨
    (ProduceResponse.succeeded result.1 = true ∧ ∃ nowMs baseOffset,
      result.2.logOf tp = s.logOf tp ++
        stamp nowMs baseOffset req.messages ∧
      result.2.producers = (s.recordIdempotentProduce req.producerId req.producerEpoch tp
        req.baseSequence req.messages.length baseOffset).producers)

theorem reject_of_checkSequence {code : ErrorCode} (h : checkSequence last seq count = .reject code)
    : code = .outOfOrderSequence := by
  cases last with
  | none => cases h
  | some last =>
    simp only [checkSequence] at h
    split_ifs at h
    cases h
    rfl

theorem duplicate_of_checkSequence {baseOffset n : Nat}
    (h : checkSequence last seq count = .duplicate baseOffset n) :
    ∃ l, last = some l ∧ seq = l.baseSequence ∧ count = l.count := by
  cases last with
  | none => cases h
  | some last =>
    simp only [checkSequence] at h
    split_ifs at h with hsame
    exact ⟨last, rfl, hsame.1, hsame.2⟩

theorem accept_of_checkSequence {baseOffset : Nat}
    (h : checkSequence last seq count = .accept baseOffset) : baseOffset = 0 := by
  cases last with
  | none =>
    cases h
    rfl
  | some last =>
    simp only [checkSequence] at h
    split_ifs at h
    cases h
    rfl

/-- A batch that passes the check begins after the recorded one, also where the 32-bit sequence
saturates: the last sequence number then lies inside the recorded batch, which is a duplicate. -/
theorem lt_of_checkSequence {next : Int} {batches : List Batch} (hc : Consecutive next batches)
    (hnext : 0 ≤ next) {b b' : Batch} (hb : b ∈ batches) (hb' : b' ∈ batches) {last : BatchState}
    (hseq : last.baseSequence = b.baseSequence) (hsize : last.count = b.messages.length)
    (h : checkSequence (some last) b'.baseSequence b'.messages.length = .accept 0) :
    b.baseSequence < b'.baseSequence := by
  obtain ⟨hlow, hne, hhigh⟩ := hc.bounds hb
  have hlow' := (hc.bounds hb').1
  have hpos : 0 < b.messages.length := length_pos_iff.mpr hne
  simp only [checkSequence, hseq, hsize] at h
  split_ifs at h with hsame hexpected
  have hcast : castSigned 32 b.messages.length =
      if b.messages.length = 2 ^ 31 then -2 ^ 31 else (b.messages.length : Int) := by
    unfold castSigned
    rw [Int.bmod_def]
    split_ifs <;> omega
  rw [hcast] at hexpected
  unfold saturateSigned at hexpected
  by_contra hle
  have hat : b'.baseSequence = b.baseSequence := by
    split_ifs at hexpected <;> omega
  obtain rfl := hc.eq_of_inside hb hb' (le_of_eq hat.symm) (by omega)
  exact hsame ⟨rfl, rfl⟩

/-- `produceInner` appends the whole batch, or leaves the log as it is. -/
theorem produceInner_cases (p : Partition) (hu : s.Undisturbed tp env req.acks req.messages)
    (hne : req.messages ≠ []) {r : Except Error (List Record × ErrorCode)} {p' : Partition}
    (h : produceInner env.toProduceEnv req.messages req.acks p = (r, p')) :
    (p'.log = p.log ∧ ((∃ e, r = .error e) ∨ ∃ code, r = .ok ([], code) ∧
        (code = .notLeaderForPartition ∨ code = .notEnoughReplicas))) ∨
      (env.appendFails = none ∧ r = .ok (stamp env.nowMs p.leo req.messages, .ok) ∧
        p' = advanceHwm env.toProduceEnv req.acks
          { p with log := p.log ++ stamp env.nowMs p.leo req.messages }) := by
  rcases Partition.produceInner_inv hne h with
    ⟨rfl, code, rfl, hcode⟩ | ⟨-, ⟨k, e, happend, rfl, rfl⟩ | ⟨happend, rfl, hflush⟩⟩
  · exact .inl ⟨rfl, .inr ⟨code, rfl, hcode⟩⟩
  · obtain rfl : k = 0 := hu.append (k, e) happend
    exact .inl ⟨by simp, .inl ⟨e, rfl⟩⟩
  · rcases hflush with ⟨e, hfails, hgroup, -⟩ | rfl
    · simp only [Bool.and_eq_true, decide_eq_true_eq] at hgroup
      rw [hu.groupFlush happend hgroup.1 hgroup.2] at hfails
      cases hfails
    · exact .inr ⟨happend, rfl, rfl⟩

theorem head_offset_stamp (nowMs : Int64) (offset : Nat) {ms : List Message} (h : ms ≠ []) :
    ((stamp nowMs offset ms).head?.map (·.offset)).getD 0 = offset := by
  cases ms with
  | nil => exact absurd rfl h
  | cons m ms => rfl

/-- Neither the wait nor the flush ends an undisturbed request. -/
theorem appendAndRecord_of_append {p p' : Partition} (hp : s.partitions tp = some p)
    (hu : s.Undisturbed tp env req.acks req.messages) (hne : req.messages ≠ [])
    (hlen : req.messages.length < 2 ^ 32) (happend : env.appendFails = none)
    (hp' : p' = advanceHwm env.toProduceEnv req.acks
      { p with log := p.log ++ stamp env.nowMs p.leo req.messages })
    (hr : produceInner env.toProduceEnv req.messages req.acks p =
      (.ok (stamp env.nowMs p.leo req.messages, .ok), p')) :
    s.appendAndRecord env tp req =
      (.ok { baseOffset := p.leo, count := req.messages.length, errorCode := .ok },
        (s.setPartition tp p').recordIdempotentProduce req.producerId req.producerEpoch tp
          req.baseSequence req.messages.length p.leo) := by
  have hcount : req.messages.length % 2 ^ 32 = req.messages.length := Nat.mod_eq_of_lt hlen
  have hflush : (if decide (req.acks ≠ 0) && !env.groupCommit then env.flushError else none) =
      none := by
    split_ifs with hcond
    · simp only [Bool.and_eq_true, decide_eq_true_eq, Bool.not_eq_true'] at hcond
      exact hu.flush happend hcond.1 hcond.2
    · rfl
  have hreached : (decide (req.acks = 255) && env.cluster.isSome &&
      decide (0 < req.messages.length) &&
        !decide (p.leo + req.messages.length ≤ max p'.committedHwm env.hwmSeen)) = false := by
    by_contra hcon
    simp only [Bool.not_eq_false, Bool.and_eq_true, decide_eq_true_eq, Bool.not_eq_true',
      decide_eq_false_iff_not, not_le, max_lt_iff] at hcon
    obtain ⟨⟨⟨hacks, hcluster⟩, -⟩, hbelow, hseen⟩ := hcon
    by_cases hsingle : p.isr.length = 1
    · have hhwm : p.leo + req.messages.length ≤ p'.committedHwm := by
        rw [hp']
        refine le_trans (le_of_eq ?_) (Partition.advanceHwm_of_single hsingle)
        simp only [Partition.leo, length_append, Partition.stamp_length]
        omega
      exact absurd hhwm (not_le.mpr hbelow)
    · exact absurd (hu.replicas happend hacks hcluster p hp hsingle) (not_le.mpr hseen)
  simp only [appendAndRecord, hp, hr, head_offset_stamp env.nowMs p.leo hne,
    Partition.stamp_length, hcount, hreached, hflush]
  simp

theorem recordIdempotentProduce_setPartition (s : State) (tp : TopicPartition) (p : Partition)
    (pid epoch : Nat) (tp' : TopicPartition) (baseSequence : Int) (count baseOffset : Nat) :
    ((s.setPartition tp p).recordIdempotentProduce pid epoch tp' baseSequence count
        baseOffset).producers =
      (s.recordIdempotentProduce pid epoch tp' baseSequence count baseOffset).producers := by
  unfold recordIdempotentProduce
  split_ifs
  · rfl
  · have hprod : (s.setPartition tp p).producers = s.producers := rfl
    rw [hprod]
    cases s.producers.lookup pid with
    | none => rfl
    | some prod =>
      simp only
      split_ifs <;> rfl

theorem appendAndRecord_cases (hu : s.Undisturbed tp env req.acks req.messages)
    (hne : req.messages ≠ []) (hlen : req.messages.length < 2 ^ 32) :
    s.AppendsOrNot tp req (s.appendAndRecord env tp req) := by
  cases hp : s.partitions tp with
  | none =>
    have heq : s.appendAndRecord env tp req = (.error (.notFound s!"topic {tp.topic}"), s) := by
      simp [appendAndRecord, hp]
    rw [heq]
    exact .inl ⟨rfl, rfl, rfl⟩
  | some p =>
    have hlog : s.logOf tp = p.log := by simp [logOf, hp]
    rcases hr : produceInner env.toProduceEnv req.messages req.acks p with ⟨r, p'⟩
    rcases produceInner_cases p hu hne hr with
      ⟨hsame, ⟨e, rfl⟩ | ⟨code, rfl, hcode⟩⟩ | ⟨happend, rfl, hp'⟩
    · have heq : s.appendAndRecord env tp req = (.error e, s.setPartition tp p') := by
        simp [appendAndRecord, hp, hr]
      rw [heq]
      exact .inl ⟨rfl, by rw [logOf_setPartition, hsame, hlog], rfl⟩
    · have heq : s.appendAndRecord env tp req =
          (.ok { baseOffset := 0, count := 0, errorCode := code }, s.setPartition tp p') := by
        simp [appendAndRecord, hp, hr, hcode]
      rw [heq]
      refine .inl ⟨?_, by rw [logOf_setPartition, hsame, hlog], rfl⟩
      rcases hcode with rfl | rfl <;> rfl
    · rw [appendAndRecord_of_append hp hu hne hlen happend hp' hr]
      refine .inr ⟨rfl, env.nowMs, p.leo, ?_, ?_⟩
      · rw [logOf_recordIdempotentProduce, logOf_setPartition, hp', Partition.advanceHwm_log, hlog]
      · exact recordIdempotentProduce_setPartition ..

/-- What an idempotent request does: nothing, the answer for the batch that was recorded last, or
the append of a batch that passed the sequence check. -/
theorem handleProduce_cases (hu : s.Undisturbed tp env req.acks req.messages)
    (hne : req.messages ≠ []) (hlen : req.messages.length < 2 ^ 32) (hpid : req.producerId ≠ 0)
    (hbase : 0 ≤ req.baseSequence) (hplain : s.isTransactionalProducer req.producerId = false)
    {r : Except Error ProduceResponse} {s' : State} (h : s.handleProduce env tp req = (r, s')) :
    (ProduceResponse.succeeded r = false ∧ s'.logOf tp = s.logOf tp ∧ s'.producers = s.producers) ∨
      ∃ prod, s.producers.lookup req.producerId = some prod ∧
        ProduceResponse.succeeded r = true ∧
        ((∃ last, prod.partitions.lookup tp = some last ∧ req.baseSequence = last.baseSequence ∧
            req.messages.length = last.count ∧ s' = s) ∨
          ∃ nowMs baseOffset, checkSequence (prod.partitions.lookup tp) req.baseSequence
              req.messages.length = .accept 0 ∧
            s'.logOf tp = s.logOf tp ++
              stamp nowMs baseOffset req.messages ∧
            s'.producers = s.producers.insert req.producerId
              (prod.recorded tp ⟨req.baseSequence, req.messages.length, baseOffset⟩)) := by
  have hempty : req.messages.isEmpty = false := by simpa using hne
  have hcount : messageCount req.messages = req.messages.length := Nat.mod_eq_of_lt hlen
  have hpos : req.messages.length ≠ 0 := by simpa using hne
  have hgate : ¬(req.producerId = 0 ∨ req.baseSequence < 0) :=
    not_or.mpr ⟨hpid, not_lt.mpr hbase⟩
  unfold handleProduce at h
  simp only [hempty, hplain, Bool.false_eq_true, and_false, if_false, hcount] at h
  split_ifs at h with hleader
  · cases h
    exact .inl ⟨rfl, rfl, rfl⟩
  unfold checkIdempotentProduce at h
  rw [if_neg hgate, if_neg hpos] at h
  cases hprod : s.producers.lookup req.producerId with
  | none =>
    rw [hprod] at h
    cases h
    exact .inl ⟨rfl, rfl, rfl⟩
  | some prod =>
    rw [hprod] at h
    by_cases hepoch : prod.epoch = req.producerEpoch
    swap
    · simp only [ne_eq, hepoch, not_false_eq_true, if_true] at h
      cases h
      exact .inl ⟨rfl, rfl, rfl⟩
    by_cases htxn : prod.transactional = true
    · simp only [ne_eq, hepoch, not_true_eq_false, if_false, htxn, if_true] at h
      cases h
      exact .inl ⟨rfl, rfl, rfl⟩
    simp only [ne_eq, hepoch, not_true_eq_false, if_false, htxn, Bool.false_eq_true] at h
    cases hcheck : checkSequence (prod.partitions.lookup tp) req.baseSequence
      req.messages.length with
    | reject code =>
      rw [hcheck] at h
      cases h
      refine .inl ⟨?_, rfl, rfl⟩
      rw [reject_of_checkSequence hcheck]
      rfl
    | duplicate baseOffset count =>
      rw [hcheck] at h
      cases h
      obtain ⟨last, hlast, hseq, hsize⟩ := duplicate_of_checkSequence hcheck
      exact .inr ⟨prod, rfl, rfl, .inl ⟨last, hlast, hseq, hsize, rfl⟩⟩
    | accept baseOffset =>
      rw [hcheck] at h
      replace h : s.appendAndRecord env tp req = (r, s') := h
      have hdone := appendAndRecord_cases hu hne hlen
      rw [h] at hdone
      rcases hdone with hnothing | ⟨hok, nowMs, base, hlog, hproducers⟩
      · exact .inl hnothing
      · refine .inr ⟨prod, rfl, hok, .inr ⟨nowMs, base, ?_, hlog, ?_⟩⟩
        · rw [hcheck, accept_of_checkSequence hcheck]
        · rw [hproducers]
          simp [recordIdempotentProduce, hgate, hprod, hepoch, persistProducerState, durable, Producer.recorded]

end State

/-! ## Runs of one producer -/

/-- One send of a batch. -/
structure Send where
  batch : Batch
  acks : Nat
  env : RequestEnv

def Send.request (x : Send) (producerId producerEpoch : Nat) : ProduceRequest :=
  { acks := x.acks, messages := x.batch.messages, producerId, producerEpoch,
    baseSequence := x.batch.baseSequence }

/-- A run so far: what each append put on the log, and which batches were acknowledged. -/
structure Trail where
  state : State
  appends : List (Batch × List Record)
  acked : List Batch

namespace Trail

def start (s : State) : Trail := { state := s, appends := [], acked := [] }

/-- One request of the run. -/
def send (tp : TopicPartition) (producerId producerEpoch : Nat) (tr : Trail) (x : Send) : Trail :=
  let (result, s) := tr.state.handleProduce x.env tp (x.request producerId producerEpoch)
  let gained := (s.logOf tp).drop (tr.state.logOf tp).length
  { state := s
    appends := if gained.isEmpty then tr.appends else tr.appends ++ [(x.batch, gained)]
    acked := if ProduceResponse.succeeded result then tr.acked ++ [x.batch] else tr.acked }

def run (tp : TopicPartition) (producerId producerEpoch : Nat) (tr : Trail) (xs : List Send) :
    Trail :=
  xs.foldl (send tp producerId producerEpoch) tr

/-- Every request of the run is undisturbed. -/
def Calm (tp : TopicPartition) (producerId producerEpoch : Nat) : Trail → List Send → Prop
  | _, [] => True
  | tr, x :: rest => tr.state.Undisturbed tp x.env x.acks x.batch.messages ∧
      Calm tp producerId producerEpoch (tr.send tp producerId producerEpoch x) rest

instance decidableCalm (tp : TopicPartition) (producerId producerEpoch : Nat) :
    ∀ (tr : Trail) (xs : List Send), Decidable (Calm tp producerId producerEpoch tr xs)
  | _, [] => isTrue trivial
  | tr, x :: rest =>
    have := decidableCalm tp producerId producerEpoch (tr.send tp producerId producerEpoch x) rest
    inferInstanceAs (Decidable (_ ∧ _))

/-- The last recorded batch is the last one that was appended. -/
def Recorded (batches : List Batch) (appends : List (Batch × List Record)) :
    Option BatchState → Prop
  | none => appends = []
  | some last => ∃ earlier b records, appends = earlier ++ [(b, records)] ∧ b ∈ batches ∧
      last.baseSequence = b.baseSequence ∧ last.count = b.messages.length

structure Inv (log : List Record) (batches : List Batch) (tp : TopicPartition) (producerId : Nat)
    (tr : Trail) : Prop where
  log_eq : tr.state.logOf tp = log ++ tr.appends.flatMap (·.2)
  increasing : (tr.appends.map (·.1.baseSequence)).Pairwise (· < ·)
  stamped : ∀ a ∈ tr.appends, ∃ o, Storage.Stamped o a.1.messages a.2
  acked : ∀ b ∈ tr.acked, b ∈ tr.appends.map (·.1)
  plain : ∀ prod, tr.state.producers.lookup producerId = some prod → prod.transactional = false
  recorded : ∀ prod, tr.state.producers.lookup producerId = some prod →
    Recorded batches tr.appends (prod.partitions.lookup tp)

theorem inv_start {s : State} {batches : List Batch} {tp : TopicPartition} {producerId : Nat}
    (h : ∀ prod, s.producers.lookup producerId = some prod →
      prod.transactional = false ∧ prod.partitions.lookup tp = none) :
    Inv (s.logOf tp) batches tp producerId (start s) where
  log_eq := by simp [start]
  increasing := List.Pairwise.nil
  stamped := fun _ ha => absurd ha not_mem_nil
  acked := fun _ hb => absurd hb not_mem_nil
  plain := fun prod hprod => (h prod hprod).1
  recorded := fun prod hprod => by
    rw [(h prod hprod).2]
    rfl

variable {log : List Record} {next : Int} {batches : List Batch} {tp : TopicPartition}
  {producerId producerEpoch : Nat} {tr : Trail} {appends : List (Batch × List Record)}

/-- A batch whose base sequence is the recorded one has been appended. -/
theorem Recorded.mem_of_same {last : BatchState}
    (h : Recorded batches appends (some last)) (hc : Consecutive next batches) {b : Batch}
    (hb : b ∈ batches) (hseq : b.baseSequence = last.baseSequence) :
    b ∈ appends.map (·.1) := by
  obtain ⟨earlier, b', records, rfl, hb', hbase, -⟩ := h
  have hsame : b.baseSequence = b'.baseSequence := hseq.trans hbase
  have hpos : 0 < b'.messages.length := length_pos_iff.mpr (hc.bounds hb').2.1
  obtain rfl := hc.eq_of_inside hb' hb (le_of_eq hsame.symm) (by omega)
  simp

/-- All batches on the log begin before one that passes the check. -/
theorem Recorded.lt_of_accept {last : Option BatchState}
    (h : Recorded batches appends last) (hc : Consecutive next batches) (hnext : 0 ≤ next)
    (hinc : (appends.map (·.1.baseSequence)).Pairwise (· < ·)) {b : Batch} (hb : b ∈ batches)
    (hcheck : State.checkSequence last b.baseSequence b.messages.length = .accept 0) :
    ∀ seq ∈ appends.map (·.1.baseSequence), seq < b.baseSequence := by
  cases last with
  | none =>
    obtain rfl : appends = [] := h
    simp
  | some last =>
    obtain ⟨earlier, b', records, rfl, hb', hbase, hsize⟩ := h
    have hlt := State.lt_of_checkSequence hc hnext hb' hb hbase hsize hcheck
    rw [map_append, pairwise_append] at hinc
    intro seq hseq
    rcases mem_append.mp (map_append ▸ hseq) with hearlier | hlast
    · exact (hinc.2.2 seq hearlier b'.baseSequence (by simp)).trans hlt
    · obtain rfl : seq = b'.baseSequence := by simpa using hlast
      exact hlt

/-- The append of a batch that passed the check. -/
theorem Inv.accepted (hi : Inv log batches tp producerId tr) (hc : Consecutive next batches)
    (hnext : 0 ≤ next) {x : Send} (hx : x.batch ∈ batches) {prod : Producer}
    (hprod : tr.state.producers.lookup producerId = some prod)
    {r : Except Error ProduceResponse} {s' : State} (hok : ProduceResponse.succeeded r = true)
    (hcheck : State.checkSequence (prod.partitions.lookup tp) x.batch.baseSequence
      x.batch.messages.length = .accept 0) {nowMs : Int64} {baseOffset : Nat}
    (hlog : s'.logOf tp = tr.state.logOf tp ++ stamp nowMs baseOffset x.batch.messages)
    (hprods : s'.producers = tr.state.producers.insert producerId
      (prod.recorded tp ⟨x.batch.baseSequence, x.batch.messages.length, baseOffset⟩)) :
    Inv log batches tp producerId
      { state := s'
        appends := if ((s'.logOf tp).drop (tr.state.logOf tp).length).isEmpty then tr.appends
          else tr.appends ++ [(x.batch, (s'.logOf tp).drop (tr.state.logOf tp).length)]
        acked := if ProduceResponse.succeeded r then tr.acked ++ [x.batch] else tr.acked } := by
  have hgained : (s'.logOf tp).drop (tr.state.logOf tp).length =
      stamp nowMs baseOffset x.batch.messages := by
    rw [hlog, drop_left]
  have hsome : (stamp nowMs baseOffset x.batch.messages).isEmpty = false := by
    rw [isEmpty_eq_false_iff, ← length_pos_iff, Partition.stamp_length]
    exact length_pos_iff.mpr (hc.bounds hx).2.1
  have hlookup : ∀ prod', s'.producers.lookup producerId = some prod' →
      prod' = prod.recorded tp ⟨x.batch.baseSequence, x.batch.messages.length, baseOffset⟩ := by
    intro prod' hprod'
    rw [hprods, AList.lookup_insert] at hprod'
    exact (Option.some.inj hprod').symm
  simp only [hgained, hsome, hok, if_true, Bool.false_eq_true, if_false]
  refine ⟨?_, ?_, ?_, ?_, ?_, ?_⟩
  · simp [hlog, hi.log_eq]
  · rw [map_append, pairwise_append]
    refine ⟨hi.increasing, pairwise_singleton _ _, fun seq hseq seq' hseq' => ?_⟩
    obtain rfl : seq' = x.batch.baseSequence := by simpa using hseq'
    exact (hi.recorded prod hprod).lt_of_accept hc hnext hi.increasing hx hcheck seq hseq
  · intro a ha
    rcases mem_append.mp ha with hearlier | hnow
    · exact hi.stamped a hearlier
    · obtain rfl := mem_singleton.mp hnow
      exact ⟨_, Partition.stamped_stamp nowMs _ _⟩
  · intro b hb
    rw [map_append, mem_append]
    exact (mem_append.mp hb).imp (hi.acked b) id
  · intro prod' hprod'
    rw [hlookup prod' hprod']
    exact hi.plain prod hprod
  · intro prod' hprod'
    rw [hlookup prod' hprod', Producer.recorded, AList.lookup_insert]
    exact ⟨tr.appends, x.batch, _, rfl, hx, rfl, rfl⟩

theorem Inv.send (hi : Inv log batches tp producerId tr) (hc : Consecutive next batches)
    (hnext : 0 ≤ next) (hpid : producerId ≠ 0) {x : Send} (hx : x.batch ∈ batches)
    (hu : tr.state.Undisturbed tp x.env x.acks x.batch.messages) :
    Inv log batches tp producerId (tr.send tp producerId producerEpoch x) := by
  obtain ⟨hlow, hne, hhigh⟩ := hc.bounds hx
  have hplain : tr.state.isTransactionalProducer producerId = false := by
    unfold State.isTransactionalProducer
    cases hprod : tr.state.producers.lookup producerId with
    | none => rfl
    | some prod => exact hi.plain prod hprod
  unfold Trail.send
  rcases hr : tr.state.handleProduce x.env tp (x.request producerId producerEpoch) with ⟨r, s'⟩
  have hcases := @State.handleProduce_cases tr.state tp x.env (x.request producerId producerEpoch)
    hu hne (by simp only [Send.request]; omega) hpid (hnext.trans hlow) hplain r s' hr
  rcases hcases with ⟨hfail, hlog, hprods⟩ | ⟨prod, hprod, hok, hdone⟩
  · simp only [hlog, hfail, drop_length, isEmpty_nil, if_true, Bool.false_eq_true, if_false]
    exact { hi with log_eq := hlog.trans hi.log_eq, plain := hprods ▸ hi.plain,
                    recorded := hprods ▸ hi.recorded }
  · rcases hdone with ⟨last, hlast, hseq, -, rfl⟩ | ⟨nowMs, baseOffset, hcheck, hlog, hprods⟩
    · simp only [hok, drop_length, isEmpty_nil, if_true]
      have hrecorded := hi.recorded prod hprod
      rw [hlast] at hrecorded
      refine { hi with acked := fun b hb => ?_ }
      rcases mem_append.mp hb with hearlier | hnow
      · exact hi.acked b hearlier
      · obtain rfl : b = x.batch := mem_singleton.mp hnow
        exact hrecorded.mem_of_same hc hx hseq
    · exact hi.accepted hc hnext hx hprod hok hcheck hlog hprods

theorem Inv.run (hc : Consecutive next batches) (hnext : 0 ≤ next) (hpid : producerId ≠ 0)
    {xs : List Send} (hi : Inv log batches tp producerId tr) (hxs : ∀ x ∈ xs, x.batch ∈ batches)
    (hcalm : Calm tp producerId producerEpoch tr xs) :
    Inv log batches tp producerId (tr.run tp producerId producerEpoch xs) := by
  induction xs generalizing tr with
  | nil => exact hi
  | cons x rest ih =>
    have hstep : Inv log batches tp producerId (tr.send tp producerId producerEpoch x) :=
      hi.send hc hnext hpid (hxs x mem_cons_self) hcalm.1
    exact ih hstep (fun y hy => hxs y (mem_cons_of_mem x hy)) hcalm.2

/-- However often and in whichever order the batches are sent, each is appended at most once, and
once if it was acknowledged, as long as no request fails between its append and its recording. -/
theorem batch_appended_at_most_once {s : State} (hpid : producerId ≠ 0) (hnext : 0 ≤ next)
    (hc : Consecutive next batches)
    (hnew : ∀ prod, s.producers.lookup producerId = some prod →
      prod.transactional = false ∧ prod.partitions.lookup tp = none)
    (xs : List Send) (hxs : ∀ x ∈ xs, x.batch ∈ batches)
    (hcalm : Calm tp producerId producerEpoch (start s) xs) :
    let tr := (start s).run tp producerId producerEpoch xs
    tr.state.logOf tp = s.logOf tp ++ tr.appends.flatMap (·.2) ∧
      (∀ a ∈ tr.appends, ∃ o, Storage.Stamped o a.1.messages a.2) ∧
      (tr.appends.map (·.1.baseSequence)).Nodup ∧
      ∀ b, (tr.appends.map (·.1)).count b ≤ 1 ∧
        (b ∈ tr.acked → (tr.appends.map (·.1)).count b = 1) := by
  intro tr
  have hi : Inv (s.logOf tp) batches tp producerId tr := (inv_start hnew).run hc hnext hpid hxs hcalm
  have hseqs : (tr.appends.map (·.1.baseSequence)).Nodup :=
    hi.increasing.imp ne_of_lt
  have hbatches : (tr.appends.map (·.1)).Nodup := by
    refine List.Nodup.of_map (·.baseSequence) ?_
    rwa [map_map]
  refine ⟨hi.log_eq, hi.stamped, hseqs, fun b => ⟨nodup_iff_count_le_one.mp hbatches b, ?_⟩⟩
  intro hb
  exact count_eq_one_of_mem hbatches (hi.acked b hb)

/-! ## A run of each kind -/

/-- A broker with one partition and one idempotent producer. -/
def ready (isr : List Nat) : State :=
  { State.fresh ⟨60000, 60000, 60000⟩ with
    partitions := fun _ => some { Partition.openSingle [] 1 with isr }
    producers := (∅ : AList _).insert 7 ⟨0, false, "", false, 0, ∅⟩ }

def orders : TopicPartition := ⟨"orders", 0⟩

def first : Batch := ⟨0, [⟨none, [1], none, []⟩, ⟨none, [2], none, []⟩]⟩

def second : Batch := ⟨2, [⟨none, [3], none, []⟩]⟩

/-- A cluster of at least two in-sync replicas whose high watermark gets to `hwmSeen`. -/
def clusterEnv (hwmSeen : Nat) (appendFails : Option (Nat × Error)) : RequestEnv :=
  { nodeId := 1, cluster := some 2, groupCommit := false, nowMs := 0, appendFails,
    flushFails := none, hwmSeen, flushError := none }

/-- The first batch fails in the storage, is sent again twice, and the second follows. -/
def resends : List Send :=
  [⟨first, 255, clusterEnv 0 (some (0, .storage "disk full"))⟩, ⟨first, 255, clusterEnv 2 none⟩,
    ⟨first, 1, clusterEnv 2 none⟩, ⟨second, 255, clusterEnv 3 none⟩]

theorem resends_appended_once :
    (((start (ready [1, 2])).run orders 7 0 resends).appends.map (·.1)).count first = 1 := by
  have hc : Consecutive 0 [first, second] := by simp [Consecutive, first, second]
  have hnew : ∀ prod, (ready [1, 2]).producers.lookup 7 = some prod →
      prod.transactional = false ∧ prod.partitions.lookup orders = none := by
    intro prod hprod
    simp only [ready, AList.lookup_insert, Option.some.injEq] at hprod
    subst hprod
    exact ⟨rfl, rfl⟩
  have hcalm : Calm orders 7 0 (start (ready [1, 2])) resends := by decide +kernel
  have hacked : first ∈ ((start (ready [1, 2])).run orders 7 0 resends).acked := by decide +kernel
  exact ((batch_appended_at_most_once (by decide) le_rfl hc hnew resends (by decide)
    hcalm).2.2.2 first).2 hacked

/-- The first batch is appended, the wait for the high watermark ends in a timeout, and the client
sends the batch again: it is on the log twice. -/
theorem timed_out_batch_appended_twice :
    let tr := (start (ready [1, 2])).run orders 7 0
      [⟨first, 255, clusterEnv 0 none⟩, ⟨first, 255, clusterEnv 4 none⟩]
    Consecutive 0 [first, second] ∧ (tr.appends.map (·.1)).count first = 2 ∧
      (tr.state.logOf orders).map (·.value) = [[1], [2], [1], [2]] ∧ tr.acked = [first] := by
  refine ⟨?_, ?_⟩
  · simp [Consecutive, first, second]
  · decide +kernel

end Trail

end Volant.Broker
