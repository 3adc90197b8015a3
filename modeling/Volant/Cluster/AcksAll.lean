-- SUMMARY: Produce with acks=all at one leader, and how many brokers hold a batch when it is acknowledged.
import Volant.Broker.Idempotent
import Volant.Cluster.Replication

/-!
# Acknowledged by all

One leader, its followers, and the Produce requests it is working on. A request
with `acks=all` waits, after the append, until the high watermark has passed
its batch; meanwhile other requests are served, followers fetch, and the in-sync
set changes. The check of the minimum in-sync set is made before the append
only. A transactional request is answered by the transaction tables, which are
the environment here: they may accept or reject it.
-/

namespace Volant.Cluster

open List Function

open Broker (Partition ProduceRequest ProduceResponse ErrorCode TopicPartition)

/-- An `acks=all` request after its append. -/
structure Waiting where
  request : ProduceRequest
  baseOffset : Nat
  groupCommit : Bool

structure Reply where
  request : ProduceRequest
  response : ProduceResponse

structure AckSystem where
  config : ReplicaConfig
  nodeId : Nat
  tp : TopicPartition
  /-- The leader. -/
  broker : Broker.State
  /-- The logs of the followers. -/
  logs : Nat → List Record
  /-- Fetches under way: who, and from which offset. -/
  requests : List (Nat × Nat)
  responses : List (Nat × List Record)
  waiting : List Waiting

inductive AckEvent where
  | produce (req : ProduceRequest) (env : Partition.ProduceEnv) (flushError : Option Error)
      (txnAccepts : Bool)
  /-- The loop of a waiting request looks at the high watermark. -/
  | poll (j : Nat) (flushError : Option Error)
  | timeout (j : Nat)
  | request (f : Nat)
  | handle (i now taken : Nat)
  | deliver (i written : Nat)
  | observeDeath (deadId : Nat)
  /-- An assignment under which the broker goes on leading. -/
  | apply (pa : PartitionAssignment) (live : List Nat) (now : Nat)

namespace AckSystem

variable {s : AckSystem} {req : ProduceRequest} {reply : Reply} {flushError : Option Error}

def setPartition (s : AckSystem) (p : Partition) : AckSystem :=
  { s with broker := s.broker.setPartition s.tp p }

def setLog (s : AckSystem) (f : Nat) (log : List Record) : AckSystem :=
  { s with logs := update s.logs f log }

/-- The log of a broker. -/
def logOf (s : AckSystem) (id : Nat) : List Record :=
  if id = s.nodeId then s.broker.logOf s.tp else s.logs id

def produceEnv (s : AckSystem) (env : Partition.ProduceEnv) : Partition.ProduceEnv :=
  { env with nodeId := s.nodeId, cluster := some s.config.minInsyncReplicas }

/-- The last part of the handler: the sequence number is recorded and the request answered. -/
def acknowledge (s : AckSystem) (req : ProduceRequest) (baseOffset : Nat)
    (flushError : Option Error) (groupCommit : Bool) : AckSystem × Option Reply :=
  match (if decide (req.acks ≠ 0) && !groupCommit then flushError else none) with
  | some _ => (s, none)
  | none =>
    let count := req.messages.length % 2 ^ 32
    ({ s with broker := s.broker.recordIdempotentProduce req.producerId req.producerEpoch s.tp
                req.baseSequence count baseOffset },
      some ⟨req, { baseOffset, count, errorCode := .ok }⟩)

/-- The append of a request that passed the sequence check. -/
def append (s : AckSystem) (req : ProduceRequest) (env : Partition.ProduceEnv)
    (flushError : Option Error) (p : Partition) : AckSystem × Option Reply :=
  match Partition.produceInner (s.produceEnv env) req.messages req.acks p with
  | (.error _, p) => (s.setPartition p, none)
  | (.ok (records, errorCode), p) =>
    let s := s.setPartition p
    if errorCode = .notLeaderForPartition ∨ errorCode = .notEnoughReplicas then
      (s, some ⟨req, { baseOffset := 0, count := 0, errorCode }⟩)
    else
      let baseOffset := (records.head?.map (·.offset)).getD 0
      if req.acks = 255 ∧ 0 < records.length % 2 ^ 32 then
        ({ s with waiting := s.waiting ++ [⟨req, baseOffset, env.groupCommit⟩] }, none)
      else s.acknowledge req baseOffset flushError env.groupCommit

/-- A transactional produce is appended like one with `acks=1` and answered at once. -/
def appendTxn (s : AckSystem) (req : ProduceRequest) (env : Partition.ProduceEnv) (p : Partition) :
    AckSystem × Option Reply :=
  match Partition.produceInner (s.produceEnv env) req.messages 1 p with
  | (.error _, p) => (s.setPartition p, some ⟨req, { baseOffset := 0, count := 0, errorCode := .unknown }⟩)
  | (.ok (records, errorCode), p) =>
    let s := s.setPartition p
    if errorCode ≠ .ok then (s, some ⟨req, { baseOffset := 0, count := 0, errorCode }⟩)
    else
      let baseOffset := (records.head?.map (·.offset)).getD 0
      (s, some ⟨req, { baseOffset, count := req.messages.length % 2 ^ 32, errorCode := .ok }⟩)

/-- A Produce request, up to where it waits. -/
def produce (s : AckSystem) (req : ProduceRequest) (env : Partition.ProduceEnv)
    (flushError : Option Error) (txnAccepts : Bool) : AckSystem × Option Reply :=
  match s.broker.partitions s.tp with
  | none => (s, none)
  | some p =>
    if req.messages.isEmpty then (s, none)
    else if !p.isLeader s.nodeId then
      (s, some ⟨req, { baseOffset := 0, count := 0, errorCode := .notLeaderForPartition }⟩)
    else if req.producerId ≠ 0 ∧ 0 ≤ req.baseSequence ∧
        s.broker.isTransactionalProducer req.producerId = true then
      if txnAccepts then s.appendTxn req env p
      else (s, some ⟨req, { baseOffset := 0, count := 0, errorCode := .invalidTxnState }⟩)
    else
      match s.broker.checkIdempotentProduce req.producerId req.producerEpoch s.tp req.baseSequence
          (Broker.State.messageCount req.messages) with
      | .accept _ => s.append req env flushError p
      | check => (s, some ⟨req, Broker.State.checkResponse check 0⟩)

def step (s : AckSystem) : AckEvent → AckSystem × Option Reply
  | .produce req env flushError txnAccepts => s.produce req env flushError txnAccepts
  | .poll j flushError =>
    match s.waiting[j]?, s.broker.partitions s.tp with
    | some w, some p =>
      if p.committedHwm < w.baseOffset + w.request.messages.length % 2 ^ 32 then (s, none)
      else { s with waiting := s.waiting.eraseIdx j }.acknowledge w.request w.baseOffset flushError
        w.groupCommit
    | _, _ => (s, none)
  | .timeout j =>
    match s.waiting[j]? with
    | some w =>
      ({ s with waiting := s.waiting.eraseIdx j },
        some ⟨w.request, { baseOffset := w.baseOffset, count := w.request.messages.length % 2 ^ 32,
                           errorCode := .timeout }⟩)
    | none => (s, none)
  | .request f =>
    if f = s.nodeId then (s, none)
    else ({ s with requests := s.requests ++ [(f, (s.logs f).length)] }, none)
  | .handle i now taken =>
    match s.requests[i]?, s.broker.partitions s.tp with
    | some (f, fromOffset), some p =>
      match Replica.handleReplicaFetch s.config s.nodeId now f fromOffset taken p with
      | ((_, _, _, records), p) =>
        ({ s.setPartition p with responses := s.responses ++ [(f, records)] }, none)
    | _, _ => (s, none)
  | .deliver i written =>
    match s.responses[i]? with
    | some (f, records) =>
      (s.setLog f (Replica.appendRecordsWithOffsets (s.logs f) (records.take written)), none)
    | none => (s, none)
  | .observeDeath deadId =>
    match s.broker.partitions s.tp with
    | some p =>
      if deadId = s.nodeId then (s, none)
      else (s.setPartition (Replica.shrinkLocalIsrForDead s.nodeId deadId p), none)
    | none => (s, none)
  | .apply pa live now =>
    match s.broker.partitions s.tp with
    | some p =>
      match Replica.applyLocalAssignment s.config s.nodeId live now pa (.opened p) with
      | .opened p => (s.setPartition p, none)
      | .closed _ => (s, none)
    | none => (s, none)

/-! ## Runs -/

/-- The log has the messages of a batch from offset `base` on. -/
def Holds (log : List Record) (base : Nat) (messages : List Message) : Prop :=
  Storage.Stamped base messages ((log.drop base).take messages.length)

/-- Enough brokers hold the batch of a reply. -/
def Replicated (s : AckSystem) (reply : Reply) : Prop :=
  ∃ ids : List Nat, ids.Nodup ∧ s.config.minInsyncReplicas ≤ ids.length ∧
    ∀ id ∈ ids, Holds (s.logOf id) reply.response.baseOffset reply.request.messages

/-- A request with `acks=all` was answered with success. -/
def Acknowledges (reply : Reply) : Prop :=
  reply.request.acks = 255 ∧ reply.response.errorCode = .ok

/-- The condition on the steps: `acks=all` requests are neither transactional nor duplicates, the
in-sync set is large enough when the wait ends, and an assignment brings nobody into it who lacks
exposed records. -/
def Sufficient (s : AckSystem) : AckEvent → Prop
  | .produce req _ _ _ => req.messages.length < 2 ^ 32 ∧ (req.acks = 255 →
      s.broker.isTransactionalProducer req.producerId = false ∧
        ∀ baseOffset count, s.broker.checkIdempotentProduce req.producerId req.producerEpoch s.tp
          req.baseSequence (Broker.State.messageCount req.messages) ≠ .duplicate baseOffset count)
  | .poll j _ => ∀ p ∈ s.broker.partitions s.tp, ∀ w ∈ s.waiting[j]?,
      w.baseOffset + w.request.messages.length % 2 ^ 32 ≤ p.committedHwm →
        s.config.minInsyncReplicas ≤ p.isr.length
  | .apply pa _ _ => pa.WellFormed ∧ pa.leader = s.nodeId ∧
      ∀ p ∈ s.broker.partitions s.tp, ∀ id ∈ pa.isr, p.committedHwm ≤ (s.logOf id).length
  | _ => True

/-- One leader with empty replicas and any producers. -/
def start (config : ReplicaConfig) (nodeId : Nat) (tp : TopicPartition) (isr : List Nat)
    (broker : Broker.State) : AckSystem :=
  { config, nodeId, tp
    broker := broker.setPartition tp { Partition.openSingle [] nodeId with replicas := isr, isr }
    logs := fun _ => [], requests := [], responses := [], waiting := [] }

/-- The states of the runs whose steps satisfy the condition. -/
inductive Reachable (s₀ : AckSystem) : AckSystem → Prop
  | refl : Reachable s₀ s₀
  | step {s : AckSystem} (e : AckEvent) :
      Reachable s₀ s → Sufficient s e → Reachable s₀ (s.step e).1

/-! ## The invariant -/

/-- How far the log of a broker reaches. -/
def Reaches (s : AckSystem) (id k : Nat) : Prop := k ≤ (s.logOf id).length

/-- The handle of the leader. -/
structure LeaderOk (s : AckSystem) (p : Partition) : Prop where
  leader : p.leader = s.nodeId
  gapFree : Storage.GapFree 0 p.log
  nodup : p.isr.Nodup
  inOrder : InOrder s.nodeId s.Reaches p

structure Inv (s : AckSystem) : Prop where
  part : ∃ p, s.broker.partitions s.tp = some p ∧ s.LeaderOk p
  followers : ∀ f, s.logs f <+: s.broker.logOf s.tp
  requests : ∀ r ∈ s.requests, r.2 ≤ (s.logs r.1).length ∧ r.1 ≠ s.nodeId
  responses : ∀ r ∈ s.responses, ∀ x ∈ r.2, (s.broker.logOf s.tp)[x.offset]? = some x
  waiting : ∀ w ∈ s.waiting, w.request.messages.length < 2 ^ 32 ∧
    w.baseOffset + w.request.messages.length ≤ (s.broker.logOf s.tp).length ∧
      Holds (s.broker.logOf s.tp) w.baseOffset w.request.messages

/-- The followers' logs are prefixes of the leader's, so how far they reach is how far they agree. -/
theorem agreement_reaches (hfollow : ∀ f, s.logs f <+: s.broker.logOf s.tp) :
    Agreement s.nodeId (s.broker.logOf s.tp).length s.Reaches where
  self h := by simpa [Reaches, logOf] using h
  zero id := Nat.zero_le _
  le {id k} h := by
    unfold Reaches logOf at h
    split_ifs at h
    · exact h
    · exact h.trans (hfollow id).length_le
  mono hjk h := hjk.trans h

variable {messages : List Message}

theorem holds_iff_of_begins {log log' : List Record} {base : Nat}
    (hlen : base + messages.length ≤ log.length) (hpre : log <+: log') :
    Holds log' base messages ↔ Holds log base messages := by
  obtain ⟨rest, rfl⟩ := hpre
  rw [Holds, Holds, drop_append_of_le_length (by omega),
    take_append_of_le_length (by rw [length_drop]; omega)]

section Steps

variable {s : AckSystem} {p p' : Partition}

theorem logOf_of_part (hp : s.broker.partitions s.tp = some p) : s.broker.logOf s.tp = p.log := by
  simp [Broker.State.logOf, hp]

theorem setPartition_part (s : AckSystem) (p : Partition) :
    (s.setPartition p).broker.partitions s.tp = some p := by
  simp [setPartition, Broker.State.setPartition]

theorem logOf_setPartition (s : AckSystem) (p : Partition) :
    (s.setPartition p).broker.logOf (s.setPartition p).tp = p.log :=
  logOf_of_part (setPartition_part s p)

theorem Inv.leaderOk (h : Inv s) (hp : s.broker.partitions s.tp = some p) : s.LeaderOk p := by
  obtain ⟨q, hq, hok⟩ := h.part
  rwa [Option.some.inj (hq.symm.trans hp)] at hok

/-- Messages and waiting requests may come and go. -/
theorem Inv.travel (h : Inv s) {requests : List (Nat × Nat)} {responses : List (Nat × List Record)}
    {waiting : List Waiting} (hreq : ∀ r ∈ requests, r.2 ≤ (s.logs r.1).length ∧ r.1 ≠ s.nodeId)
    (hresp : ∀ r ∈ responses, ∀ x ∈ r.2, (s.broker.logOf s.tp)[x.offset]? = some x)
    (hwait : ∀ w ∈ waiting, w.request.messages.length < 2 ^ 32 ∧
      w.baseOffset + w.request.messages.length ≤ (s.broker.logOf s.tp).length ∧
        Holds (s.broker.logOf s.tp) w.baseOffset w.request.messages) :
    Inv { s with requests, responses, waiting } := by
  obtain ⟨p, hp, hok⟩ := h.part
  exact ⟨⟨p, hp, hok.leader, hok.gapFree, hok.nodup, hok.inOrder⟩, h.followers, hreq, hresp, hwait⟩

theorem Inv.giveUp (h : Inv s) (j : Nat) : Inv { s with waiting := s.waiting.eraseIdx j } :=
  h.travel h.requests h.responses fun w hw => h.waiting w (mem_of_mem_eraseIdx hw)

/-- The producers' state may change. -/
theorem Inv.setBroker (h : Inv s) {broker : Broker.State}
    (hpart : broker.partitions = s.broker.partitions) : Inv { s with broker } := by
  have hlog : broker.logOf = s.broker.logOf := by
    funext tp
    simp [Broker.State.logOf, hpart]
  have hreaches : AckSystem.Reaches { s with broker } = s.Reaches := by
    funext id k
    simp [Reaches, logOf, hlog]
  obtain ⟨p, hp, hok⟩ := h.part
  exact ⟨⟨p, (congrFun hpart _).trans hp, hok.leader, hok.gapFree, hok.nodup,
    hreaches ▸ hok.inOrder⟩, hlog ▸ h.followers, h.requests, hlog ▸ h.responses, hlog ▸ h.waiting⟩

theorem reaches_setPartition (hp : s.broker.partitions s.tp = some p) (hgrow : p.log <+: p'.log)
    {id k : Nat} (h : s.Reaches id k) : (s.setPartition p').Reaches id k := by
  unfold Reaches logOf at h ⊢
  rw [logOf_of_part hp] at h
  rw [logOf_setPartition]
  change k ≤ (if id = s.nodeId then p'.log else s.logs id).length
  split_ifs at h ⊢
  · exact h.trans hgrow.length_le
  · exact h

/-- A new handle of the leader with a longer log. -/
theorem Inv.lead (h : Inv s) (hp : s.broker.partitions s.tp = some p)
    (hleader : p'.leader = p.leader) (hgrow : p.log <+: p'.log)
    (hgap : Storage.GapFree 0 p.log → Storage.GapFree 0 p'.log)
    (hnodup : p.isr.Nodup → p'.isr.Nodup) (horder : InOrder s.nodeId (s.setPartition p').Reaches p →
      Agreement s.nodeId p'.log.length (s.setPartition p').Reaches →
      InOrder s.nodeId (s.setPartition p').Reaches p') : Inv (s.setPartition p') := by
  have hok := h.leaderOk hp
  have hold : s.broker.logOf s.tp = p.log := logOf_of_part hp
  have hnew := logOf_setPartition s p'
  have hfollow : ∀ f, (s.setPartition p').logs f <+:
      (s.setPartition p').broker.logOf (s.setPartition p').tp := by
    intro f
    rw [hnew]
    exact (hold ▸ h.followers f).trans hgrow
  refine ⟨⟨p', setPartition_part s p', ?_⟩, hfollow, h.requests, fun r hr x hx => ?_, fun w hw => ?_⟩
  · refine ⟨hleader.trans hok.leader, hgap hok.gapFree, hnodup hok.nodup, ?_⟩
    exact horder (hok.inOrder.weaken fun id k => reaches_setPartition hp hgrow)
      (hnew ▸ agreement_reaches hfollow)
  · rw [hnew]
    have hx := h.responses r hr x hx
    rw [hold] at hx
    obtain ⟨rest, hrest⟩ := hgrow
    rw [← hrest, getElem?_append_left (List.getElem?_eq_some_iff.mp hx).1]
    exact hx
  · obtain ⟨hsize, hlen, hholds⟩ := h.waiting w hw
    rw [hold] at hlen hholds
    rw [hnew]
    exact ⟨hsize, hlen.trans hgrow.length_le, (holds_iff_of_begins hlen hgrow).mpr hholds⟩

variable {records : List Record}

theorem Inv.deliver (h : Inv s) {f : Nat} {written : Nat}
    (hrecords : ∀ x ∈ records, (s.broker.logOf s.tp)[x.offset]? = some x) :
    Inv (s.setLog f (Replica.appendRecordsWithOffsets (s.logs f) (records.take written))) := by
  have hpre := prefix_appendRecords (h.followers f) fun x hx =>
    hrecords x (take_subset written records hx)
  have hgrow := prefix_appendRecordsWithOffsets (s.logs f) (records.take written)
  have hlogs : ∀ g, s.logs g <+: update s.logs f
      (Replica.appendRecordsWithOffsets (s.logs f) (records.take written)) g := by
    intro g
    by_cases hg : g = f
    · rw [hg, update_self]
      exact hgrow
    · rw [update_of_ne hg]
  obtain ⟨p, hp, hok⟩ := h.part
  refine ⟨⟨p, hp, hok.leader, hok.gapFree, hok.nodup, hok.inOrder.weaken fun id k hk => ?_⟩,
    fun g => ?_, fun r hr => ?_, h.responses, h.waiting⟩
  · unfold Reaches logOf at hk ⊢
    change k ≤ (if id = s.nodeId then s.broker.logOf s.tp else update s.logs f _ id).length
    split_ifs at hk ⊢
    · exact hk
    · exact hk.trans (hlogs id).length_le
  · change update s.logs f _ g <+: _
    by_cases hg : g = f
    · rw [hg, update_self]
      exact hpre
    · rw [update_of_ne hg]
      exact h.followers g
  · obtain ⟨hle, hne⟩ := h.requests r hr
    exact ⟨hle.trans (hlogs r.1).length_le, hne⟩

theorem Inv.produced (h : Inv s) (hp : s.broker.partitions s.tp = some p)
    (env : Partition.ProduceEnv) (messages : List Message) (acks : Nat) :
    Inv (s.setPartition (Partition.produceInner (s.produceEnv env) messages acks p).2) := by
  obtain ⟨hleader, hisr, hgrow, -, horder⟩ := produceInner_spec
    (show (s.produceEnv env).nodeId = s.nodeId from rfl)
    (show (s.produceEnv env).cluster ≠ none from Option.some_ne_none _) messages acks p
  exact h.lead hp hleader hgrow
    (fun hgap => produceInner_gapFree (h.leaderOk hp).inOrder.whole hgap _ messages acks)
    (fun hnodup => hisr ▸ hnodup) (horder _)

theorem partitions_recordIdempotentProduce (s : Broker.State) (pid epoch : Nat) (tp : TopicPartition)
    (baseSequence : Int) (count baseOffset : Nat) :
    (s.recordIdempotentProduce pid epoch tp baseSequence count baseOffset).partitions =
      s.partitions := by
  unfold Broker.State.recordIdempotentProduce
  split_ifs
  · rfl
  · split
    · rfl
    · split_ifs <;> rfl

theorem Inv.acknowledge (h : Inv s) (req : ProduceRequest) (baseOffset : Nat)
    (flushError : Option Error) (groupCommit : Bool) :
    Inv (s.acknowledge req baseOffset flushError groupCommit).1 := by
  unfold AckSystem.acknowledge
  split
  · exact h
  · exact h.setBroker (partitions_recordIdempotentProduce ..)

/-- The batch that was just appended is at the end of the log. -/
theorem holds_append_stamp (log : List Record) (nowMs : Int64) (messages : List Message) :
    Holds (log ++ Partition.stamp nowMs log.length messages) log.length messages := by
  unfold Holds
  rw [drop_left, take_of_length_le (by simp)]
  exact Partition.stamped_stamp nowMs _ messages

/-- A batch that is not refused and does not fail is at the end of the log. -/
theorem produceInner_ok {env : Partition.ProduceEnv} {messages : List Message} {acks : Nat} {code : ErrorCode} (hne : messages ≠ [])
    (h : Partition.produceInner env messages acks p = (.ok (records, code), p'))
    (hcode : ¬ (code = .notLeaderForPartition ∨ code = .notEnoughReplicas)) :
    records = Partition.stamp env.nowMs p.leo messages ∧ p'.log = p.log ++ records := by
  rcases Partition.produceInner_inv hne h with
    ⟨-, _, hrefused, hcode'⟩ | ⟨-, ⟨_, _, -, hfailed, -⟩ | ⟨-, rfl, ⟨_, -, -, hfailed⟩ | hok⟩⟩
  · cases hrefused
    exact absurd hcode' hcode
  · cases hfailed
  · cases hfailed
  · cases hok
    exact ⟨rfl, Partition.advanceHwm_log ..⟩

variable {req : ProduceRequest}

theorem Inv.append (h : Inv s) (hp : s.broker.partitions s.tp = some p)
    (hne : req.messages ≠ []) (hsize : req.messages.length < 2 ^ 32) (env : Partition.ProduceEnv)
    (flushError : Option Error) : Inv (s.append req env flushError p).1 := by
  have hproduced := h.produced hp env req.messages req.acks
  unfold AckSystem.append
  rcases hr : Partition.produceInner (s.produceEnv env) req.messages req.acks p with ⟨r, p'⟩
  rw [hr] at hproduced
  cases r with
  | error e => exact hproduced
  | ok answer =>
    obtain ⟨records, code⟩ := answer
    simp only
    split_ifs with hcode hwaits
    · exact hproduced
    · -- the request waits: its batch is the end of the log
      obtain ⟨rfl, hlog⟩ := produceInner_ok hne hr hcode
      rw [← logOf_setPartition s p'] at hlog
      have hbase : ((Partition.stamp (s.produceEnv env).nowMs p.leo req.messages).head?.map
          (·.offset)).getD 0 = p.leo := Broker.State.head_offset_stamp _ _ hne
      refine hproduced.travel hproduced.requests hproduced.responses
        (forall_mem_append.mpr ⟨hproduced.waiting, forall_mem_singleton.mpr ⟨hsize, ?_⟩⟩)
      rw [hlog, hbase, (h.leaderOk hp).inOrder.whole.leo]
      exact ⟨by simp, holds_append_stamp p.log env.nowMs req.messages⟩
    · exact .acknowledge hproduced ..

theorem Inv.appendTxn (h : Inv s) (hp : s.broker.partitions s.tp = some p) (req : ProduceRequest)
    (env : Partition.ProduceEnv) : Inv (s.appendTxn req env p).1 := by
  have hproduced := h.produced hp env req.messages 1
  unfold AckSystem.appendTxn
  rcases hr : Partition.produceInner (s.produceEnv env) req.messages 1 p with ⟨r, p'⟩
  rw [hr] at hproduced
  cases r with
  | error e => exact hproduced
  | ok answer =>
    simp only
    split_ifs
    · exact hproduced
    · exact hproduced

theorem Inv.produce (h : Inv s) (hsize : req.messages.length < 2 ^ 32)
    (env : Partition.ProduceEnv) (flushError : Option Error) (txnAccepts : Bool) :
    Inv (s.produce req env flushError txnAccepts).1 := by
  obtain ⟨p, hp, -⟩ := h.part
  unfold AckSystem.produce
  rw [hp]
  simp only
  split_ifs with hempty
  · exact h
  · exact h
  · exact h.appendTxn hp req env
  · exact h
  · split
    · exact h.append hp (by simpa using hempty) hsize env flushError
    · exact h

theorem Inv.handle (h : Inv s) (hp : s.broker.partitions s.tp = some p) {f fromOffset : Nat}
    (hreq : (f, fromOffset) ∈ s.requests) (now taken : Nat) :
    Inv { s.setPartition (Replica.observeFollower s.config now f fromOffset p) with
      responses := s.responses ++ [(f, (p.log.drop fromOffset).take taken)] } := by
  have hok := h.leaderOk hp
  obtain ⟨hfrom, hne⟩ := h.requests _ hreq
  have hlog := @observeFollower_log s.config now f fromOffset p
  obtain ⟨isr, caughtUpAt, heq, -, hnodup, -⟩ :=
    @observeFollower_eq s.config now f fromOffset p
  have hled : Inv (s.setPartition (Replica.observeFollower s.config now f fromOffset p)) := by
    refine h.lead hp (observeFollower_leader p) (hlog ▸ prefix_refl _)
      (fun hgap => hlog ▸ hgap) (fun hisr => ?_) fun horder ha => ?_
    · rw [heq, Partition.recomputeHwm_isr]
      exact hnodup hisr
    · rw [hlog, ← horder.whole.leo] at ha
      refine .observeFollower ha hok.leader ?_ horder
      exact hfrom.trans_eq (congrArg length (if_neg hne).symm)
  refine hled.travel hled.requests
    (forall_mem_append.mpr ⟨hled.responses, forall_mem_singleton.mpr fun x hx => ?_⟩) hled.waiting
  have hmem : x ∈ p.log := mem_of_mem_drop (mem_of_mem_take hx)
  obtain ⟨i, hi⟩ := mem_iff_getElem?.mp hmem
  rw [logOf_setPartition, hlog, hok.gapFree.offset_eq hi, Nat.zero_add]
  exact hi

theorem Inv.observeDeath (h : Inv s) (hp : s.broker.partitions s.tp = some p) {deadId : Nat}
    (hne : deadId ≠ s.nodeId) :
    Inv (s.setPartition (Replica.shrinkLocalIsrForDead s.nodeId deadId p)) := by
  obtain ⟨hlog, hleader, hisr⟩ := @shrinkLocalIsrForDead_cases s.nodeId deadId p
  refine h.lead hp hleader (hlog ▸ prefix_refl _) (fun hgap => hlog ▸ hgap)
    (fun hnodup => hisr ▸ hnodup.filter _) fun horder ha => ?_
  rw [hlog, ← horder.whole.leo] at ha
  exact .shrinkLocalIsrForDead hne ha horder

theorem Inv.apply (h : Inv s) (hp : s.broker.partitions s.tp = some p) {pa : PartitionAssignment}
    (hwf : pa.WellFormed) (hlead : pa.leader = s.nodeId)
    (hheld : ∀ id ∈ pa.isr, p.committedHwm ≤ (s.logOf id).length) {live : List Nat} {now : Nat}
    (hp' : Replica.applyLocalAssignment s.config s.nodeId live now pa (.opened p) = .opened p') :
    Inv (s.setPartition p') := by
  rcases @applyLocalAssignment_cases s.nodeId (s.setPartition p').Reaches s.config live now
    pa (.opened p) with hclosed | ⟨q', heq, hlog, hleader, -, -, horderly⟩
  · rw [hp'] at hclosed
    cases hclosed
  · obtain rfl : p' = q' := by
      rw [hp'] at heq
      exact Node.opened.inj heq
    refine h.lead hp (hleader.trans (hlead.trans (h.leaderOk hp).leader.symm)) (hlog ▸ prefix_refl _)
      (fun hgap => hlog ▸ hgap)
      (fun _ => nodup_applyLocalAssignment hwf.isr_nodup hp') fun horder ha => ?_
    rw [hlog] at ha
    refine horderly (fun r hr => ?_) ha fun _ => ⟨hlead ▸ hwf.leader_mem, fun id hid => ?_⟩
    · cases hr
      exact horder
    · exact reaches_setPartition hp (hlog ▸ prefix_refl _) (hheld id hid)

end Steps

theorem inv_start (config : ReplicaConfig) {nodeId : Nat} (tp : TopicPartition) {isr : List Nat}
    (hmem : nodeId ∈ isr) (hnodup : isr.Nodup) (broker : Broker.State) :
    Inv (start config nodeId tp isr broker) := by
  have hpart : (start config nodeId tp isr broker).broker.partitions tp =
      some { Partition.openSingle [] nodeId with replicas := isr, isr } := by
    simp [start, Broker.State.setPartition]
  refine ⟨⟨_, hpart, ⟨rfl, trivial, hnodup, ?_⟩⟩, fun f => nil_prefix, forall_mem_nil _,
    forall_mem_nil _, forall_mem_nil _⟩
  exact ⟨rfl, le_rfl, fun _ _ h => (by cases h), fun _ => hmem, fun _ id _ => Nat.zero_le _⟩

theorem Inv.step {e : AckEvent} (h : Inv s) (hok : Sufficient s e) : Inv (s.step e).1 := by
  obtain ⟨p, hp, hleader⟩ := h.part
  cases e with
  | produce req env flushError txnAccepts => exact h.produce hok.1 env flushError txnAccepts
  | poll j flushError =>
    simp only [AckSystem.step, hp]
    cases hw : s.waiting[j]? with
    | none => exact h
    | some w =>
      simp only
      split_ifs
      · exact h
      · exact (h.giveUp j).acknowledge ..
  | timeout j =>
    simp only [AckSystem.step]
    cases hw : s.waiting[j]? with
    | none => exact h
    | some w => exact h.giveUp j
  | request f =>
    simp only [AckSystem.step]
    split_ifs with hf
    · exact h
    · exact h.travel (forall_mem_append.mpr
        ⟨h.requests, forall_mem_singleton.mpr ⟨le_rfl, hf⟩⟩) h.responses h.waiting
  | handle i now taken =>
    simp only [AckSystem.step, hp]
    cases hr : s.requests[i]? with
    | none => exact h
    | some r =>
      have hself : p.isLeader s.nodeId = true := by simp [Partition.isLeader, hleader.leader]
      simp only [Replica.handleReplicaFetch, hself, Bool.not_true, Bool.false_eq_true, if_false,
        observeFollower_log]
      exact h.handle hp (mem_of_getElem? hr) now taken
  | deliver i written =>
    simp only [AckSystem.step]
    cases hr : s.responses[i]? with
    | none => exact h
    | some r => exact h.deliver fun x hx => h.responses r (mem_of_getElem? hr) x hx
  | observeDeath deadId =>
    simp only [AckSystem.step, hp]
    split_ifs with hself
    · exact h
    · exact h.observeDeath hp hself
  | apply pa live now =>
    obtain ⟨hwf, hlead, hheld⟩ := hok
    simp only [AckSystem.step, hp]
    cases hnode : Replica.applyLocalAssignment s.config s.nodeId live now pa (.opened p) with
    | closed log => exact h
    | opened p' => exact h.apply hp hwf hlead (hheld p hp) hnode

theorem Inv.reachable {s₀ : AckSystem} (h : Inv s₀) (hreach : Reachable s₀ s) : Inv s := by
  induction hreach with
  | refl => exact h
  | step e _ hok ih => exact ih.step hok

/-! ## Replies -/

theorem checkIdempotentProduce_reject_ne_ok {s : Broker.State} {pid epoch count : Nat}
    {tp : TopicPartition} {baseSequence : Int} {code : ErrorCode}
    (h : s.checkIdempotentProduce pid epoch tp baseSequence count = .reject code) : code ≠ .ok := by
  unfold Broker.State.checkIdempotentProduce Broker.State.checkSequence at h
  rintro rfl
  grind

/-- An `acks=all` batch that is appended is never answered with success before it has waited. -/
theorem append_not_acknowledged (hne : req.messages ≠ []) (hsize : req.messages.length < 2 ^ 32)
    (hacks : req.acks = 255) (env : Partition.ProduceEnv) (flushError : Option Error)
    (p : Partition) (h : (s.append req env flushError p).2 = some reply) :
    reply.response.errorCode ≠ .ok := by
  unfold append at h
  rcases hr : Partition.produceInner (s.produceEnv env) req.messages req.acks p with ⟨r, p'⟩
  rw [hr] at h
  cases r with
  | error e => cases h
  | ok answer =>
    obtain ⟨records, code⟩ := answer
    simp only at h
    split_ifs at h with hcode hwaits
    · cases h
      rcases hcode with rfl | rfl <;> exact nofun
    · -- only a refused batch has no records
      refine absurd ⟨hacks, ?_⟩ hwaits
      obtain ⟨rfl, -⟩ := produceInner_ok hne hr hcode
      rw [Partition.stamp_length, Nat.mod_eq_of_lt hsize]
      exact length_pos_of_ne_nil hne

variable {env : Partition.ProduceEnv}

theorem produce_request {txnAccepts : Bool}
    (h : (s.produce req env flushError txnAccepts).2 = some reply) : reply.request = req := by
  unfold produce append appendTxn acknowledge at h
  grind

theorem produce_not_acknowledged {txnAccepts : Bool}
    (hok : Sufficient s (.produce req env flushError txnAccepts)) (hacks : req.acks = 255)
    (h : (s.produce req env flushError txnAccepts).2 = some reply) :
    reply.response.errorCode ≠ .ok := by
  obtain ⟨hsize, hplain⟩ := hok
  obtain ⟨htxn, hdup⟩ := hplain hacks
  unfold produce at h
  split at h
  next => cases h
  next p hp =>
    simp only [htxn, Bool.false_eq_true, and_false, if_false] at h
    split_ifs at h with hempty hleader
    · cases h
      exact nofun
    cases hcheck : s.broker.checkIdempotentProduce req.producerId req.producerEpoch s.tp
      req.baseSequence (Broker.State.messageCount req.messages) with
    | accept base =>
      rw [hcheck] at h
      exact append_not_acknowledged (by simpa using hempty) hsize hacks env flushError p h
    | reject code =>
      rw [hcheck] at h
      cases h
      exact checkIdempotentProduce_reject_ne_ok hcheck
    | duplicate base count => exact absurd hcheck (hdup base count)

/-- What the loop of a waiting request has seen when it ends with success. -/
theorem poll_acknowledged {p : Partition} (hp : s.broker.partitions s.tp = some p) {j : Nat}
    (h : (s.step (.poll j flushError)).2 = some reply) : ∃ w, s.waiting[j]? = some w ∧
      reply.request = w.request ∧ reply.response.baseOffset = w.baseOffset ∧
        w.baseOffset + w.request.messages.length % 2 ^ 32 ≤ p.committedHwm ∧
          (s.step (.poll j flushError)).1.config = s.config ∧
            ∀ id, (s.step (.poll j flushError)).1.logOf id = s.logOf id := by
  simp only [step, hp] at h ⊢
  cases hw : s.waiting[j]? with
  | none =>
    rw [hw] at h
    cases h
  | some w =>
    simp only [hw] at h ⊢
    split_ifs at h ⊢ with hreached
    unfold acknowledge at h ⊢
    split at h
    · cases h
    · cases h
      refine ⟨w, rfl, rfl, rfl, not_lt.mp hreached, rfl, fun id => ?_⟩
      simp [logOf, Broker.State.logOf, partitions_recordIdempotentProduce]

/-- The other events answer nothing, or with a timeout. -/
theorem step_reply {e : AckEvent} (h : (s.step e).2 = some reply) :
    (∃ req env flushError txnAccepts, e = .produce req env flushError txnAccepts) ∨
      (∃ j flushError, e = .poll j flushError) ∨ reply.response.errorCode = .timeout := by
  cases e with
  | produce req env flushError txnAccepts => exact .inl ⟨req, env, flushError, txnAccepts, rfl⟩
  | poll j flushError => exact .inr (.inl ⟨j, flushError, rfl⟩)
  | timeout j =>
    simp only [step] at h
    split at h <;> cases h
    exact .inr (.inr rfl)
  | request f =>
    simp only [step] at h
    split_ifs at h
  | handle i now taken =>
    simp only [step] at h
    split at h <;> cases h
  | deliver i written =>
    simp only [step] at h
    split at h <;> cases h
  | observeDeath deadId =>
    simp only [step] at h
    split at h
    · split_ifs at h
    · cases h
  | apply pa live now =>
    simp only [step] at h
    split at h
    · split at h <;> cases h
    · cases h

/-- A log that reaches past a waiting batch has it. -/
theorem Inv.holds_of_reaches (h : Inv s) {base id : Nat}
    (hholds : Holds (s.broker.logOf s.tp) base messages)
    (hreaches : s.Reaches id (base + messages.length)) : Holds (s.logOf id) base messages := by
  have hpre : s.logOf id <+: s.broker.logOf s.tp := by
    unfold logOf
    split_ifs
    · exact prefix_refl _
    · exact h.followers id
  exact (holds_iff_of_begins hreaches hpre).mp hholds

/-- In every run in which `acks=all` requests are plain and new, and the in-sync set has its minimum
size whenever a wait ends, the batch of each success reply is in the logs of enough brokers. -/
theorem acknowledged_batch_is_replicated (config : ReplicaConfig) {nodeId : Nat}
    (tp : TopicPartition) {isr : List Nat} (hmem : nodeId ∈ isr) (hnodup : isr.Nodup)
    (broker : Broker.State) {s : AckSystem}
    (hreach : Reachable (start config nodeId tp isr broker) s) {e : AckEvent}
    (hok : Sufficient s e) {reply : Reply} (hreply : (s.step e).2 = some reply)
    (hack : Acknowledges reply) : (s.step e).1.Replicated reply := by
  have hinv := (inv_start config tp hmem hnodup broker).reachable hreach
  obtain ⟨p, hp, hleader⟩ := hinv.part
  obtain ⟨hacks, hcode⟩ := hack
  rcases step_reply hreply with ⟨req, env, flushError, txnAccepts, rfl⟩ | ⟨j, flushError, rfl⟩ | htimeout
  · have hreq : reply.request = req := produce_request hreply
    exact absurd hcode (produce_not_acknowledged hok (hreq ▸ hacks) hreply)
  · obtain ⟨w, hw, hreq, hbase, hreached, hconfig, hlogs⟩ := poll_acknowledged hp hreply
    obtain ⟨hsize, -, hholds⟩ := hinv.waiting w (mem_of_getElem? hw)
    refine ⟨p.isr, hleader.nodup, hconfig ▸ hok p hp w hw hreached, fun id hid => ?_⟩
    rw [Nat.mod_eq_of_lt hsize] at hreached
    rw [hlogs, hreq, hbase]
    exact hinv.holds_of_reaches hholds
      (hreached.trans (hleader.inOrder.inSync hleader.leader id hid))
  · rw [htimeout] at hcode
    cases hcode

/-! ## Runs of two brokers -/

def follow (s : AckSystem) (es : List AckEvent) : AckSystem :=
  es.foldl (fun s e => (s.step e).1) s

/-- Broker 1 leads, broker 2 follows, and two brokers have to be in sync. -/
def pair : AckSystem :=
  start ⟨10, 0, 2⟩ 1 ⟨"orders", 0⟩ [1, 2] (Broker.State.fresh ⟨60000, 60000, 60000⟩)

def order : ProduceRequest :=
  { acks := 255, messages := [System.message 7], producerId := 0, producerEpoch := 0,
    baseSequence := -1 }

def produceOrder : AckEvent := .produce order System.storageEnv none false

/-- The follower fetches the batch, and its next fetch tells the leader so. -/
def fetchOrder : List AckEvent :=
  [.request 2, .handle 0 0 10, .deliver 0 10, .request 2, .handle 1 0 10]

theorem replicated_order_acknowledged :
    ∃ reply, ((pair.follow (produceOrder :: fetchOrder)).step (.poll 0 none)).2 = some reply ∧
      ((pair.follow (produceOrder :: fetchOrder)).step (.poll 0 none)).1.Replicated reply := by
  have hproduce : Sufficient pair produceOrder := by
    refine ⟨by decide, fun _ => ⟨by decide +kernel, fun base count h => ?_⟩⟩
    simp [Broker.State.checkIdempotentProduce, order] at h
  have hreach : Reachable pair (pair.follow (produceOrder :: fetchOrder)) :=
    .step _ (.step _ (.step _ (.step _ (.step _ (.step _ .refl hproduce) trivial) trivial) trivial)
      trivial) trivial
  have hpoll : Sufficient (pair.follow (produceOrder :: fetchOrder)) (.poll 0 none) := by
    unfold Sufficient
    decide +kernel
  have hreply : ((pair.follow (produceOrder :: fetchOrder)).step (.poll 0 none)).2 =
      some ⟨order, { baseOffset := 0, count := 1, errorCode := .ok }⟩ := by rfl
  exact ⟨_, hreply, acknowledged_batch_is_replicated ⟨10, 0, 2⟩ ⟨"orders", 0⟩ (by decide) (by decide)
    (Broker.State.fresh ⟨60000, 60000, 60000⟩) hreach hpoll hreply ⟨rfl, rfl⟩⟩

/-- The follower dies while the request waits: the in-sync set shrinks to the leader, the high
watermark catches up, and the request is answered with success. -/
theorem shrunk_set_acknowledged :
    let s := pair.follow [produceOrder, .observeDeath 2]
    ∃ reply, (s.step (.poll 0 none)).2 = some reply ∧ Acknowledges reply ∧
      ¬ (s.step (.poll 0 none)).1.Replicated reply := by
  intro s
  refine ⟨⟨order, { baseOffset := 0, count := 1, errorCode := .ok }⟩, by rfl, ⟨rfl, rfl⟩, ?_⟩
  rintro ⟨ids, hnodup, hmin, hholds⟩
  have hself : ids ⊆ [1] := by
    intro id hid
    rw [mem_singleton]
    by_contra hne
    have hempty : (s.step (.poll 0 none)).1.logOf id = [] := if_neg hne
    have hfalse := hholds id hid
    rw [hempty] at hfalse
    exact hfalse
  have hlen : ids.length ≤ 1 := (hnodup.subperm hself).length_le
  have hmin : 2 ≤ ids.length := hmin
  omega

end AckSystem

end Volant.Cluster
