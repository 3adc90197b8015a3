-- SUMMARY: Model of a broker's partition handle: its log, its high watermark, and the produce path.
import Volant.Storage.Refinement

/-!
# Partitions

A broker holds a log and replica metadata for each partition. No modelled broker
operation deletes records, so a log that begins whole, at offset zero and with
no offset missing, stays the abstract log that `PartitionLog` refines.
`produceInner` is the produce path
of the broker from the leadership check to the high watermark. What lies
outside the broker in one produce, the storage errors and the cluster
configuration, is its `ProduceEnv`.
-/

namespace Volant.Broker

inductive ErrorCode where
  | ok
  | unknown
  | invalidArg
  | timeout
  | notLeaderForPartition
  | notEnoughReplicas
  | invalidProducerEpoch
  | outOfOrderSequence
  | unknownProducerId
  | invalidTxnState
  | transactionAbortable
  /-- Kafka's `INVALID_TRANSACTION_TIMEOUT`. -/
  | invalidTransactionTimeout
deriving DecidableEq, Repr

structure TopicPartition where
  topic : String
  partition : Nat
deriving DecidableEq, Repr

structure Partition where
  log : List Record
  logStart : Nat
  /-- Offsets between the log start and the log end without a record, as compaction leaves them. -/
  holes : Nat
  leader : Nat
  replicas : List Nat
  isr : List Nat
  leaderEpoch : Nat
  /-- Client-visible high watermark. -/
  committedHwm : Nat
  /-- Follower log end offsets observed by the leader. -/
  followerLeo : AList (fun _ : Nat => Nat)
  /-- When each follower was last observed within the allowed lag. -/
  followerCaughtUpAt : AList (fun _ : Nat => Nat)

namespace Partition

variable (p : Partition)

def leo : Nat := p.log.length + (p.logStart + p.holes)

/-- The log has a record at every offset below its end. -/
def Whole : Prop := p.logStart + p.holes = 0

theorem Whole.leo {p : Partition} (h : p.Whole) : p.leo = p.log.length := by
  rw [Partition.leo, h, Nat.add_zero]

/-- The log is whole, and committed to its end. -/
def Settled : Prop := p.Whole ∧ p.committedHwm = p.leo

theorem Settled.hwm {p : Partition} (h : p.Settled) : p.committedHwm = p.log.length :=
  h.2.trans h.1.leo

def isLeader (nodeId : Nat) : Bool := decide (p.leader = nodeId)

/-- A partition whose only replica is this node, opened over an existing log. -/
def openSingle (log : List Record) (nodeId : Nat) : Partition :=
  { log, logStart := 0, holes := 0, leader := nodeId, replicas := [nodeId], isr := [nodeId], leaderEpoch := 0,
    committedHwm := log.length, followerLeo := ∅, followerCaughtUpAt := ∅ }

/-- The log end offset the leader knows of an ISR member. -/
def knownLeo (id : Nat) : Nat :=
  if id = p.leader then p.leo else (p.followerLeo.lookup id).getD 0

def recomputeHwm : Partition :=
  if p.isr.isEmpty then p
  else
    let minLeo := p.isr.foldl (fun acc id => min acc (p.knownLeo id)) u64Max
    let minLeo := if minLeo = u64Max then 0 else minLeo
    if p.committedHwm < minLeo then { p with committedHwm := minLeo } else p

def catchUpHwm : Partition :=
  if p.committedHwm < p.leo then { p with committedHwm := p.leo } else p

/-- The records the messages become from offset `offset` on. -/
def stamp (nowMs : Int64) : Nat → List Message → List Record
  | _, [] => []
  | offset, m :: ms => m.toRecord offset (m.timestampMs.getD nowMs) :: stamp nowMs (offset + 1) ms

/-- What one produce finds outside the broker. -/
structure ProduceEnv where
  nodeId : Nat
  /-- `min_insync_replicas`, in cluster mode. -/
  cluster : Option Nat
  groupCommit : Bool
  nowMs : Int64
  /-- The storage error that ends the append, and how many records it left on the log. -/
  appendFails : Option (Nat × Error)
  /-- The error of the shared fsync. -/
  flushFails : Option Error

/-- The high watermark after an append. -/
def advanceHwm (env : ProduceEnv) (acks : Nat) (p : Partition) : Partition :=
  if (env.cluster.isNone || decide (p.isr.length ≤ 1)) || decide (acks ≠ 255) then
    if env.cluster.isNone then p.catchUpHwm
    else if p.isr.length = 1 then p.catchUpHwm
    else p.recomputeHwm
  else p.recomputeHwm

/-- `acks = 255` stands for `acks=all`. The handlers pass no wait timeout, so this does not wait
for the high watermark. -/
def produceInner (env : ProduceEnv) (messages : List Message) (acks : Nat) (p : Partition) :
    Except Error (List Record × ErrorCode) × Partition :=
  if messages.isEmpty then (.ok ([], .ok), p)
  else if env.cluster.isSome && !p.isLeader env.nodeId then (.ok ([], .notLeaderForPartition), p)
  else if decide (acks = 255) && env.cluster.any (fun minIsr => decide (p.isr.length < minIsr)) then
    (.ok ([], .notEnoughReplicas), p)
  else
    let records := stamp env.nowMs p.leo messages
    match env.appendFails with
    | some (k, e) => (.error e, { p with log := p.log ++ records.take k })
    | none =>
      let p := advanceHwm env acks { p with log := p.log ++ records }
      match env.flushFails with
      | some e => if decide (acks ≠ 0) && env.groupCommit then (.error e, p) else (.ok (records, .ok), p)
      | none => (.ok (records, .ok), p)

/-! ## The log -/

section

variable (nowMs : Int64) (offset : Nat) (ms : List Message)

@[simp] theorem stamp_length : (stamp nowMs offset ms).length = ms.length := by
  induction ms generalizing offset with
  | nil => rfl
  | cons m ms ih => simp [stamp, ih]

theorem stamped_stamp : Storage.Stamped offset ms (stamp nowMs offset ms) := by
  induction ms generalizing offset with
  | nil => trivial
  | cons m ms ih =>
    refine ⟨⟨m.timestampMs.getD nowMs, rfl, fun t ht => ?_⟩, ih (offset + 1)⟩
    rw [ht, Option.getD_some]

theorem gapFree_stamp : Storage.GapFree offset (stamp nowMs offset ms) := by
  induction ms generalizing offset with
  | nil => trivial
  | cons m ms ih => exact ⟨rfl, ih (offset + 1)⟩

end

/-- The read of the abstract log, at log start zero. -/
def read (start n : Nat) : List Record :=
  (p.log.filter (start ≤ ·.offset)).take n

/-- The partition's log as the abstract log that `PartitionLog` refines. -/
def abstractLog (h : Storage.GapFree 0 p.log) : Storage.AbstractLog :=
  ⟨0, p.log, h⟩

theorem read_eq_abstract (h : Storage.GapFree 0 p.log) (start n : Nat) :
    p.read start n = (p.abstractLog h).read start n := by
  simp [read, abstractLog, Storage.AbstractLog.read]

theorem append_gapFree {p : Partition} (hwhole : p.Whole) (h : Storage.GapFree 0 p.log)
    {records : List Record} (hnew : Storage.GapFree p.leo records) :
    Storage.GapFree 0 (p.log ++ records) :=
  Storage.GapFree.append_iff.mpr ⟨h, by rwa [Nat.zero_add, ← hwhole.leo]⟩

/-- Appending a stamped batch is the abstract log's append. -/
theorem append_appends {p : Partition} (hwhole : p.Whole) (h : Storage.GapFree 0 p.log)
    (nowMs : Int64) (ms : List Message) : (p.abstractLog h).Appends ms (stamp nowMs p.leo ms)
      ⟨0, _, append_gapFree hwhole h (gapFree_stamp nowMs p.leo ms)⟩ := by
  refine ⟨?_, rfl, rfl⟩
  simp only [abstractLog, Storage.AbstractLog.logEnd, Nat.zero_add, hwhole.leo]
  exact stamped_stamp nowMs p.log.length ms

/-- A standalone broker whose storage does not fail. -/
def ProduceEnv.standalone (nowMs : Int64) : ProduceEnv :=
  { nodeId := 0, cluster := none, groupCommit := false, nowMs, appendFails := none,
    flushFails := none }

theorem produceInner_standalone (nowMs : Int64) {ms : List Message} (hms : ms ≠ []) (acks : Nat)
    (p : Partition) : produceInner (.standalone nowMs) ms acks p = (.ok (stamp nowMs p.leo ms, .ok),
        { p with log := p.log ++ stamp nowMs p.leo ms }.catchUpHwm) := by
  have hempty : ms.isEmpty = false := by simpa using hms
  simp [produceInner, ProduceEnv.standalone, advanceHwm, hempty]

@[simp] theorem catchUpHwm_log : p.catchUpHwm.log = p.log := by
  unfold catchUpHwm
  split_ifs <;> rfl

@[simp] theorem catchUpHwm_logStart : p.catchUpHwm.logStart = p.logStart := by
  unfold catchUpHwm
  split_ifs <;> rfl

@[simp] theorem catchUpHwm_whole : p.catchUpHwm.Whole ↔ p.Whole := by
  unfold catchUpHwm
  split_ifs <;> rfl

/-- Catching up from below leaves the high watermark at the log end. -/
theorem catchUpHwm_committedHwm {p : Partition} (h : p.committedHwm ≤ p.leo) :
    p.catchUpHwm.committedHwm = p.leo := by
  unfold catchUpHwm
  split_ifs with hlt
  · rfl
  · exact le_antisymm h (Nat.le_of_not_lt hlt)

/-- What a produce does: it is refused, it stops at a storage error, or it appends the batch and
moves the high watermark; after that only the shared flush can fail. -/
theorem produceInner_inv {env : ProduceEnv} {ms : List Message} {acks : Nat} {p p' : Partition}
    {r : Except Error (List Record × ErrorCode)} (hne : ms ≠ [])
    (h : produceInner env ms acks p = (r, p')) : (p' = p ∧ ∃ code, r = .ok ([], code) ∧
        (code = .notLeaderForPartition ∨ code = .notEnoughReplicas)) ∨
      ((env.cluster.isSome = true → p.leader = env.nodeId) ∧
        ((∃ k e, env.appendFails = some (k, e) ∧ r = .error e ∧
            p' = { p with log := p.log ++ (stamp env.nowMs p.leo ms).take k }) ∨
          (env.appendFails = none ∧
            p' = advanceHwm env acks { p with log := p.log ++ stamp env.nowMs p.leo ms } ∧
            ((∃ e, env.flushFails = some e ∧ (decide (acks ≠ 0) && env.groupCommit) = true ∧
                r = .error e) ∨
              r = .ok (stamp env.nowMs p.leo ms, .ok))))) := by
  have hempty : ms.isEmpty = false := by simpa using hne
  unfold produceInner at h
  simp only [hempty, Bool.false_eq_true, if_false] at h
  split at h
  · cases h
    exact .inl ⟨rfl, _, rfl, .inl rfl⟩
  rename_i hleader
  split at h
  · cases h
    exact .inl ⟨rfl, _, rfl, .inr rfl⟩
  have hlead : env.cluster.isSome = true → p.leader = env.nodeId := fun hsome => by
    simpa [hsome, isLeader] using hleader
  refine .inr ⟨hlead, ?_⟩
  split at h
  next k e happend =>
    cases h
    exact .inl ⟨k, e, happend, rfl, rfl⟩
  next happend =>
    refine .inr ⟨happend, ?_⟩
    cases hflush : env.flushFails with
    | none =>
      rw [hflush] at h
      cases h
      exact ⟨rfl, .inr rfl⟩
    | some e =>
      rw [hflush] at h
      by_cases hgroup : (decide (acks ≠ 0) && env.groupCommit) = true
      · simp only [hgroup, if_true] at h
        cases h
        exact ⟨rfl, .inl ⟨e, rfl, hgroup, rfl⟩⟩
      · simp only [hgroup] at h
        cases h
        exact ⟨rfl, .inr rfl⟩

@[simp] theorem recomputeHwm_log : p.recomputeHwm.log = p.log := by
  unfold recomputeHwm
  simp only
  split_ifs <;> rfl

@[simp] theorem recomputeHwm_isr : p.recomputeHwm.isr = p.isr := by
  unfold recomputeHwm
  simp only
  split_ifs <;> rfl

@[simp] theorem recomputeHwm_leader : p.recomputeHwm.leader = p.leader := by
  unfold recomputeHwm
  simp only
  split_ifs <;> rfl

@[simp] theorem catchUpHwm_isr : p.catchUpHwm.isr = p.isr := by
  unfold catchUpHwm
  split_ifs <;> rfl

@[simp] theorem catchUpHwm_leader : p.catchUpHwm.leader = p.leader := by
  unfold catchUpHwm
  split_ifs <;> rfl

section

variable (env : ProduceEnv) (acks : Nat) (p : Partition)

@[simp] theorem advanceHwm_log : (advanceHwm env acks p).log = p.log := by
  unfold advanceHwm
  split_ifs <;> simp

@[simp] theorem advanceHwm_isr : (advanceHwm env acks p).isr = p.isr := by
  unfold advanceHwm
  split_ifs <;> simp

@[simp] theorem advanceHwm_leader : (advanceHwm env acks p).leader = p.leader := by
  unfold advanceHwm
  split_ifs <;> simp

end

end Partition

end Volant.Broker
