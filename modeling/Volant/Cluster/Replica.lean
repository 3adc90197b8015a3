-- SUMMARY: What a broker does with its replica of a partition: serve fetches, append, follow assignments.
import Volant.Cluster.Controller

/-!
# Replicas

The operations of one broker on its handle of a partition. The leader learns
the followers' log ends from the offsets they fetch from; it moves its in-sync
set and its high watermark with every fetch. A follower appends what it is sent
if the offsets continue its log. Nothing compares the contents of two logs.
-/

namespace Volant.Cluster

open Broker (Partition)

structure ReplicaConfig where
  replicaLagMaxMessages : Nat
  /-- Zero turns the limit off. -/
  replicaLagMaxMs : Nat
  minInsyncReplicas : Nat

/-- A broker's partition: the log on disk, or an open handle. -/
inductive Node where
  | closed (log : List Record)
  | opened (p : Partition)

def Node.log : Node → List Record
  | .closed log => log
  | .opened p => p.log

/-- The high watermark a handle has, or starts with when it is opened. -/
def Node.hwm : Node → Nat
  | .closed log => log.length
  | .opened p => p.committedHwm

/-- The in-sync set a handle has. -/
def Node.isr : Node → List Nat
  | .closed _ => []
  | .opened p => p.isr

/-- The log end that a handle has noted down for a follower. -/
def Node.notedLeo (id : Nat) : Node → Nat
  | .closed _ => 0
  | .opened p => (p.followerLeo.lookup id).getD 0

/-- The handle of a broker that takes itself for the leader. -/
def Node.leading? (n : Nat) : Node → Option Partition
  | .closed _ => none
  | .opened p => if p.isLeader n then some p else none

namespace Replica

/-! ## Fetches -/

/-- The handle after the leader has seen a follower at `fromOffset`. -/
def observeFollower (cfg : ReplicaConfig) (now replicaId fromOffset : Nat) (p : Partition) :
    Partition :=
  let p : Partition := { p with followerLeo := p.followerLeo.insert replicaId fromOffset }
  let p : Partition := if p.leo - fromOffset ≤ cfg.replicaLagMaxMessages then
      { p with followerCaughtUpAt := p.followerCaughtUpAt.insert replicaId now }
    else p
  let isr := reconcileIsr p.leader p.isr p.replicas p.leo p.committedHwm cfg.replicaLagMaxMessages
    cfg.replicaLagMaxMs now (some (replicaId, fromOffset)) p.knownLeo
    (p.followerCaughtUpAt.lookup ·)
  let caughtUpAt : AList fun _ : Nat => Nat := if isr = p.isr then p.followerCaughtUpAt
    else
      let joined := isr.filter fun id => decide (id ∉ p.isr) && decide (id ≠ p.leader)
      Assoc.retain (fun id _ => decide (id ∈ isr) || decide (id = p.leader))
        (joined.foldl (fun m id => m.insert id now) p.followerCaughtUpAt)
  { p with isr, followerCaughtUpAt := caughtUpAt }.recomputeHwm

inductive FetchError where
  | ok
  | notLeaderForPartition
deriving DecidableEq, Repr

/-- A ReplicaFetch. The byte and message limits let `taken` records through. -/
def handleReplicaFetch (cfg : ReplicaConfig) (nodeId now replicaId fromOffset taken : Nat)
    (p : Partition) : (FetchError × Nat × Nat × List Record) × Partition :=
  if !p.isLeader nodeId then ((.notLeaderForPartition, p.committedHwm, p.leaderEpoch, []), p)
  else
    let p := observeFollower cfg now replicaId fromOffset p
    ((.ok, p.committedHwm, p.leaderEpoch, (p.log.drop fromOffset).take taken), p)

/-- Records are appended as long as their offsets continue the log. -/
def appendRecordsWithOffsets : List Record → List Record → List Record
  | log, [] => log
  | log, r :: rest =>
    if r.offset = log.length then appendRecordsWithOffsets (log ++ [r]) rest else log

/-- A fetched batch on a follower; a storage error may end it after `written` records. -/
def appendReplicaRecords (nodeId : Nat) (records : List Record) (leaderEpoch written : Nat)
    (p : Partition) : Partition :=
  if records.isEmpty then p
  else if p.isLeader nodeId then p
  else
    let log := appendRecordsWithOffsets p.log (records.take written)
    let p' := { p with leaderEpoch, log }
    if log.length = p.log.length + records.length ∧ p.isr.length ≤ 1 then p'.catchUpHwm else p'

/-! ## Assignments -/

/-- An open handle under an assignment. -/
def reassigned (pa : PartitionAssignment) (p : Partition) : Partition :=
  { p with leader := pa.leader, replicas := pa.replicas, isr := pa.isr,
           leaderEpoch := pa.leaderEpoch }

/-- A handle that is opened over a log starts with its high watermark at the end of it. -/
def openHandle (pa : PartitionAssignment) (log : List Record) : Partition :=
  { log, logStart := 0, holes := 0, leader := pa.leader, replicas := pa.replicas, isr := pa.isr,
    leaderEpoch := pa.leaderEpoch, committedHwm := log.length, followerLeo := ∅,
    followerCaughtUpAt := ∅ }

def ensurePartition (nodeId : Nat) (pa : PartitionAssignment) (node : Node) : Node :=
  if nodeId ∉ pa.replicas then .closed node.log
  else
    match node with
    | .opened p => .opened (reassigned pa p)
    | .closed log => .opened (openHandle pa log)

/-- A former member of the in-sync set that may stay in it. -/
def keepsInSync (cfg : ReplicaConfig) (live : List Nat) (p : Partition) (isr : List Nat)
    (id : Nat) : Bool :=
  let leo := (p.followerLeo.lookup id).getD 0
  decide (id ∉ isr) && decide (id ≠ p.leader) && decide (id ∈ p.replicas) && decide (id ∈ live) &&
    decide (p.leo - leo ≤ cfg.replicaLagMaxMessages) && decide (p.committedHwm ≤ leo)

/-- The in-sync set of a leader under a new assignment: the assigned one, with the members of the
old one that are still in sync, without those that lag. -/
def overlayIsr (cfg : ReplicaConfig) (live : List Nat) (now : Nat) (prevIsr : List Nat)
    (p : Partition) : List Nat :=
  let isr := prevIsr.foldl
    (fun isr id => if keepsInSync cfg live p isr id then isr ++ [id] else isr) p.isr
  let afterOffset := shrinkIsr p.leader isr p.leo cfg.replicaLagMaxMessages p.knownLeo
  shrinkIsrByTime p.leader afterOffset cfg.replicaLagMaxMs now (p.followerCaughtUpAt.lookup ·)

/-- The end of `apply_local_assignment` for a leader. -/
def settleLeader (p : Partition) : Partition :=
  let p := { p with
    followerLeo := Assoc.retain (fun id _ => decide (id ∈ p.isr)) p.followerLeo
    followerCaughtUpAt := Assoc.retain (fun id _ => decide (id ∈ p.isr)) p.followerCaughtUpAt }
  if p.isr.length ≤ 1 then p.catchUpHwm else p.recomputeHwm

def applyLocalAssignment (cfg : ReplicaConfig) (nodeId : Nat) (live : List Nat) (now : Nat)
    (pa : PartitionAssignment) (node : Node) : Node :=
  match ensurePartition nodeId pa node with
  | .closed log => .closed log
  | .opened p =>
    if !p.isLeader nodeId then .opened p
    else
      match node with
      | .opened prev => .opened (settleLeader { p with isr := overlayIsr cfg live now prev.isr p })
      | .closed _ => .opened (settleLeader p)

/-- A dead broker leaves the local in-sync set. -/
def shrinkLocalIsrForDead (nodeId deadId : Nat) (p : Partition) : Partition :=
  let isr := p.isr.filter (· ≠ deadId)
  let p' := { p with isr, followerLeo := p.followerLeo.erase deadId,
                     followerCaughtUpAt := p.followerCaughtUpAt.erase deadId }
  if isr.length = p.isr.length then p'
  else if !p'.isLeader nodeId then p'
  else if isr.length ≤ 1 then p'.catchUpHwm
  else p'.recomputeHwm

end Replica

end Volant.Cluster
