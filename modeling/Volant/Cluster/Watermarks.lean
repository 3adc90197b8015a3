-- SUMMARY: Log start, high watermark and log end of a partition over appends, replication, truncation and retention.
import Volant.Cluster.ReplicaSpec
import Volant.Storage.Bounds

/-!
# Watermarks

A broker's partition handle over its stored log. Other than in `Replication`,
where a log is the list of all its records, the prefix of this one is deleted:
by DeleteRecords, by the leader's truncation that reaches a follower, and by
retention. None of them looks at the high watermark.

The order of log start, high watermark and log end is kept by every operation
that drops only segments that end at or below the high watermark.
-/

namespace Volant.Cluster

open Broker (Partition)
open Storage (LogState PartitionLog Platform StorageConfig Host Covers Covered)

/-- What a broker's operations on its partitions depend on besides the partition. -/
structure Server where
  nodeId : Nat
  platform : Platform
  /-- The cluster configuration, of a broker in a cluster. -/
  cluster : Option ReplicaConfig

/-- A partition: its log, and its replica metadata. -/
structure Handle where
  store : LogState
  /-- Its `log` stands for nothing: the log is in the store. -/
  part : Partition

/-- `TopicConfig` -/
structure TopicConfig where
  retentionMs : Option Nat
  retentionBytes : Option Nat
  segmentBytes : Option Nat
  compact : Bool

namespace Handle

def leo (h : Handle) : Nat := h.store.log.logEndOffset

def logStart (h : Handle) : Nat := h.store.log.logStartOffset

def hwm (h : Handle) : Nat := h.part.committedHwm

def blank : Record := { offset := 0, timestampMs := 0, key := none, value := [], headers := [] }

/-- The metadata functions read of the log only where it ends, so they see one of that length. -/
def view (h : Handle) : Partition :=
  { h.part with log := List.replicate h.leo blank, logStart := 0, holes := 0 }

def update (f : Partition → Partition) (h : Handle) : Handle := { h with part := f h.view }

/-- A storage operation; what it changed stays, even when it fails. -/
def onStore {α : Type} (x : Storage.LogM α) (h : Handle) : Handle :=
  { h with store := Exec.stop (x h.store) }

/-! ## Operations -/

variable (b : Server)

/-- A partition is opened over what is on disk, with its high watermark at the log end. -/
def openPartition (config : StorageConfig) (pa : PartitionAssignment) (host : Host) :
    Except Error Handle :=
  match PartitionLog.open b.platform config host with
  | .ok log host => .ok { store := ⟨host, log⟩
                          part := Replica.openHandle pa (List.replicate log.logEndOffset blank) }
  | .error e _ => .error e

/-- `advance_hwm` only asks whether the broker is in a cluster. -/
def produceEnv : Partition.ProduceEnv :=
  { nodeId := b.nodeId, cluster := b.cluster.map (·.minInsyncReplicas), groupCommit := false,
    nowMs := 0, appendFails := none, flushFails := none }

def produce (messages : List Message) (acks : Nat) (h : Handle) : Handle :=
  let groupCommit := h.store.log.config.groupCommitEnabled
  if messages.isEmpty then h
  else if b.cluster.isSome && !h.part.isLeader b.nodeId then h
  else if decide (acks = 255) &&
      b.cluster.any (fun c => decide (h.part.isr.length < c.minInsyncReplicas)) then h
  else
    match PartitionLog.appendBatchInner b.platform messages (!groupCommit) h.store with
    | .error _ s => { h with store := s }
    | .ok _ s =>
      let h := { h with store := s }.update (Partition.advanceHwm (produceEnv b) acks)
      if decide (acks ≠ 0) && groupCommit then h.onStore PartitionLog.flush else h

def handleReplicaFetch (now replicaId fromOffset : Nat) (h : Handle) : Handle :=
  if !h.part.isLeader b.nodeId then h
  else
    match b.cluster with
    | some cfg => h.update (Replica.observeFollower cfg now replicaId fromOffset)
    | none => h.update fun p =>
      { p with followerLeo := p.followerLeo.insert replicaId fromOffset }.catchUpHwm

def appendReplicaRecords (records : List Record) (leaderEpoch : Nat) (h : Handle) : Handle :=
  if records.isEmpty then h
  else if h.part.isLeader b.nodeId then h
  else
    let h := { h with part := { h.part with leaderEpoch } }
    match PartitionLog.appendRecordsWithOffsets b.platform records h.store with
    | .error _ s => { h with store := s }
    | .ok _ s =>
      let h := { h with store := s }
      if h.part.isr.length ≤ 1 then h.update Partition.catchUpHwm else h

def deleteRecords (beforeOffset : Nat) (h : Handle) : Handle :=
  if b.cluster.isSome && !h.part.isLeader b.nodeId then h
  else h.onStore (PartitionLog.deleteRecords b.platform beforeOffset)

/-- `fence_leader_epoch` with `EpochFenceMode::AllowUnknown` -/
def fenceLeaderEpoch (localEpoch : Nat) (requested : Int) : Bool :=
  if requested < 0 then true else decide ((localEpoch : Int) ≤ requested)

def handleReplicaDeleteRecords (beforeOffset : Nat) (leaderEpoch : Int) (h : Handle) : Handle :=
  if fenceLeaderEpoch h.part.leaderEpoch leaderEpoch then
    h.onStore (PartitionLog.deleteRecords b.platform beforeOffset)
  else h

/-- `apply_topic_config`: a segment size of zero is ignored. -/
def applyTopicConfig (cfg : TopicConfig) (h : Handle) : Handle :=
  let config := h.store.log.config
  let config := { config with
    retentionMs := cfg.retentionMs
    retentionBytes := cfg.retentionBytes
    segmentSize := match cfg.segmentBytes with
      | some size => if 0 < size then size else config.segmentSize
      | none => config.segmentSize
    compact := cfg.compact }
  { h with store := { h.store with log := { h.store.log with config } } }

/-- An assignment that leaves out this broker closes the handle. -/
def applyLocalAssignment (pa : PartitionAssignment) (live : List Nat) (now : Nat)
    (h : Handle) : Option Handle :=
  match b.cluster with
  | none => some h
  | some cfg =>
    match Replica.applyLocalAssignment cfg b.nodeId live now pa (.opened h.view) with
    | .opened p => some { h with part := p }
    | .closed _ => none

end Handle

inductive PartitionOp where
  | produce (messages : List Message) (acks : Nat)
  | replicaFetch (now replicaId fromOffset : Nat)
  | replicaAppend (records : List Record) (leaderEpoch : Nat)
  | assign (pa : PartitionAssignment) (live : List Nat) (now : Nat)
  | brokerDeath (deadId : Nat)
  | deleteRecords (beforeOffset : Nat)
  | replicaDeleteRecords (beforeOffset : Nat) (leaderEpoch : Int)
  | configure (cfg : TopicConfig)
  | applyRetention

namespace PartitionOp

def exec (b : Server) (h : Handle) : PartitionOp → Option Handle
  | .produce messages acks => some (h.produce b messages acks)
  | .replicaFetch now replicaId fromOffset =>
    some (h.handleReplicaFetch b now replicaId fromOffset)
  | .replicaAppend records leaderEpoch => some (h.appendReplicaRecords b records leaderEpoch)
  | .assign pa live now => h.applyLocalAssignment b pa live now
  | .brokerDeath deadId =>
    -- only a broker in a cluster observes deaths, and never its own
    if b.cluster.isNone || decide (deadId = b.nodeId) then some h
    else some (h.update (Replica.shrinkLocalIsrForDead b.nodeId deadId))
  | .deleteRecords beforeOffset => some (h.deleteRecords b beforeOffset)
  | .replicaDeleteRecords beforeOffset leaderEpoch =>
    some (h.handleReplicaDeleteRecords b beforeOffset leaderEpoch)
  | .configure cfg => some (h.applyTopicConfig cfg)
  | .applyRetention => some (h.onStore (PartitionLog.applyRetention b.platform))

/-- The state after a sequence of operations, unless the handle is closed on the way. -/
def run (b : Server) : Handle → List PartitionOp → Option Handle
  | h, [] => some h
  | h, op :: ops => (op.exec b h).bind (run b · ops)

/-- The segments that go when records before an offset are deleted. -/
def dropped (h : Handle) (beforeOffset : Nat) : List Storage.Segment :=
  h.store.log.segments.takeWhile (·.nextOffset ≤ beforeOffset)

/-- No segment that the operation drops reaches beyond the high watermark. Compaction takes the
sealed segments from the log before it puts the new one there, so it must not fail in between. -/
def Safe (b : Server) (h : Handle) : PartitionOp → Prop
  | .deleteRecords beforeOffset | .replicaDeleteRecords beforeOffset _ =>
    ∀ g ∈ dropped h beforeOffset, g.nextOffset ≤ h.hwm
  | .applyRetention =>
    (∀ g ∈ PartitionLog.retired h.store, g.nextOffset ≤ h.hwm) ∧
      (h.store.log.config.compact = true →
        Exec.succeeds (PartitionLog.applyRetention b.platform h.store) = true)
  | _ => True

instance (b : Server) (h : Handle) (op : PartitionOp) : Decidable (Safe b h op) :=
  match op with
  | .deleteRecords beforeOffset | .replicaDeleteRecords beforeOffset _ =>
    inferInstanceAs (Decidable (∀ g ∈ dropped h beforeOffset, g.nextOffset ≤ h.hwm))
  | .applyRetention =>
    inferInstanceAs (Decidable ((∀ g ∈ PartitionLog.retired h.store, g.nextOffset ≤ h.hwm) ∧
      (h.store.log.config.compact = true →
        Exec.succeeds (PartitionLog.applyRetention b.platform h.store) = true)))
  | .produce .. | .replicaFetch .. | .replicaAppend .. | .assign .. | .brokerDeath _
  | .configure _ => inferInstanceAs (Decidable True)

/-- In this run every operation is safe where it happens. -/
def safeRun (b : Server) : Handle → List PartitionOp → Bool
  | _, [] => true
  | h, op :: ops => decide (Safe b h op) && ((op.exec b h).map (safeRun b · ops)).getD true

end PartitionOp

/-! ## The high watermark stays in the log -/

/-- The high watermark is inside the log. A broker `n` that reckons with the log ends of others has
its own among them when it leads: it is in its in-sync set, or has noted down no other log end. -/
structure Inside (n : Option Nat) (p : Partition) : Prop where
  hwm_le : p.committedHwm ≤ p.leo
  inSync : n = some p.leader → p.leader ∈ p.isr ∨ ∀ id, p.followerLeo.lookup id = none

/-- From `p` to `p'` the high watermark may rise, and it stays inside the same log. -/
structure Raises (n : Option Nat) (p p' : Partition) : Prop where
  inside : Inside n p'
  leo_eq : p'.leo = p.leo
  le_hwm : p.committedHwm ≤ p'.committedHwm

section Raises

variable {n : Option Nat} {self : Nat} {p p' p'' : Partition}

theorem Raises.trans (h : Raises n p p') (h' : Raises n p' p'') : Raises n p p'' :=
  ⟨h'.inside, h'.leo_eq.trans h.leo_eq, h.le_hwm.trans h'.le_hwm⟩

theorem le_recomputeHwm (p : Partition) : p.committedHwm ≤ p.recomputeHwm.committedHwm := by
  unfold Partition.recomputeHwm
  split_ifs with hempty
  · exact le_rfl
  · simp only
    split_ifs with hmax hlt hlt
    · exact hlt.le
    · exact le_rfl
    · exact hlt.le
    · exact le_rfl

theorem Inside.recomputeHwm (h : Inside n p) (hlead : n = some p.leader) :
    Raises n p p.recomputeHwm := by
  have hmono := le_recomputeHwm p
  rcases recomputeHwm_cases p with heq | ⟨hwm, hne, hle, heq⟩
  · rw [heq]
    exact ⟨h, rfl, le_rfl⟩
  rw [heq] at hmono ⊢
  refine ⟨⟨?_, h.inSync⟩, rfl, hmono⟩
  rcases h.inSync hlead with hmem | hnone
  · have hself := hle p.leader hmem
    rwa [Partition.knownLeo, if_pos rfl] at hself
  · obtain ⟨id, rest, hisr⟩ := List.exists_cons_of_ne_nil hne
    refine (hle id (by simp [hisr])).trans ?_
    unfold Partition.knownLeo
    split_ifs
    · exact le_rfl
    · rw [hnone id]
      exact Nat.zero_le _

theorem Inside.catchUpHwm (h : Inside n p) : Raises n p p.catchUpHwm := by
  unfold Partition.catchUpHwm
  split_ifs with hlt
  · exact ⟨⟨le_rfl, h.inSync⟩, rfl, hlt.le⟩
  · exact ⟨h, rfl, le_rfl⟩

theorem Inside.advanceHwm {env : Partition.ProduceEnv} (h : Inside n p)
    (hlead : env.cluster.isSome = true → n = some p.leader) (acks : Nat) :
    Raises n p (Partition.advanceHwm env acks p) := by
  unfold Partition.advanceHwm
  cases hcluster : env.cluster with
  | none => exact h.catchUpHwm
  | some minIsr =>
    rw [hcluster] at hlead
    simp only [Option.isNone_some, Bool.false_or, Bool.false_eq_true, if_false]
    split_ifs
    · exact h.catchUpHwm
    · exact h.recomputeHwm (hlead rfl)
    · exact h.recomputeHwm (hlead rfl)

/-- What a fetch has noted down does not matter to the bound: the leader is in sync. -/
theorem Inside.observeFollower (h : Inside n p) (hlead : n = some p.leader) (cfg : ReplicaConfig)
    (now replicaId fromOffset : Nat) :
    Raises n p (Replica.observeFollower cfg now replicaId fromOffset p) := by
  obtain ⟨isr, caughtUpAt, heq, hleader, -, -⟩ :=
    @observeFollower_eq cfg now replicaId fromOffset p
  have hnoted : Raises n p { p with
      followerLeo := p.followerLeo.insert replicaId fromOffset, isr, followerCaughtUpAt := caughtUpAt } :=
    ⟨⟨h.hwm_le, fun _ => .inl hleader⟩, rfl, le_rfl⟩
  rw [heq]
  exact hnoted.trans (hnoted.inside.recomputeHwm hlead)

theorem Inside.settleLeader (h : Inside n p) (hlead : n = some p.leader) :
    Raises n p (Replica.settleLeader p) := by
  have hkept : Raises n p { p with
      followerLeo := Assoc.retain (fun id _ => decide (id ∈ p.isr)) p.followerLeo
      followerCaughtUpAt := Assoc.retain (fun id _ => decide (id ∈ p.isr)) p.followerCaughtUpAt } := by
    refine ⟨⟨h.hwm_le, fun hlead => (h.inSync hlead).imp_right fun hnone id => ?_⟩, rfl, le_rfl⟩
    rw [Assoc.lookup_retain, hnone id]
    rfl
  unfold Replica.settleLeader
  dsimp only
  split_ifs
  · exact hkept.trans hkept.inside.catchUpHwm
  · exact hkept.trans (hkept.inside.recomputeHwm hlead)

/-- An assignment on an open handle: a leader takes itself into its in-sync set. -/
theorem Inside.applyLocalAssignment (h : Inside (some self) p) {cfg : ReplicaConfig}
    {pa : PartitionAssignment} {live : List Nat} {now : Nat}
    (hrun : Replica.applyLocalAssignment cfg self live now pa (.opened p) = .opened p') :
    Raises (some self) p p' := by
  unfold Replica.applyLocalAssignment Replica.ensurePartition at hrun
  by_cases hreplica : self ∈ pa.replicas
  swap
  · rw [if_pos hreplica] at hrun
    cases hrun
  rw [if_neg (not_not.mpr hreplica)] at hrun
  dsimp only at hrun
  split_ifs at hrun with hleader
  · cases hrun
    refine ⟨⟨h.hwm_le, fun hlead => ?_⟩, rfl, le_rfl⟩
    simp [Partition.isLeader, Option.some.inj hlead] at hleader
  · cases hrun
    rw [Bool.not_eq_true', Bool.not_eq_false] at hleader
    have hlead : some self = some pa.leader := congrArg some (of_decide_eq_true hleader).symm
    have hassigned : Raises (some self) p { Replica.reassigned pa p with
        isr := Replica.overlayIsr cfg live now p.isr (Replica.reassigned pa p) } :=
      ⟨⟨h.hwm_le, fun _ => .inl leader_mem_shrinkIsrByTime⟩, rfl, le_rfl⟩
    exact hassigned.trans (hassigned.inside.settleLeader hlead)

theorem Inside.shrinkLocalIsrForDead {deadId : Nat} (h : Inside (some self) p)
    (hne : deadId ≠ self) : Raises (some self) p (Replica.shrinkLocalIsrForDead self deadId p) := by
  have hshrunk : Raises (some self) p { p with
      isr := p.isr.filter (· ≠ deadId)
      followerLeo := p.followerLeo.erase deadId
      followerCaughtUpAt := p.followerCaughtUpAt.erase deadId } := by
    refine ⟨⟨h.hwm_le, fun hlead => ?_⟩, rfl, le_rfl⟩
    rcases h.inSync hlead with hmem | hnone
    · rw [← Option.some.inj hlead] at hmem ⊢
      exact .inl (List.mem_filter.mpr ⟨hmem, by simpa using hne.symm⟩)
    · refine .inr fun id => ?_
      by_cases hid : id = deadId
      · rw [hid, AList.lookup_erase]
      · rw [AList.lookup_erase_ne hid, hnone id]
  unfold Replica.shrinkLocalIsrForDead
  dsimp only
  split_ifs with hsame hleader hone
  · exact hshrunk
  · exact hshrunk
  · exact hshrunk.trans hshrunk.inside.catchUpHwm
  · rw [Bool.not_eq_true', Bool.not_eq_false] at hleader
    refine hshrunk.trans (hshrunk.inside.recomputeHwm ?_)
    exact congrArg some (of_decide_eq_true hleader).symm

end Raises

/-! ## The order of the watermarks -/

/-- The broker that reckons with other log ends, if this one does. -/
def Server.self? (b : Server) : Option Nat := b.cluster.map fun _ => b.nodeId

/-- Log start, high watermark and log end are in order, and stay so however the in-sync set and the
log grow. -/
structure Ordered (b : Server) (h : Handle) : Prop where
  covers : Covers h.hwm h.store.log
  inside : Inside b.self? h.view

namespace Ordered

variable {b : Server} {h : Handle}

theorem leo_view (h : Handle) : h.view.leo = h.leo := List.length_replicate

section

variable (ho : Ordered b h)

include ho

/-- The log in another state, with the high watermark inside it. -/
theorem store {s : LogState} (hs : Covered h.hwm s) : Ordered b { h with store := s } :=
  ⟨hs, (leo_view _).symm ▸ hs.le_end, ho.inside.inSync⟩

theorem onStore {α : Type} {x : Storage.LogM α}
    (hx : Covered h.hwm (Exec.stop (x h.store))) : Ordered b (h.onStore x) :=
  ho.store hx

/-- The metadata in another state, with the high watermark risen inside the log. -/
theorem update {f : Partition → Partition}
    (hf : Raises b.self? h.view (f h.view)) : Ordered b (h.update f) := by
  obtain ⟨hinside, hleo, hhwm⟩ := hf
  have hle : (f h.view).committedHwm ≤ h.leo := by
    rw [← leo_view, ← hleo]
    exact hinside.hwm_le
  refine ⟨ho.covers.mono hhwm hle, ?_, hinside.inSync⟩
  exact (leo_view _).symm ▸ hle

theorem produce (messages : List Message) (acks : Nat) : Ordered b (h.produce b messages acks) := by
  unfold Handle.produce
  dsimp only
  split
  · exact ho
  split
  · exact ho
  rename_i hleader
  split
  · exact ho
  have hkept := PartitionLog.stands_covered (P := b.platform).appendBatchInner messages
    (!h.store.log.config.groupCommitEnabled) h.store ho.covers
  split
  · rename_i e s hrun
    rw [hrun] at hkept
    exact ho.store hkept
  · rename_i records s hrun
    rw [hrun] at hkept
    have hlead : (Handle.produceEnv b).cluster.isSome = true → b.self? = some h.part.leader := by
      intro hsome
      simp only [Handle.produceEnv, Option.isSome_map] at hsome
      obtain ⟨cfg, hcfg⟩ := Option.isSome_iff_exists.mp hsome
      have hself : h.part.leader = b.nodeId := by
        simpa [hcfg, Partition.isLeader] using hleader
      rw [Server.self?, hcfg, hself]
      rfl
    have hadvanced := (ho.store hkept).update ((ho.store hkept).inside.advanceHwm hlead acks)
    split
    · exact hadvanced.onStore (PartitionLog.stands_covered (P := b.platform).flush _
        hadvanced.covers)
    · exact hadvanced

theorem handleReplicaFetch (now replicaId fromOffset : Nat) :
    Ordered b (h.handleReplicaFetch b now replicaId fromOffset) := by
  unfold Handle.handleReplicaFetch
  split
  · exact ho
  rename_i hleader
  cases hcluster : b.cluster with
  | some cfg =>
    rw [Bool.not_eq_true', Bool.not_eq_false] at hleader
    have hlead : b.self? = some h.part.leader := by
      rw [Server.self?, hcluster, of_decide_eq_true hleader]
      rfl
    exact ho.update (ho.inside.observeFollower hlead cfg now replicaId fromOffset)
  | none =>
    have hnoted : Raises b.self? h.view
        { h.view with followerLeo := h.view.followerLeo.insert replicaId fromOffset } := by
      refine ⟨⟨ho.inside.hwm_le, fun hlead => ?_⟩, rfl, le_rfl⟩
      rw [Server.self?, hcluster] at hlead
      cases hlead
    exact ho.update (hnoted.trans hnoted.inside.catchUpHwm)

theorem appendReplicaRecords (records : List Record) (leaderEpoch : Nat) :
    Ordered b (h.appendReplicaRecords b records leaderEpoch) := by
  unfold Handle.appendReplicaRecords
  dsimp only
  split
  · exact ho
  split
  · exact ho
  have hepoch : Ordered b { h with part := { h.part with leaderEpoch } } :=
    ⟨ho.covers, ho.inside.hwm_le, ho.inside.inSync⟩
  have hkept := PartitionLog.stands_covered (P := b.platform).appendRecordsWithOffsets records
    h.store ho.covers
  split
  · rename_i e s hrun
    rw [hrun] at hkept
    exact hepoch.store hkept
  · rename_i out s hrun
    rw [hrun] at hkept
    have happended := hepoch.store hkept
    split
    · exact happended.update happended.inside.catchUpHwm
    · exact happended

theorem deleteRecords {beforeOffset : Nat}
    (hsafe : ∀ g ∈ PartitionOp.dropped h beforeOffset, g.nextOffset ≤ h.hwm) :
    Ordered b (h.onStore (PartitionLog.deleteRecords b.platform beforeOffset)) :=
  ho.onStore (PartitionLog.covers_deleteRecords ho.covers hsafe).1

/-- One operation keeps the order if it is safe. -/
theorem exec {op : PartitionOp} {h' : Handle} (hsafe : op.Safe b h)
    (hrun : op.exec b h = some h') : Ordered b h' := by
  cases op with
  | produce messages acks =>
    cases hrun
    exact ho.produce messages acks
  | replicaFetch now replicaId fromOffset =>
    cases hrun
    exact ho.handleReplicaFetch now replicaId fromOffset
  | replicaAppend records leaderEpoch =>
    cases hrun
    exact ho.appendReplicaRecords records leaderEpoch
  | assign pa live now =>
    simp only [PartitionOp.exec, Handle.applyLocalAssignment] at hrun
    split at hrun
    next =>
      cases hrun
      exact ho
    next cfg hcluster =>
      have hself : b.self? = some b.nodeId := by rw [Server.self?, hcluster, Option.map_some]
      split at hrun
      · rename_i p happly
        cases hrun
        have hraises := (hself ▸ ho.inside).applyLocalAssignment happly
        exact ho.update (f := fun _ => p) (hself ▸ hraises)
      · cases hrun
  | brokerDeath deadId =>
    simp only [PartitionOp.exec] at hrun
    split at hrun
    · cases hrun
      exact ho
    · rename_i hother
      cases hrun
      simp only [Bool.or_eq_true, Option.isNone_iff_eq_none, decide_eq_true_eq, not_or] at hother
      obtain ⟨cfg, hcluster⟩ := Option.ne_none_iff_exists'.mp hother.1
      have hself : b.self? = some b.nodeId := by rw [Server.self?, hcluster, Option.map_some]
      have hraises := (hself ▸ ho.inside).shrinkLocalIsrForDead hother.2
      exact ho.update (hself ▸ hraises)
  | deleteRecords beforeOffset =>
    cases hrun
    unfold Handle.deleteRecords
    split
    · exact ho
    · exact ho.deleteRecords hsafe
  | replicaDeleteRecords beforeOffset leaderEpoch =>
    cases hrun
    unfold Handle.handleReplicaDeleteRecords
    split
    · exact ho.deleteRecords hsafe
    · exact ho
  | configure cfg =>
    cases hrun
    exact ho.store (ho.covers.congr rfl rfl)
  | applyRetention =>
    cases hrun
    exact ho.onStore (PartitionLog.covers_applyRetention ho.covers hsafe.1 hsafe.2)

theorem run {ops : List PartitionOp} {h' : Handle}
    (hsafe : PartitionOp.safeRun b h ops = true) (hrun : PartitionOp.run b h ops = some h') :
    Ordered b h' := by
  induction ops generalizing h with
  | nil =>
    cases hrun
    exact ho
  | cons op ops ih =>
    obtain ⟨h₁, hexec, hrest⟩ := Option.bind_eq_some_iff.mp hrun
    simp only [PartitionOp.safeRun, hexec, Bool.and_eq_true, decide_eq_true_eq, Option.map_some,
      Option.getD_some] at hsafe
    exact ih (ho.exec hsafe.1 hexec) hsafe.2 hrest

end

theorem openPartition {config : StorageConfig} {pa : PartitionAssignment} {host : Host}
    (hnames : ∀ base ∈ Storage.listSegmentBases host, base ≤ u64Max)
    (hopen : Handle.openPartition b config pa host = .ok h) : Ordered b h := by
  unfold Handle.openPartition at hopen
  split at hopen
  · rename_i log host' hlog
    cases hopen
    have hcovers := PartitionLog.covers_open hnames hlog
    have hhwm : (List.replicate log.logEndOffset Handle.blank).length = log.nextOffset :=
      List.length_replicate
    refine ⟨?_, ?_, fun _ => .inr fun id => rfl⟩
    · change Covers (List.replicate log.logEndOffset Handle.blank).length log
      rw [hhwm]
      exact hcovers
    · exact (leo_view _).symm ▸ hhwm.le
  · cases hopen

end Ordered

/-- In every state of a partition that a run of safe operations reaches from the opening of its log,
log start, high watermark and log end are in order. -/
theorem watermarks_in_order {b : Server} {config : StorageConfig} {pa : PartitionAssignment}
    {host : Host} {h h' : Handle} {ops : List PartitionOp}
    (hnames : ∀ base ∈ Storage.listSegmentBases host, base ≤ u64Max)
    (hopen : Handle.openPartition b config pa host = .ok h)
    (hsafe : PartitionOp.safeRun b h ops = true) (hrun : PartitionOp.run b h ops = some h') :
    h'.logStart ≤ h'.hwm ∧ h'.hwm ≤ h'.leo := by
  have ho := (Ordered.openPartition hnames hopen).run hsafe hrun
  exact ⟨ho.covers.start_le, ho.covers.le_end⟩

/-- A broker in a cluster of two. -/
def firstOfTwo : Server where
  nodeId := 1
  platform := Storage.plainPlatform
  cluster := some { replicaLagMaxMessages := 10, replicaLagMaxMs := 0, minInsyncReplicas := 1 }

def ledPartition : PartitionAssignment :=
  { replicas := [1, 2], leader := 1, isr := [1, 2], leaderEpoch := 0 }

def emptyHost : Host := { logs := ∅, indexes := [], clock := fun _ => 0, tick := 0 }

/-- A run on a new partition that `firstOfTwo` leads, each record in a segment of its own: whether
it is safe, and the bounds it leads to. -/
def boundsAfter (ops : List PartitionOp) : Option (Bool × Nat × Nat × Nat) :=
  match Handle.openPartition firstOfTwo Storage.smallSegments ledPartition emptyHost with
  | .ok h => (PartitionOp.run firstOfTwo h ops).map fun h' =>
    (PartitionOp.safeRun firstOfTwo h ops, h'.logStart, h'.hwm, h'.leo)
  | .error _ => none

theorem boundsAfter_eq_some {ops : List PartitionOp} {isSafe : Bool} {start hwm leo : Nat}
    (h : boundsAfter ops = some (isSafe, start, hwm, leo)) :
    ∃ h h', Handle.openPartition firstOfTwo Storage.smallSegments ledPartition emptyHost = .ok h ∧
      PartitionOp.safeRun firstOfTwo h ops = isSafe ∧ PartitionOp.run firstOfTwo h ops = some h' ∧
      h'.logStart = start ∧ h'.hwm = hwm ∧ h'.leo = leo := by
  unfold boundsAfter at h
  split at h
  · rename_i h₀ hopen
    obtain ⟨h', hrun, heq⟩ := Option.map_eq_some_iff.mp h
    simp only [Prod.mk.injEq] at heq
    obtain ⟨hsafe, hstart, hhwm, hleo⟩ := heq
    exact ⟨h₀, h', hopen, hsafe, hrun, hstart, hhwm, hleo⟩
  · cases h

/-- The follower has fetched one record of two, and that one is deleted. -/
def deletesCommitted : List PartitionOp :=
  [.produce [Storage.smallMessage, Storage.smallMessage] 1, .replicaFetch 0 2 1, .deleteRecords 1]

theorem watermarks_deletesCommitted :
    ∃ h h', Handle.openPartition firstOfTwo Storage.smallSegments ledPartition emptyHost = .ok h ∧
      PartitionOp.run firstOfTwo h deletesCommitted = some h' ∧
      h'.logStart = 1 ∧ h'.logStart ≤ h'.hwm ∧ h'.hwm ≤ h'.leo := by
  have hbounds : boundsAfter deletesCommitted = some (true, 1, 1, 2) := by decide +kernel
  obtain ⟨h, h', hopen, hsafe, hrun, hstart, -, -⟩ := boundsAfter_eq_some hbounds
  have hnames : ∀ base ∈ Storage.listSegmentBases emptyHost, base ≤ u64Max := by
    simp [Storage.listSegmentBases, emptyHost]
  exact ⟨h, h', hopen, hrun, hstart, watermarks_in_order hnames hopen hsafe hrun⟩

/-- The follower has fetched nothing yet, and the one record there is gets deleted: the log starts
above the high watermark. -/
theorem deleteRecords_passes_hwm :
    ∃ h h', Handle.openPartition firstOfTwo Storage.smallSegments ledPartition emptyHost = .ok h ∧
      PartitionOp.run firstOfTwo h [.produce [Storage.smallMessage] 1, .deleteRecords 1] = some h' ∧
      ¬ h'.logStart ≤ h'.hwm := by
  have hbounds : boundsAfter [.produce [Storage.smallMessage] 1, .deleteRecords 1] =
      some (false, 1, 0, 1) := by decide +kernel
  obtain ⟨h, h', hopen, -, hrun, hstart, hhwm, -⟩ := boundsAfter_eq_some hbounds
  exact ⟨h, h', hopen, hrun, by omega⟩

end Volant.Cluster
