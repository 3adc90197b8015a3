-- SUMMARY: The controller's assignment: topic creation, broker death, ISR reports, reassignment, election.
import Volant.Base.Assoc
import Volant.Cluster.Isr
import Volant.Cluster.Placement

/-!
# The controller

The operations of the controller on the cluster assignment. A step of the
controller holds the assignment lock, so steps are atomic; the file that keeps
the assignment is replaced in each of them and those writes succeed. Partition
ids of a topic are `0, 1, ..., n - 1`, so its partitions are a list.

The invariant is `PartitionAssignment.WellFormed`, on every partition of every
topic. What a step may do to one partition is `Evolves`: leadership moves only
with a new epoch, and only inside the in-sync set, except in a reassignment
that leaves the leader out of the new replica list.
-/

namespace Volant.Cluster

structure PartitionAssignment where
  /-- The preferred leader comes first. -/
  replicas : List Nat
  leader : Nat
  isr : List Nat
  leaderEpoch : Nat
deriving DecidableEq, Repr

structure TopicAssignment where
  topicId : Nat
  partitions : List PartitionAssignment
deriving DecidableEq, Repr

structure AssignmentSnapshot where
  generation : Nat
  topics : AList fun _ : String => TopicAssignment

/-- `saturating_add(1)` on 32 bits. -/
def saturatingSucc (n : Nat) : Nat := min (n + 1) (2 ^ 32 - 1)

/-- A configuration that was loaded: it lists at least one broker. -/
structure ClusterConfig where
  brokers : List BrokerEntry
  brokers_ne : brokers ≠ []
  defaultReplicationFactor : Nat

def ClusterConfig.brokerIds (cfg : ClusterConfig) : List Nat :=
  (cfg.brokers.map (·.id)).insertionSort (· ≤ ·)

/-- What the controller's operations read and write. -/
structure Controller where
  nodeId : Nat
  config : ClusterConfig
  /-- The environment switch for placement over racks. -/
  rackAware : Bool
  /-- Brokers with a current heartbeat. -/
  membership : List Nat
  assignment : AssignmentSnapshot
  nextTopicId : Nat
  /-- Topics with local partitions. -/
  topics : List String

namespace Controller

variable (c : Controller)

def liveBrokers : List Nat := sortDedup c.membership

def controllerId : Nat := c.liveBrokers.headD c.nodeId

def isController : Bool := decide (c.controllerId = c.nodeId)

/-- The controller with a changed topic. -/
def setTopic (name : String) (ta : TopicAssignment) : Controller :=
  { c with assignment.topics := c.assignment.topics.insert name ta }

/-- The controller with the next generation of its assignment. -/
def bumpGeneration : Controller :=
  { c with assignment.generation := saturatingSucc c.assignment.generation }

def notController : Error :=
  .invalidArgument s!"not controller; controller_id={c.controllerId}"

/-! ## Topics -/

/-- A partition of a new topic: everybody is in sync, the first replica leads. -/
def newPartition (nodeId : Nat) (replicas : List Nat) : PartitionAssignment :=
  { replicas, leader := replicas.headD nodeId, isr := replicas, leaderEpoch := 0 }

def createTopicCluster (name : String) (partitions : Nat)
    (rfOverride : Option Nat) : Except Error Nat × Controller :=
  if name ∈ c.topics ∨ (c.assignment.topics.lookup name).isSome then
    (.error (.invalidArgument s!"topic already exists: {name}"), c)
  else
    let rf := max (min (rfOverride.getD c.config.defaultReplicationFactor)
      c.config.brokerIds.length) 1
    match assignReplicas c.rackAware name partitions c.config.brokers rf with
    | none => (.error (.invalidArgument "brokers must not be empty"), c)
    | some sets =>
      let id := c.nextTopicId
      let ta := { topicId := id, partitions := sets.map (newPartition c.nodeId) }
      (.ok id, { c.bumpGeneration.setTopic name ta with
        nextTopicId := id + 1, topics := name :: c.topics })

/-- The admin request. -/
def createTopic (name : String) (partitions : Nat) (rfOverride : Option Nat) :
    Except Error Nat × Controller :=
  if partitions = 0 then
    (.error (.invalidArgument "topic must have at least one partition"), c)
  else if !c.isController then (.error c.notController, c)
  else c.createTopicCluster name partitions rfOverride

/-- The replica list of one added partition; its id seeds the placement. -/
def addedPartition (name : String) (rf pid : Nat) : Option PartitionAssignment :=
  (assignReplicas c.rackAware s!"{name}#{pid}" 1 c.config.brokers rf).map fun sets =>
    newPartition c.nodeId (sets.headD [c.nodeId])

def createPartitions (name : String) (totalCount : Nat) : Except Error Nat × Controller :=
  if totalCount = 0 then
    (.error (.invalidArgument "total partition count must be at least 1"), c)
  else if !c.isController then (.error c.notController, c)
  else
    match c.assignment.topics.lookup name with
    | none => (.error (.notFound s!"topic {name}"), c)
    | some ta =>
      let current := ta.partitions.length
      if totalCount ≤ current then
        (.error (.invalidArgument
          s!"total_count {totalCount} must be greater than current {current}"), c)
      else
        let rf := max (min c.config.defaultReplicationFactor c.config.brokerIds.length) 1
        match (List.range' current (totalCount - current)).mapM (c.addedPartition name rf) with
        | none => (.error (.invalidArgument "brokers must not be empty"), c)
        | some added =>
          let ta := { ta with partitions := ta.partitions ++ added }
          (.ok totalCount, (c.setTopic name ta).bumpGeneration)

/-! ## Broker death and ISR reports -/

/-- One partition after a broker has died, and whether it changed. -/
def partitionDeath (live : List Nat) (deadId : Nat) (pa : PartitionAssignment) :
    PartitionAssignment × Bool :=
  let isr := pa.isr.filter (· ∈ live)
  -- without a live member the last known set stays
  if isr.isEmpty then (pa, false)
  else
    let changed := decide (isr.length ≠ pa.isr.length)
    if pa.leader = deadId ∨ pa.leader ∉ live then
      match electLeader pa.replicas isr live with
      | none => ({ pa with isr }, changed)
      | some newLeader =>
        if pa.leader = newLeader then ({ pa with isr }, changed)
        else
          ({ pa with
              leader := newLeader
              isr := if newLeader ∈ isr then isr else isr ++ [newLeader]
              leaderEpoch := saturatingSucc pa.leaderEpoch }, true)
    else ({ pa with isr }, changed)

/-- A topic after a broker has died. -/
def topicDeath (live : List Nat) (deadId : Nat) (ta : TopicAssignment) : TopicAssignment :=
  { ta with partitions := ta.partitions.map fun pa => (partitionDeath live deadId pa).1 }

/-- The assignment part of `on_broker_death`. -/
def onBrokerDeath (deadId : Nat) : Controller :=
  let c := { c with membership :=
    if deadId = c.nodeId then c.membership else c.membership.filter (· ≠ deadId) }
  if !c.isController then c
  else
    let live := c.liveBrokers
    let changed := (Assoc.values c.assignment.topics).any fun ta =>
      ta.partitions.any fun pa => (partitionDeath live deadId pa).2
    let topics := Assoc.mapValues (fun _ => topicDeath live deadId) c.assignment.topics
    let c := { c with assignment.topics := topics }
    if changed then c.bumpGeneration else c

inductive IsrUpdateError where
  | ok
  | notController
  | invalidArg
  | notFound
  | notLeaderForPartition
  | invalidProducerEpoch
deriving DecidableEq, Repr

/-- The reported set, cut down to replicas, with the leader first. -/
def reportedIsr (leaderId : Nat) (replicas isr : List Nat) : List Nat :=
  (isr.filter (· ∈ replicas)).foldl pushNew [leaderId]

def applyLeaderIsrUpdate (topic : String) (partition leaderId leaderEpoch : Nat)
    (isr : List Nat) : (IsrUpdateError × Nat) × Controller :=
  let answer (e : IsrUpdateError) := ((e, c.assignment.generation), c)
  if !c.isController then answer .notController
  else if topic.isEmpty then answer .invalidArg
  else if isr.isEmpty ∨ leaderId ∉ isr then answer .invalidArg
  else
    match c.assignment.topics.lookup topic with
    | none => answer .notFound
    | some ta =>
      match ta.partitions[partition]? with
      | none => answer .notFound
      | some pa =>
        if pa.leader ≠ leaderId then answer .notLeaderForPartition
        else if leaderEpoch < pa.leaderEpoch then answer .invalidProducerEpoch
        else
          let newIsr := reportedIsr leaderId pa.replicas isr
          if pa.isr = newIsr then answer .ok
          else
            let ta := { ta with partitions := ta.partitions.set partition { pa with isr := newIsr } }
            let c := (c.setTopic topic ta).bumpGeneration
            ((.ok, c.assignment.generation), c)

/-! ## Reassignment and preferred leaders -/

/-- `u32::MAX` stands for every partition. -/
def reassignAllPartitions : Nat := 2 ^ 32 - 1

/-- The requested replicas, each once; `none` asks for a placement. -/
def normalizeReplicaList (replicas : List Nat) : Option (List Nat) :=
  if replicas.isEmpty then none else some (replicas.foldl pushNew [])

def validateReplicasInMembership (replicas memberIds : List Nat) : Except Error Unit :=
  match replicas.find? (· ∉ memberIds) with
  | some id => .error (.invalidArgument s!"replica id {id} is not in membership")
  | none => .ok ()

/-- The leader stays if the new set has it, otherwise the first new replica leads. Of the in-sync
set only members of the new set stay. -/
def applyReplicaSet (pa : PartitionAssignment) (newReplicas : List Nat) : PartitionAssignment :=
  let newLeader := if pa.leader ∈ newReplicas then pa.leader else newReplicas.headD 0
  { replicas := newReplicas
    leader := newLeader
    isr := (pa.isr.filter (· ∈ newReplicas)).foldl pushNew [newLeader]
    leaderEpoch := if newLeader = pa.leader then pa.leaderEpoch else saturatingSucc pa.leaderEpoch }

/-- The requested partitions with the requested or placed replicas. -/
def reassigned (partition : Nat) (explicit : Option (List Nat)) (sets : List (List Nat))
    (ta : TopicAssignment) : TopicAssignment :=
  { ta with
    partitions := ta.partitions.mapIdx fun pid pa =>
      if partition = reassignAllPartitions ∨ partition = pid then
        applyReplicaSet pa (explicit.getD (sets.getD pid []))
      else pa }

/-- The placement for a request that names no replicas. -/
def autoSets (topic : String) (explicit : Option (List Nat)) (nParts rf : Nat) :
    Option (List (List Nat)) :=
  if explicit.isSome then some []
  else assignReplicas c.rackAware topic nParts c.config.brokers rf

def reassignPartitions (topic : String) (partition : Nat) (replicas : List Nat) :
    Except Error Nat × Controller :=
  if !c.isController then (.error c.notController, c)
  else
    match c.assignment.topics.lookup topic with
    | none => (.error (.notFound s!"topic {topic}"), c)
    | some ta =>
      let rf := max (min c.config.defaultReplicationFactor c.config.brokerIds.length) 1
      let explicit := normalizeReplicaList replicas
      match validateReplicasInMembership (explicit.getD []) c.config.brokerIds with
      | .error e => (.error e, c)
      | .ok () =>
        let nParts := ta.partitions.length
        if nParts = 0 then (.error (.notFound s!"topic {topic}"), c)
        else if partition ≠ reassignAllPartitions ∧ nParts ≤ partition then
          (.error (.invalidArgument
            s!"partition {partition} out of range (topic {topic} has {nParts})"), c)
        else
          match c.autoSets topic explicit nParts rf with
          | none => (.error (.invalidArgument "brokers must not be empty"), c)
          | some sets =>
            let c := (c.setTopic topic (reassigned partition explicit sets ta)).bumpGeneration
            (.ok c.assignment.generation, c)

def electPreferredLeader (topic : String) (partition : Nat) : Except Error Nat × Controller :=
  if !c.isController then (.error c.notController, c)
  else
    match c.assignment.topics.lookup topic with
    | none => (.error (.notFound s!"topic {topic}"), c)
    | some ta =>
      match ta.partitions[partition]? with
      | none => (.error (.notFound s!"partition {topic}/{partition}"), c)
      | some pa =>
        match electLeader pa.replicas pa.isr c.liveBrokers with
        | none => (.error (.invalidArgument "eligible leaders not available"), c)
        | some newLeader =>
          if pa.leader = newLeader then (.ok c.assignment.generation, c)
          else
            let pa := { pa with
              leader := newLeader
              isr := if newLeader ∈ pa.isr then pa.isr else pa.isr ++ [newLeader]
              leaderEpoch := saturatingSucc pa.leaderEpoch }
            let ta := { ta with partitions := ta.partitions.set partition pa }
            let c := (c.setTopic topic ta).bumpGeneration
            (.ok c.assignment.generation, c)

end Controller

end Volant.Cluster
