-- SUMMARY: Every partition of the controller's assignment stays well formed; how leadership may move.
import Volant.Cluster.Controller

/-!
# The controller's invariant

`step` is one operation of the controller or a change of its surroundings: a
heartbeat may add any broker to its membership and the configured brokers may
change. `Evolves` says what one step may do to one partition; the invariant of
whole runs follows by induction.
-/

namespace Volant.Cluster

open List

structure PartitionAssignment.WellFormed (pa : PartitionAssignment) : Prop where
  replicas_ne : pa.replicas ≠ []
  replicas_nodup : pa.replicas.Nodup
  leader_mem : pa.leader ∈ pa.isr
  isr_nodup : pa.isr.Nodup
  isr_subset : ∀ id ∈ pa.isr, id ∈ pa.replicas

instance (pa : PartitionAssignment) : Decidable pa.WellFormed :=
  decidable_of_iff (pa.replicas ≠ [] ∧ pa.replicas.Nodup ∧ pa.leader ∈ pa.isr ∧ pa.isr.Nodup ∧
      ∀ id ∈ pa.isr, id ∈ pa.replicas)
    ⟨fun h => ⟨h.1, h.2.1, h.2.2.1, h.2.2.2.1, h.2.2.2.2⟩, fun h => ⟨h.1, h.2, h.3, h.4, h.5⟩⟩

/-- The operations of the controller, and what happens around them. -/
inductive Action where
  | createTopic (name : String) (partitions : Nat) (rfOverride : Option Nat)
  | createPartitions (name : String) (totalCount : Nat)
  | brokerDeath (deadId : Nat)
  | leaderIsrUpdate (topic : String) (partition leaderId leaderEpoch : Nat) (isr : List Nat)
  | reassign (topic : String) (partition : Nat) (replicas : List Nat)
  | electPreferred (topic : String) (partition : Nat)
  | heartbeats (membership : List Nat)
  | reconfigure (config : ClusterConfig)

namespace Controller

def step (c : Controller) : Action → Controller
  | .createTopic name partitions rf => (c.createTopic name partitions rf).2
  | .createPartitions name totalCount => (c.createPartitions name totalCount).2
  | .brokerDeath deadId => c.onBrokerDeath deadId
  | .leaderIsrUpdate topic partition leaderId leaderEpoch isr =>
    (c.applyLeaderIsrUpdate topic partition leaderId leaderEpoch isr).2
  | .reassign topic partition replicas => (c.reassignPartitions topic partition replicas).2
  | .electPreferred topic partition => (c.electPreferredLeader topic partition).2
  | .heartbeats membership => { c with membership }
  | .reconfigure config => { c with config }

/-- A controller without topics, and what its steps lead to. -/
inductive Reachable : Controller → Prop
  | start (c : Controller) : c.assignment.topics = ∅ → Reachable c
  | step {c : Controller} (a : Action) : Reachable c → Reachable (c.step a)

def partition? (c : Controller) (topic : String) (pid : Nat) : Option PartitionAssignment :=
  (c.assignment.topics.lookup topic).bind (·.partitions[pid]?)

/-- A reassignment left the old leader out, so the first new replica leads. -/
def Displaced (a : Action) (topic : String) (pa pa' : PartitionAssignment) : Prop :=
  ∃ partition replicas, a = .reassign topic partition replicas ∧ pa.leader ∉ pa'.replicas ∧
    pa'.replicas.head? = some pa'.leader

/-- What one step may do to one partition. -/
structure Evolves (a : Action) (topic : String) (pa pa' : PartitionAssignment) : Prop where
  wellFormed : pa.WellFormed → pa'.WellFormed
  epoch : pa'.leader ≠ pa.leader → pa'.leaderEpoch = saturatingSucc pa.leaderEpoch
  elected : pa'.leader ≠ pa.leader → pa'.leader ∈ pa.isr ∨ Displaced a topic pa pa'

/-- What one step may do to the assignment: partitions evolve, new ones are well formed. -/
def Steps (a : Action) (c c' : Controller) : Prop :=
  ∀ topic pid pa', c'.partition? topic pid = some pa' →
    (∃ pa, c.partition? topic pid = some pa ∧ Evolves a topic pa pa') ∨
      (c.partition? topic pid = none ∧ pa'.WellFormed)

variable {a : Action} {c c' : Controller} {topic : String} {pa pa' : PartitionAssignment}

theorem Evolves.refl : Evolves a topic pa pa :=
  ⟨id, absurd rfl, absurd rfl⟩

theorem Steps.of_topics (h : c'.assignment.topics = c.assignment.topics) : Steps a c c' := by
  intro topic pid pa' hpa'
  rw [partition?, h] at hpa'
  exact .inl ⟨pa', hpa', .refl⟩

theorem Steps.refl : Steps a c c := .of_topics rfl

/-- The change of one topic whose partitions evolve or are new. -/
theorem Steps.setTopic {ta ta' : TopicAssignment} (hta : c.assignment.topics.lookup topic = some ta)
    (hc' : c'.assignment.topics = c.assignment.topics.insert topic ta')
    (h : ∀ (pid : Nat) pa', ta'.partitions[pid]? = some pa' →
      (∃ pa, ta.partitions[pid]? = some pa ∧ Evolves a topic pa pa') ∨
        (ta.partitions[pid]? = none ∧ pa'.WellFormed)) : Steps a c c' := by
  intro t pid pa' hpa'
  rw [partition?, hc'] at hpa'
  by_cases ht : t = topic
  · subst ht
    rw [AList.lookup_insert] at hpa'
    simpa [partition?, hta] using h pid pa' hpa'
  · rw [AList.lookup_insert_ne ht] at hpa'
    exact .inl ⟨pa', hpa', .refl⟩

/-! ## One partition -/

/-- A new leader out of the in-sync set. -/
theorem Evolves.elect {live isr : List Nat} {newLeader : Nat}
    (hsub : ∀ id ∈ isr, id ∈ pa.isr) (hnodup : pa.isr.Nodup → isr.Nodup)
    (helect : electLeader pa.replicas isr live = some newLeader) :
    Evolves a topic pa { pa with
      leader := newLeader
      isr := if newLeader ∈ isr then isr else isr ++ [newLeader]
      leaderEpoch := saturatingSucc pa.leaderEpoch } := by
  have hmem : newLeader ∈ isr := (mem_of_electLeader helect).1
  rw [if_pos hmem]
  refine ⟨fun hwf => ?_, fun _ => rfl, fun _ => .inl (hsub newLeader hmem)⟩
  exact ⟨hwf.replicas_ne, hwf.replicas_nodup, hmem, hnodup hwf.isr_nodup,
    fun id hid => hwf.isr_subset id (hsub id hid)⟩

/-- A smaller in-sync set that keeps the leader. -/
theorem Evolves.isr {isr : List Nat} (hleader : pa.WellFormed → pa.leader ∈ isr)
    (hsub : pa.WellFormed → ∀ id ∈ isr, id ∈ pa.replicas)
    (hnodup : pa.WellFormed → isr.Nodup) : Evolves a topic pa { pa with isr } := by
  refine ⟨fun hwf => ?_, absurd rfl, absurd rfl⟩
  exact ⟨hwf.replicas_ne, hwf.replicas_nodup, hleader hwf, hnodup hwf, hsub hwf⟩

theorem partitionDeath_evolves (live : List Nat) (deadId : Nat) :
    Evolves a topic pa (partitionDeath live deadId pa).1 := by
  have hsub : ∀ id ∈ pa.isr.filter (· ∈ live), id ∈ pa.isr := fun id hid =>
    (mem_filter.mp hid).1
  have hkeep : pa.leader ∈ live → Evolves a topic pa { pa with isr := pa.isr.filter (· ∈ live) } := by
    intro hlive
    refine .isr (fun hwf => ?_) (fun hwf id hid => hwf.isr_subset id (hsub id hid))
      fun hwf => hwf.isr_nodup.filter _
    exact mem_filter.mpr ⟨hwf.leader_mem, decide_eq_true hlive⟩
  simp only [partitionDeath]
  split_ifs with hempty hlead
  · exact .refl
  · -- the leader is gone, and a live in-sync replica remains
    have hsome : pa.isr.filter (· ∈ live) ≠ [] := fun hnil => hempty (isEmpty_iff.mpr hnil)
    obtain ⟨id, hid⟩ := exists_mem_of_ne_nil _ hsome
    have hlive : id ∈ live := by simpa using (mem_filter.mp hid).2
    obtain ⟨newLeader, helect⟩ := Option.isSome_iff_exists.mp (electLeader_isSome hid hlive)
    rw [helect]
    by_cases hsame : pa.leader = newLeader
    · simp only [hsame, if_true]
      exact hsame ▸ hkeep (hsame ▸ (mem_of_electLeader helect).2)
    · simp only [hsame, if_false]
      exact .elect hsub (fun h => h.filter _) helect
  · exact hkeep (by tauto)

theorem reportedIsr_evolves {leaderId : Nat} {isr : List Nat} (h : pa.leader = leaderId) :
    Evolves a topic pa { pa with isr := reportedIsr leaderId pa.replicas isr } := by
  refine .isr (fun _ => ?_) (fun hwf id hid => ?_) fun _ => ?_
  · exact mem_foldl_pushNew.mpr (.inl (mem_singleton.mpr h))
  · rcases mem_foldl_pushNew.mp hid with hid | hid
    · obtain rfl : id = pa.leader := (mem_singleton.mp hid).trans h.symm
      exact hwf.isr_subset _ hwf.leader_mem
    · simpa using (mem_filter.mp hid).2
  · exact nodup_foldl_pushNew (nodup_singleton leaderId)

/-- A new replica list keeps the leader, or its first replica takes over. -/
theorem applyReplicaSet_evolves {partition : Nat} {replicas newReplicas : List Nat}
    (hne : newReplicas ≠ []) (hnodup : newReplicas.Nodup) :
    Evolves (.reassign topic partition replicas) topic pa (applyReplicaSet pa newReplicas) := by
  obtain ⟨first, rest, rfl⟩ := exists_cons_of_ne_nil hne
  have hleader : (applyReplicaSet pa (first :: rest)).leader ∈ first :: rest := by
    simp only [applyReplicaSet]
    split_ifs with hmem
    · exact hmem
    · exact mem_cons_self
  refine ⟨fun _ => ⟨hne, hnodup, ?_, ?_, fun id hid => ?_⟩, fun hmoved => ?_, fun hmoved => ?_⟩
  · exact mem_foldl_pushNew.mpr (.inl mem_cons_self)
  · exact nodup_foldl_pushNew (nodup_singleton _)
  · rcases mem_foldl_pushNew.mp hid with hid | hid
    · rw [mem_singleton.mp hid]
      exact hleader
    · exact of_decide_eq_true (mem_filter.mp hid).2
  · exact if_neg hmoved
  · refine .inr ⟨partition, replicas, rfl, ?_⟩
    by_cases hmem : pa.leader ∈ first :: rest
    · exact absurd (if_pos hmem) hmoved
    · exact ⟨hmem, congrArg some (if_neg hmem).symm⟩

theorem newPartition_wellFormed (nodeId : Nat) {replicas : List Nat} (hne : replicas ≠ [])
    (hnodup : replicas.Nodup) : (newPartition nodeId replicas).WellFormed := by
  obtain ⟨first, rest, rfl⟩ := exists_cons_of_ne_nil hne
  exact ⟨hne, hnodup, mem_cons_self, hnodup, fun _ h => h⟩

/-! ## One step -/

theorem steps_onBrokerDeath (c : Controller) (deadId : Nat) : Steps a c (c.onBrokerDeath deadId) := by
  have hmap : ∀ {live : List Nat} {c' : Controller}, c'.assignment.topics =
      Assoc.mapValues (fun _ => topicDeath live deadId) c.assignment.topics → Steps a c c' := by
    intro live c' htopics topic pid pa' hpa'
    rw [partition?, htopics, Assoc.lookup_mapValues] at hpa'
    cases hta : c.assignment.topics.lookup topic with
    | none => simp [hta] at hpa'
    | some ta =>
      simp only [hta, Option.map_some, Option.bind_some, topicDeath, getElem?_map,
        Option.map_eq_some_iff] at hpa'
      obtain ⟨pa, hpa, rfl⟩ := hpa'
      exact .inl ⟨pa, by simp [partition?, hta, hpa], partitionDeath_evolves live deadId⟩
  simp only [onBrokerDeath]
  split_ifs
  all_goals first | exact .of_topics rfl | exact hmap rfl

theorem steps_createTopic (c : Controller) (name : String) (partitions : Nat)
    (rfOverride : Option Nat) : Steps a c (c.createTopic name partitions rfOverride).2 := by
  simp only [createTopic, createTopicCluster]
  split_ifs with _ _ hexists
  · exact .refl
  · exact .refl
  · exact .refl
  · obtain ⟨sets, hsets, -, hall⟩ := assignReplicas_spec c.rackAware name partitions
      (max (min (rfOverride.getD c.config.defaultReplicationFactor) c.config.brokerIds.length) 1)
      c.config.brokers_ne
    rw [hsets]
    intro topic pid pa' hpa'
    simp only [partition?, bumpGeneration, setTopic] at hpa'
    by_cases ht : topic = name
    · subst ht
      rw [AList.lookup_insert, Option.bind_some, getElem?_map, Option.map_eq_some_iff] at hpa'
      obtain ⟨replicas, hreplicas, rfl⟩ := hpa'
      obtain ⟨hne, hnodup⟩ := hall replicas (mem_of_getElem? hreplicas)
      have hnone : c.assignment.topics.lookup topic = none := by
        cases hlookup : c.assignment.topics.lookup topic with
        | none => rfl
        | some ta => simp [hlookup] at hexists
      exact .inr ⟨by simp [partition?, hnone], newPartition_wellFormed _ hne hnodup⟩
    · rw [AList.lookup_insert_ne ht] at hpa'
      exact .inl ⟨pa', hpa', .refl⟩

/-- Every partition that is added is well formed. -/
theorem mapM_addedPartition {c : Controller} {name : String} {rf : Nat} {pids : List Nat}
    {added : List PartitionAssignment} (h : pids.mapM (c.addedPartition name rf) = some added) :
    ∀ pa ∈ added, pa.WellFormed := by
  induction pids generalizing added with
  | nil =>
    cases h
    simp
  | cons pid rest ih =>
    simp only [mapM_cons, Option.bind_eq_bind, Option.bind_eq_some_iff, Option.pure_def,
      Option.some.injEq] at h
    obtain ⟨pa, hpa, more, hmore, rfl⟩ := h
    intro pa' hpa'
    rcases mem_cons.mp hpa' with rfl | hpa'
    · obtain ⟨sets, hsets, hlen, hall⟩ := assignReplicas_spec c.rackAware s!"{name}#{pid}" 1
        rf c.config.brokers_ne
      obtain ⟨replicas, rfl⟩ := length_eq_one_iff.mp hlen
      rw [addedPartition, hsets] at hpa
      cases hpa
      obtain ⟨hne, hnodup⟩ := hall replicas mem_cons_self
      exact newPartition_wellFormed _ hne hnodup
    · exact ih hmore pa' hpa'

theorem steps_createPartitions (c : Controller) (name : String) (totalCount : Nat) :
    Steps a c (c.createPartitions name totalCount).2 := by
  simp only [createPartitions]
  split_ifs
  · exact .refl
  · exact .refl
  · cases hta : c.assignment.topics.lookup name with
    | none => exact .refl
    | some ta =>
      simp only
      split_ifs
      · exact .refl
      · split
        · exact .refl
        · rename_i added hadded
          refine .setTopic hta rfl fun pid pa' hpa' => ?_
          by_cases hold : pid < ta.partitions.length
          · rw [getElem?_append_left hold] at hpa'
            exact .inl ⟨pa', hpa', .refl⟩
          · rw [getElem?_append_right (by omega)] at hpa'
            exact .inr ⟨by simpa using hold,
              mapM_addedPartition hadded pa' (mem_of_getElem? hpa')⟩

/-- The change of a single partition. -/
theorem Steps.setPartition {ta : TopicAssignment} {pid : Nat}
    (hta : c.assignment.topics.lookup topic = some ta) (hpa : ta.partitions[pid]? = some pa)
    (hc' : c'.assignment.topics = c.assignment.topics.insert topic
      { ta with partitions := ta.partitions.set pid pa' })
    (h : Evolves a topic pa pa') : Steps a c c' := by
  refine .setTopic hta hc' fun pid' pa'' hpa'' => .inl ?_
  by_cases hpid : pid = pid'
  · subst hpid
    have hlt : pid < ta.partitions.length := (List.getElem?_eq_some_iff.mp hpa).1
    rw [getElem?_set_self hlt] at hpa''
    exact ⟨pa, hpa, Option.some.inj hpa'' ▸ h⟩
  · rw [getElem?_set_ne hpid] at hpa''
    exact ⟨pa'', hpa'', .refl⟩

theorem steps_applyLeaderIsrUpdate (c : Controller) (topic : String)
    (partition leaderId leaderEpoch : Nat) (isr : List Nat) :
    Steps a c (c.applyLeaderIsrUpdate topic partition leaderId leaderEpoch isr).2 := by
  simp only [applyLeaderIsrUpdate]
  split_ifs
  · exact .refl
  · exact .refl
  · exact .refl
  · cases hta : c.assignment.topics.lookup topic with
    | none => exact .refl
    | some ta =>
      cases hpa : ta.partitions[partition]? with
      | none =>
        simp only [hpa]
        exact .refl
      | some pa =>
        simp only [hpa]
        split_ifs with hleader
        · exact .refl
        · exact .refl
        · exact .refl
        · exact .setPartition hta hpa rfl (reportedIsr_evolves (not_not.mp hleader))

theorem steps_electPreferredLeader (c : Controller) (topic : String) (partition : Nat) :
    Steps a c (c.electPreferredLeader topic partition).2 := by
  simp only [electPreferredLeader]
  split_ifs
  · exact .refl
  · cases hta : c.assignment.topics.lookup topic with
    | none => exact .refl
    | some ta =>
      cases hpa : ta.partitions[partition]? with
      | none =>
        simp only [hpa]
        exact .refl
      | some pa =>
        cases helect : electLeader pa.replicas pa.isr c.liveBrokers with
        | none =>
          simp only [hpa, helect]
          exact .refl
        | some newLeader =>
          simp only [hpa, helect]
          split
          · exact .refl
          · exact .setPartition hta hpa rfl (.elect (fun _ h => h) id helect)

theorem normalizeReplicaList_some {replicas ids : List Nat}
    (h : normalizeReplicaList replicas = some ids) : ids ≠ [] ∧ ids.Nodup := by
  unfold normalizeReplicaList at h
  split_ifs at h with hempty
  cases h
  obtain ⟨id, hid⟩ := exists_mem_of_ne_nil replicas (by simpa using hempty)
  refine ⟨?_, nodup_foldl_pushNew nodup_nil⟩
  exact ne_nil_of_mem (mem_foldl_pushNew.mpr (.inr hid))

/-- The replica list that a reassigned partition gets has brokers, each once. -/
theorem reassigned_replicas {replicas : List Nat} {rf n pid : Nat} {sets : List (List Nat)}
    (hsets : c.autoSets topic (normalizeReplicaList replicas) n rf = some sets) (hpid : pid < n) :
    ((normalizeReplicaList replicas).getD (sets.getD pid [])) ≠ [] ∧
      ((normalizeReplicaList replicas).getD (sets.getD pid [])).Nodup := by
  cases hexplicit : normalizeReplicaList replicas with
  | some ids => exact normalizeReplicaList_some hexplicit
  | none =>
    rw [hexplicit] at hsets
    obtain ⟨sets', hsets', hlen, hall⟩ := assignReplicas_spec c.rackAware topic n rf
      c.config.brokers_ne
    have hplaced : some sets' = some sets := hsets'.symm.trans hsets
    cases hplaced
    have hlt : pid < sets.length := by omega
    rw [getD_eq_getElem _ _ hlt]
    exact hall _ (getElem_mem hlt)

theorem steps_reassignPartitions (c : Controller) (topic : String) (partition : Nat)
    (replicas : List Nat) : Steps (.reassign topic partition replicas) c
      (c.reassignPartitions topic partition replicas).2 := by
  simp only [reassignPartitions]
  split_ifs
  · exact .refl
  · cases hta : c.assignment.topics.lookup topic with
    | none => exact .refl
    | some ta =>
      simp only
      split
      · exact .refl
      · split_ifs
        · exact .refl
        · exact .refl
        · split
          · exact .refl
          · rename_i sets hsets
            refine .setTopic hta rfl fun pid pa' hpa' => .inl ?_
            simp only [reassigned, getElem?_mapIdx, Option.map_eq_some_iff] at hpa'
            obtain ⟨pa, hpa, rfl⟩ := hpa'
            refine ⟨pa, hpa, ?_⟩
            split_ifs
            · obtain ⟨hne, hnodup⟩ := reassigned_replicas hsets
                (List.getElem?_eq_some_iff.mp hpa).1
              exact applyReplicaSet_evolves hne hnodup
            · exact .refl

theorem steps_step (c : Controller) (a : Action) : Steps a c (c.step a) := by
  cases a with
  | createTopic name partitions rf => exact steps_createTopic c name partitions rf
  | createPartitions name totalCount => exact steps_createPartitions c name totalCount
  | brokerDeath deadId => exact steps_onBrokerDeath c deadId
  | leaderIsrUpdate topic partition leaderId leaderEpoch isr =>
    exact steps_applyLeaderIsrUpdate c topic partition leaderId leaderEpoch isr
  | reassign topic partition replicas => exact steps_reassignPartitions c topic partition replicas
  | electPreferred topic partition => exact steps_electPreferredLeader c topic partition
  | heartbeats membership => exact .of_topics rfl
  | reconfigure config => exact .of_topics rfl

/-! ## Runs -/

theorem Reachable.wellFormed (h : Reachable c) {pid : Nat} (hpa : c.partition? topic pid = some pa) :
    pa.WellFormed := by
  induction h generalizing topic pid pa with
  | start c hempty => simp [partition?, hempty] at hpa
  | step a _ ih =>
    rcases steps_step _ a topic pid pa hpa with ⟨old, hold, hevolves⟩ | ⟨-, hwf⟩
    · exact hevolves.wellFormed (ih hold)
    · exact hwf

theorem lt_saturatingSucc {n : Nat} (h : n < 2 ^ 32 - 1) : n < saturatingSucc n := by
  unfold saturatingSucc
  omega

/-- Every partition stays well formed. Leadership moves with a new epoch, as long as the epoch is
below its maximum, and to an in-sync replica, except in a reassignment without the old leader,
where it moves to the first replica of the new list. -/
theorem assignment_stays_well_formed (h : Reachable c) :
    (∀ topic pid pa, c.partition? topic pid = some pa → pa.WellFormed) ∧
      ∀ a topic pid pa pa', c.partition? topic pid = some pa →
        (c.step a).partition? topic pid = some pa' → pa'.leader ≠ pa.leader →
        (pa.leaderEpoch < 2 ^ 32 - 1 → pa.leaderEpoch < pa'.leaderEpoch) ∧
          (pa'.leader ∈ pa.isr ∨ Displaced a topic pa pa') := by
  refine ⟨fun topic pid pa hpa => h.wellFormed hpa, ?_⟩
  intro a topic pid pa pa' hpa hpa' hmoved
  rcases steps_step c a topic pid pa' hpa' with ⟨old, hold, hevolves⟩ | ⟨hnone, -⟩
  · obtain rfl : old = pa := Option.some.inj (hold.symm.trans hpa)
    refine ⟨fun hmax => ?_, hevolves.elected hmoved⟩
    rw [hevolves.epoch hmoved]
    exact lt_saturatingSucc hmax
  · rw [hpa] at hnone
    cases hnone

/-! ## Runs on three brokers -/

def threeBrokers : Controller :=
  { nodeId := 1
    config := ⟨[⟨1, none⟩, ⟨2, none⟩, ⟨3, none⟩], by decide, 2⟩
    rackAware := true
    membership := [1, 2, 3]
    assignment := ⟨0, ∅⟩
    nextTopicId := 1
    topics := [] }

/-- A topic with one partition on two of the brokers. -/
def oneTopic : Controller := threeBrokers.step (.createTopic "t" 1 none)

theorem reachable_oneTopic : Reachable oneTopic :=
  (Reachable.start threeBrokers rfl).step (.createTopic "t" 1 none)

/-- The partition has moved to brokers 3 and 1, and 3 has joined the in-sync set. -/
def readyToElect : Controller :=
  (oneTopic.step (.reassign "t" 0 [3, 1])).step (.leaderIsrUpdate "t" 0 1 0 [1, 3])

theorem preferred_election_in_new_epoch : ∃ pa pa', readyToElect.partition? "t" 0 = some pa ∧
      (readyToElect.step (.electPreferred "t" 0)).partition? "t" 0 = some pa' ∧
      pa.leader = 1 ∧ pa'.leader = 3 ∧ pa.leaderEpoch < pa'.leaderEpoch := by
  have hreach : Reachable readyToElect := (reachable_oneTopic.step _).step _
  have hold : readyToElect.partition? "t" 0 = some ⟨[3, 1], 1, [1, 3], 0⟩ := by decide +kernel
  have hnew : (readyToElect.step (.electPreferred "t" 0)).partition? "t" 0 =
      some ⟨[3, 1], 3, [1, 3], 1⟩ := by decide +kernel
  exact ⟨_, _, hold, hnew, rfl, rfl,
    ((assignment_stays_well_formed hreach).2 _ _ _ _ _ hold hnew (by decide)).1 (by decide)⟩

/-- The partition is on one broker alone. -/
structure Alone (c : Controller) (epoch id : Nat) : Prop where
  isController : c.isController = true
  brokers : 1 ∈ c.config.brokerIds ∧ 2 ∈ c.config.brokerIds
  lookup : c.assignment.topics.lookup "t" = some ⟨1, [⟨[id], id, [id], epoch⟩]⟩

theorem Alone.partition {epoch id : Nat} (h : Alone c epoch id) :
    c.partition? "t" 0 = some ⟨[id], id, [id], epoch⟩ := by
  rw [partition?, h.lookup]
  rfl

theorem Alone.reassign {epoch id id' : Nat} (h : Alone c epoch id) (hid : id' = 1 ∨ id' = 2)
    (hne : id' ≠ id) : Alone (c.step (.reassign "t" 0 [id'])) (saturatingSucc epoch) id' := by
  have hmem : id' ∈ c.config.brokerIds := by
    rcases hid with rfl | rfl
    · exact h.brokers.1
    · exact h.brokers.2
  have hstep : c.step (.reassign "t" 0 [id']) =
      (c.setTopic "t" ⟨1, [⟨[id'], id', [id'], saturatingSucc epoch⟩]⟩).bumpGeneration := by
    simp [step, reassignPartitions, h.isController, h.lookup, normalizeReplicaList, pushNew,
      validateReplicasInMembership, hmem, autoSets, reassigned, applyReplicaSet,
      reassignAllPartitions, hne, hne.symm]
  rw [hstep]
  exact ⟨h.isController, h.brokers, AList.lookup_insert _⟩

/-- Reassignments to and fro take the epoch to its maximum. -/
theorem reachable_alone (epoch : Nat) (h : epoch < 2 ^ 32) :
    ∃ c id, Reachable c ∧ Alone c epoch id ∧ (id = 1 ∨ id = 2) := by
  induction epoch with
  | zero =>
    exact ⟨_, 1, reachable_oneTopic.step (.reassign "t" 0 [1]),
      ⟨by decide +kernel, by decide +kernel, by decide +kernel⟩, .inl rfl⟩
  | succ epoch ih =>
    obtain ⟨c, id, hreach, halone, hid⟩ := ih (by omega)
    have hsucc : saturatingSucc epoch = epoch + 1 := by
      unfold saturatingSucc
      omega
    have hother : 3 - id = 1 ∨ 3 - id = 2 := by omega
    have hnext := halone.reassign hother (by omega)
    exact ⟨_, 3 - id, hreach.step _, hsucc ▸ hnext, hother⟩

/-- Broker 3 has no records and is not in sync; a reassignment to brokers 3 and 2 makes it the
leader although broker 2 is in sync. And when the epoch has reached its maximum, leadership moves
in the same epoch. -/
theorem reassignment_elects_out_of_sync_replica :
    (Reachable oneTopic ∧ ∃ pa pa', oneTopic.partition? "t" 0 = some pa ∧
      (oneTopic.step (.reassign "t" 0 [3, 2])).partition? "t" 0 = some pa' ∧
      pa'.leader ≠ pa.leader ∧ pa'.leader ∉ pa.isr) ∧
    ∃ c a pa pa', Reachable c ∧ c.partition? "t" 0 = some pa ∧
      (c.step a).partition? "t" 0 = some pa' ∧ pa'.leader ≠ pa.leader ∧
      pa'.leaderEpoch = pa.leaderEpoch := by
  have hold : oneTopic.partition? "t" 0 = some ⟨[1, 2], 1, [1, 2], 0⟩ := by decide +kernel
  have hnew : (oneTopic.step (.reassign "t" 0 [3, 2])).partition? "t" 0 =
      some ⟨[3, 2], 3, [3, 2], 1⟩ := by decide +kernel
  refine ⟨⟨reachable_oneTopic, _, _, hold, hnew, by decide, by decide⟩, ?_⟩
  obtain ⟨c, id, hreach, halone, hid⟩ := reachable_alone (2 ^ 32 - 1) (by decide)
  have hother : 3 - id ≠ id := by omega
  have hnext := halone.reassign (by omega) hother
  exact ⟨c, .reassign "t" 0 [3 - id], _, _, hreach, halone.partition, hnext.partition, hother, rfl⟩

end Controller

end Volant.Cluster
