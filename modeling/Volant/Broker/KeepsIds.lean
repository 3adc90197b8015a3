-- SUMMARY: The producer identities of a broker, and the operations that leave them alone.
import Volant.Broker.History

/-!
# Producer identities

A producer id has an epoch and perhaps a transactional id. Most operations
leave these alone, and write the producer file, if at all, with the identities
that are in memory.
-/

namespace Volant.Broker

/-- The transactional id of an InitProducerId. -/
def Op.initialised : Op → Option String
  | .initProducerId id _ _ _ => some id
  | _ => none

/-- The operations that may name a producer. -/
def Op.names : Op → Bool
  | .initProducerId _ _ _ _ => true
  | .endTxn _ _ _ _ => true
  | _ => false

/-- What decides who may speak for a producer. -/
def Producer.identity (p : Producer) : Nat × String := (p.epoch, p.transactionalId)

namespace State

variable {s s' : State}

/-- The identity of a producer id. -/
def identityOf (s : State) (pid : Nat) : Option (Nat × String) :=
  (s.producers.lookup pid).map (·.identity)

/-- The producer file, as a restart reads it. -/
def producerFile (s : State) : ProducerFile :=
  s.producersFile.getD { nextId := 1, producers := ∅ }

/-- The file holds the identities of memory. -/
def FileHolds (s : State) (file : ProducerFile) : Prop :=
  file.nextId = s.nextProducerId ∧
    ∀ pid, (file.producers.lookup pid).map (·.identity) = s.identityOf pid

/-! ## Operations that leave the identities alone -/

structure KeepsIds (s s' : State) : Prop where
  identities : s'.identityOf = s.identityOf
  transactionalIds : s'.transactionalIds = s.transactionalIds
  nextProducerId : s'.nextProducerId = s.nextProducerId
  file : s'.producersFile = s.producersFile ∨ s'.FileHolds s'.producerFile
  prepared : ∀ e ∈ s'.preparedTxns.entries, e ∈ s.preparedTxns.entries
  preparedFile : ∀ p ∈ s'.preparedFile.getD [], p ∈ s.preparedFile.getD [] ∨
    ∃ e ∈ s.preparedTxns.entries, e.2 = p

theorem KeepsIds.refl (s : State) : KeepsIds s s :=
  ⟨rfl, rfl, rfl, .inl rfl, fun _ he => he, fun _ hp => .inl hp⟩

/-- Everything that names no producer may change. -/
theorem KeepsIds.others (s : State) {config : Config} {nowMs : Int}
    {partitions : TopicPartition → Option Partition} {openTxns : AList fun _ : Nat => OpenTxn}
    {abortedTxns : TopicPartition → List AbortedMarker} {abortableProducers : List Nat}
    {markersFile : Option MarkersFile} {offsets : OffsetKey → Option CommittedOffset}
    {trace : List (DurableStep × Disk)} {origins : TopicPartition → List Origin}
    {nextSerial : Nat} {committed : List Nat} :
    KeepsIds s { s with
      config, nowMs, partitions, openTxns, abortedTxns, abortableProducers, markersFile, offsets
      trace, origins, nextSerial, committed } :=
  ⟨rfl, rfl, rfl, .inl rfl, fun _ he => he, fun _ hp => .inl hp⟩

theorem FileHolds.congr {file : ProducerFile} (h : s.FileHolds file)
    (hids : s'.identityOf = s.identityOf) (hnext : s'.nextProducerId = s.nextProducerId) :
    s'.FileHolds file := by
  unfold FileHolds
  rw [hids, hnext]
  exact h

theorem KeepsIds.trans {s'' : State} (h : KeepsIds s s') (h' : KeepsIds s' s'') :
    KeepsIds s s'' := by
  refine ⟨h'.1.trans h.1, h'.2.trans h.2, h'.3.trans h.3, ?_, fun e he => h.5 e (h'.5 e he),
    fun p hp => ?_⟩
  · rcases h'.file with heq | hholds
    · refine h.file.imp (heq.trans) fun hholds => ?_
      have hfile : s''.producerFile = s'.producerFile := by rw [producerFile, heq, producerFile]
      rw [hfile]
      exact hholds.congr h'.identities h'.nextProducerId
    · exact .inr hholds
  · rcases h'.preparedFile p hp with hp | ⟨e, he, rfl⟩
    · exact h.preparedFile p hp
    · exact .inr ⟨e, h.prepared e he, rfl⟩

theorem keepsIds_persistPreparedTxns (s : State) : KeepsIds s s.persistPreparedTxns := by
  refine ⟨rfl, rfl, rfl, .inl rfl, fun _ he => he, fun p hp => ?_⟩
  obtain ⟨e, he, rfl⟩ := List.mem_map.mp (hp : p ∈ s.preparedSnapshot)
  exact .inr ⟨e, he, rfl⟩

/-- Prepared transactions taken out of their map. -/
theorem KeepsIds.takePrepared {preparedTxns : AList fun _ : String => PreparedTxn}
    (h : ∀ e ∈ preparedTxns.entries, e ∈ s.preparedTxns.entries) :
    KeepsIds s { s with preparedTxns } :=
  ⟨rfl, rfl, rfl, .inl rfl, h, fun _ hp => .inl hp⟩

theorem frame_keepsIds : Frame KeepsIds :=
  ⟨.refl, .trans, fun s _ _ _ _ _ _ => .others s, fun s _ _ => .others s,
    keepsIds_persistPreparedTxns⟩

theorem keepsIds_expireTimedOutTxns (s : State) : KeepsIds s s.expireTimedOutTxns := by
  have htake (s : State) : KeepsIds s { s with preparedTxns := s.unexpiredPreparedTxns } :=
    .takePrepared fun e he => Assoc.mem_of_mem_foldl_erase _ _ _ he
  exact ((KeepsIds.others s).trans (frame_keepsIds.expireTimedOutOpenTxns s)).trans
    ((htake _).trans (frame_keepsIds.expireTimedOutPreparedTxns _))

/-- A finished batch changes the sequence numbers of its producer only. -/
theorem keepsIds_recordIdempotentProduce (s : State) (pid epoch : Nat) (tp : TopicPartition)
    (baseSequence : Int) (count baseOffset : Nat) :
    KeepsIds s (s.recordIdempotentProduce pid epoch tp baseSequence count baseOffset) := by
  unfold recordIdempotentProduce
  split
  · exact .refl s
  · split
    · exact .refl s
    next prod hprod =>
      split
      · exact .refl s
      · refine ⟨?_, rfl, rfl, .inr ⟨rfl, fun _ => rfl⟩, fun _ he => he, fun _ hp => .inl hp⟩
        funext pid'
        unfold identityOf
        rcases eq_or_ne pid' pid with rfl | hne
        · simp [persistProducerState, durable, hprod, Producer.identity]
        · simp [persistProducerState, durable, AList.lookup_insert_ne hne]

theorem keepsIds_persistProducerState (s : State) : KeepsIds s s.persistProducerState :=
  ⟨rfl, rfl, rfl, .inr ⟨rfl, fun _ => rfl⟩, fun _ he => he, fun _ hp => .inl hp⟩

end State
end Volant.Broker
