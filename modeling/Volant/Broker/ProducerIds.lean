-- SUMMARY: Producer ids in a cluster: they are unique as long as one broker allocates them.
import Volant.Broker.Fencing
import Volant.Broker.Idempotent
import Volant.Broker.Participant

/-!
# Producer ids in a cluster

Every broker allocates producer ids from a counter of its own, which starts at
one. The peers learn the producers with transactional ids, under the same ids,
but their counters do not move. So two brokers that both allocate hand out the
same ids; while only one of them does, an id has one owner, and what a broker
keeps under the id is that owner's.
-/

namespace Volant.Broker

open List Function

/-- Whom a producer id is handed out to. -/
inductive Owner where
  /-- The plain producer of the request with this number. -/
  | plain (request : Nat)
  /-- The requester of a block. -/
  | block (request : Nat)
  | transactional (id : String)
deriving DecidableEq, Repr

/-- The transactional id of an owner, as the tables store it. -/
def Owner.transactionalId : Owner → String
  | .transactional id => id
  | _ => ""

/-- The producer id that an operation of a producer names. -/
def Op.producerId : Op → Option Nat
  | .beginTxn pid _ | .ensureTxnOpen pid _ | .recordTxnAddedPartitions pid _
  | .bufferTxnProduce pid _ _ _ _ | .bufferTxnOffsets pid _ _ | .endTxn pid _ _ _ => some pid
  | _ => none

/-- A persist that loaded the counter early and writes late: `persist_producer_state` reads the
counter before it takes the lock on the producers. -/
def State.persistLate (s : State) (nextId : Nat) : State :=
  { s with producersFile := some { nextId, producers := s.producers } }.durable .producers

/-- The brokers of a cluster, the messages sent among them, and the history of the ids. -/
structure Brokers where
  brokers : Nat → State
  /-- Messages stay: they can be delivered late, again, or never. -/
  opens : List ParticipantOpen
  /-- The counter values that persists of each broker have loaded since its start. -/
  loads : Nat → List Nat
  /-- History: the number of requests, the ids handed out, and for each broker the producers that
  have used an id there. -/
  requests : Nat
  handed : List (Nat × Owner)
  served : List (Nat × Nat × Owner)

namespace Brokers

inductive Event where
  | initProducerId (b : Nat) (transactionalId : String) (enable2pc keepPrepared : Bool)
      (timeoutMs : Int)
  /-- A broker serves another operation; `owner` is who sends it, if a producer does. -/
  | serve (b : Nat) (owner : Owner) (op : Op)
  | produce (b : Nat) (owner : Owner) (env : RequestEnv) (tp : TopicPartition)
      (req : ProduceRequest)
  | allocateProducerIds (b : Nat) (len : UInt32)
  | openFanout (b : Nat) (producerId : Nat)
  | deliver (b : Nat) (m : ParticipantOpen)
  | persistLate (b : Nat) (nextId : Nat)

variable (c : Brokers)

/-- The owner that an InitProducerId makes. -/
def ownerFor (transactionalId : String) : Owner :=
  if transactionalId = "" then .plain c.requests else .transactional transactionalId

/-- The broker `b` is now in state `s`. -/
def setBroker (b : Nat) (s : State) : Brokers :=
  { c with brokers := update c.brokers b s
           loads := update c.loads b (s.nextProducerId :: c.loads b)
           requests := c.requests + 1 }

def step (c : Brokers) : Event → Brokers
  | .initProducerId b id enable2pc keepPrepared timeoutMs =>
    let (r, s) := (c.brokers b).idle.initProducerIdWithOpts id enable2pc keepPrepared timeoutMs
    let c' := if r.errorCode = .ok then { c with
        opens := (State.txn2pcInitRegisterFanout id r.producerId r.epoch enable2pc).toList ++ c.opens
        handed := (r.producerId, c.ownerFor id) :: c.handed }
      else c
    c'.setBroker b s
  | .serve b owner op =>
    let c' := { c with
      served := (op.producerId.map fun pid => (b, pid, owner)).toList ++ c.served
      loads := if op.isRestart then update c.loads b [] else c.loads }
    c'.setBroker b ((c.brokers b).exec op)
  | .produce b owner env tp req =>
    let c' := { c with
      served := if req.producerId = 0 then c.served else (b, req.producerId, owner) :: c.served }
    c'.setBroker b ((c.brokers b).handleProduce env tp req).2
  | .allocateProducerIds b len =>
    let ((start, count), s) := (c.brokers b).allocateProducerIds len
    let c' := { c with
      handed := (List.range count).map (fun i => (start + i, Owner.block c.requests)) ++ c.handed }
    c'.setBroker b s
  | .openFanout b producerId =>
    { c with opens := ((c.brokers b).txn2pcOpenFanout producerId).toList ++ c.opens }
  | .deliver b m =>
    let c' := { c with served := (b, m.producerId, .transactional m.transactionalId) :: c.served }
    c'.setBroker b ((c.brokers b).handleTxnParticipantOpen m).2
  | .persistLate b nextId =>
    { c with brokers := update c.brokers b ((c.brokers b).persistLate nextId) }

/-- A producer uses an id that it was handed, a message has been sent, a persist has loaded. -/
def Enabled (c : Brokers) : Event → Prop
  | .initProducerId _ _ _ _ _ => True
  | .serve _ owner op => op.initialised = none ∧ ∀ pid ∈ op.producerId, (pid, owner) ∈ c.handed
  | .produce _ owner _ _ req => req.producerId ≠ 0 → (req.producerId, owner) ∈ c.handed
  | .deliver _ m => m ∈ c.opens
  | .persistLate b nextId => nextId ∈ c.loads b
  | .allocateProducerIds _ _ => True
  | .openFanout _ _ => True

/-- No other broker has allocated an id yet, and `b` has `n` ids left. -/
def SoleAllocator (b n : Nat) : Prop :=
  (∀ b', b' ≠ b → (c.brokers b').nextProducerId = 1) ∧ (c.brokers b).nextProducerId + n < 2 ^ 64

/-- New ids come from one broker, and a broker restarts from a file that has its counter. -/
def OneAllocator (c : Brokers) : Event → Prop
  | .initProducerId b id _ _ _ =>
    id = "" ∨ (c.brokers b).pairOf id = none → c.SoleAllocator b 1
  | .allocateProducerIds b len => len ≠ 0 → c.SoleAllocator b len.toNat
  | .serve b _ op => op.isRestart = true →
    (c.brokers b).producerFile.nextId = (c.brokers b).nextProducerId
  | _ => True

def start (config : Nat → Config) : Brokers :=
  { brokers := fun b => State.fresh (config b), opens := [], loads := fun _ => [], requests := 0
    handed := [], served := [] }

/-- The runs in which every step meets the condition. -/
inductive Reachable (config : Nat → Config) : Brokers → Prop
  | start : Reachable config (start config)
  | step {c : Brokers} (h : Reachable config c) (e : Event) (henabled : c.Enabled e)
      (hone : c.OneAllocator e) : Reachable config (c.step e)

end Brokers

namespace State

variable {s s' : State} {handed handed' : List (Nat × Owner)} {pid : Nat} {id : String}

/-! ## Tables that name the owners -/

/-- Among the ids handed out, `pid` went to an owner with this transactional id. -/
def Owns (handed : List (Nat × Owner)) (pid : Nat) (id : String) : Prop :=
  ∃ owner, (pid, owner) ∈ handed ∧ owner.transactionalId = id

/-- Every table and file of the broker names the owner of an id. -/
structure Owned (handed : List (Nat × Owner)) (s : State) : Prop where
  producers : ∀ pid epoch id, s.identityOf pid = some (epoch, id) → Owns handed pid id
  file : ∀ pid epoch id,
    (s.producerFile.producers.lookup pid).map (·.identity) = some (epoch, id) → Owns handed pid id
  transactionalIds : ∀ id pid, s.transactionalIds.lookup id = some pid →
    id ≠ "" ∧ Owns handed pid id
  keyed : s.Keyed
  prepared : ∀ e ∈ s.preparedTxns.entries, Owns handed e.2.producerId e.1
  preparedFile : ∀ p ∈ s.preparedFile.getD [], Owns handed p.producerId p.transactionalId

theorem Owns.mono (h : Owns handed pid id) (hsub : ∀ e ∈ handed, e ∈ handed') :
    Owns handed' pid id :=
  h.imp fun _ howner => ⟨hsub _ howner.1, howner.2⟩

/-- A transactional id is its own owner. -/
theorem Owns.transactional (h : Owns handed pid id) (hne : id ≠ "") :
    (pid, .transactional id) ∈ handed := by
  obtain ⟨owner, hmem, rfl⟩ := h
  cases owner with
  | transactional id => exact hmem
  | plain n => exact absurd rfl hne
  | block n => exact absurd rfl hne

section

variable (h : Owned handed s)

include h

theorem Owned.mono (hsub : ∀ e ∈ handed, e ∈ handed') : Owned handed' s where
  producers pid epoch id hid := (h.producers pid epoch id hid).mono hsub
  file pid epoch id hid := (h.file pid epoch id hid).mono hsub
  transactionalIds id pid hid :=
    ⟨(h.transactionalIds id pid hid).1, (h.transactionalIds id pid hid).2.mono hsub⟩
  keyed := h.keyed
  prepared e he := (h.prepared e he).mono hsub
  preparedFile p hp := (h.preparedFile p hp).mono hsub

theorem Owned.keep (hk : KeepsIds s s') : Owned handed s' where
  producers := by
    rw [hk.identities]
    exact h.producers
  file := by
    rcases hk.file with heq | hholds
    · have hfile : s'.producerFile = s.producerFile := by rw [producerFile, heq, producerFile]
      rw [hfile]
      exact h.file
    · intro pid epoch id hid
      rw [hholds.2 pid, hk.identities] at hid
      exact h.producers pid epoch id hid
  transactionalIds := by
    rw [hk.transactionalIds]
    exact h.transactionalIds
  keyed e he := h.keyed e (hk.prepared e he)
  prepared e he := h.prepared e (hk.prepared e he)
  preparedFile p hp := by
    rcases hk.preparedFile p hp with hp | ⟨e, he, rfl⟩
    · exact h.preparedFile p hp
    · rw [h.keyed e he]
      exact h.prepared e he

/-- The record of an owner is put in place, and perhaps its transactional id. -/
theorem Owned.setProducer (producer : Producer)
    (howns : Owns handed pid producer.transactionalId) (nextProducerId : Nat)
    (transactionalIds : AList fun _ : String => Nat)
    (htxn : ∀ id pid', transactionalIds.lookup id = some pid' →
      s.transactionalIds.lookup id = some pid' ∨ id ≠ "" ∧ Owns handed pid' id) :
    Owned handed { s with
      producers := s.producers.insert pid producer, transactionalIds, nextProducerId } := by
  refine ⟨fun pid' epoch id hid => ?_, h.file, fun id pid' hid => ?_, h.keyed, h.prepared,
    h.preparedFile⟩
  · rw [identityOf_insert rfl] at hid
    rcases Assoc.of_update hid with ⟨rfl, ⟨⟩⟩ | ⟨-, hid⟩
    · exact howns
    · exact h.producers pid' epoch id hid
  · exact (htxn id pid' hid).elim (h.transactionalIds id pid') fun hnew => hnew

theorem Owned.prepareTxn (howns : Owns handed pid id) (epoch : Nat)
    (committed : Bool) (txn : OpenTxn) :
    Owned handed (s.prepareTxn pid epoch committed id txn) := by
  let prep : PreparedTxn := ⟨id, pid, epoch, committed, s.nowMs, txn⟩
  have howned : Owned handed { s with preparedTxns := s.preparedTxns.insert id prep } :=
    ⟨h.producers, h.file, h.transactionalIds, Assoc.forall_mem_insert rfl h.keyed,
      Assoc.forall_mem_insert howns h.prepared, h.preparedFile⟩
  exact howned.keep (.trans (.others _) (keepsIds_persistPreparedTxns _))

theorem Owned.endTxn (pid epoch : Nat) (committed : Bool)
    (offsets : List DeferredOffset) : let s' := (s.endTxn pid epoch committed offsets).2.2
    Owned handed s' ∧ s'.nextProducerId = s.nextProducerId := by
  rcases endTxn_cases h.keyed pid epoch committed offsets with
    hkeep | ⟨s₁, prod, txn, hkeep, hprod, -, heq⟩
  · exact ⟨h.keep hkeep, hkeep.nextProducerId⟩
  · have h₁ := h.keep hkeep
    rw [heq]
    exact ⟨h₁.prepareTxn (h₁.producers pid prod.epoch _ (by rw [identityOf, hprod]; rfl)) epoch
      committed txn, hkeep.nextProducerId⟩

end

/-! ## InitProducerId -/

/-- InitProducerId reuses the producer id of an owner. -/
structure Reuses (handed : List (Nat × Owner)) (s : State) (id : String)
    (r : InitProducerIdResult × State) : Prop where
  ne : id ≠ ""
  owns : Owns handed r.1.producerId id
  owned : Owned handed r.2
  next : r.2.nextProducerId = s.nextProducerId

/-- InitProducerId takes a new producer id, for whatever owner has the transactional id. -/
structure Allocates (handed : List (Nat × Owner)) (s : State) (id : String)
    (r : InitProducerIdResult × State) : Prop where
  ok : r.1.errorCode = .ok
  unknown : id = "" ∨ s.pairOf id = none
  producerId : r.1.producerId = s.nextProducerId
  next : r.2.nextProducerId = (s.nextProducerId + 1) % 2 ^ 64
  owned : ∀ owner : Owner, owner.transactionalId = id →
    Owned ((s.nextProducerId, owner) :: handed) r.2

theorem Owns.lookup_insert {transactionalIds : AList fun _ : String => Nat}
    (h : Owns handed pid id) (hne : id ≠ "") (id' : String) (pid' : Nat)
    (hid : (transactionalIds.insert id pid).lookup id' = some pid') :
    transactionalIds.lookup id' = some pid' ∨ id' ≠ "" ∧ Owns handed pid' id' := by
  rcases eq_or_ne id' id with rfl | hid'
  · rw [AList.lookup_insert] at hid
    cases hid
    exact .inr ⟨hne, h⟩
  · rw [AList.lookup_insert_ne hid'] at hid
    exact .inl hid

theorem Owned.fenceOrAllocate (h : Owned handed s) (hne : id ≠ "") (enable2pc : Bool)
    (clientTimeout : Nat) : let r := s.fenceOrAllocate id enable2pc clientTimeout
    Reuses handed s id r ∨ Allocates handed s id r := by
  intro r
  have hr : r = s.fenceOrAllocate id enable2pc clientTimeout := rfl
  unfold State.fenceOrAllocate at hr
  simp only at hr
  split at hr
  next pid prod hexisting =>
    obtain ⟨pid', hpid, hprod⟩ := Option.bind_eq_some_iff.mp hexisting
    obtain ⟨prod', -, heq⟩ := Option.map_eq_some_iff.mp hprod
    cases heq
    have howns := (h.transactionalIds id pid hpid).2
    have hset := h.setProducer { prod with
      epoch := bumpEpoch prod.epoch, partitions := ∅, transactional := true, transactionalId := id
      enable2pc := enable2pc || prod.enable2pc, transactionTimeoutMs := clientTimeout } howns
      s.nextProducerId s.transactionalIds fun _ _ hid => .inl hid
    rw [hr]
    have hkeep (s : State) := (@moves_fence False [] s pid prod.epoch).keepsIds
    exact .inl ⟨hne, howns, hset.keep (hkeep _), (hkeep _).nextProducerId⟩
  next hnone =>
    rw [hr]
    refine .inr ⟨rfl, .inr ?_, rfl, rfl, fun owner howner => ?_⟩
    · unfold pairOf identityOf
      cases hpid : s.transactionalIds.lookup id with
      | none => rfl
      | some pid =>
        rw [hpid, Option.bind_some, Option.map_eq_none_iff] at hnone
        simp [hnone]
    · have howns : Owns ((s.nextProducerId, owner) :: handed) s.nextProducerId id :=
        ⟨owner, mem_cons_self, howner⟩
      exact ((h.mono fun e he => mem_cons_of_mem _ he).setProducer
        { epoch := 0, transactional := true, transactionalId := id, enable2pc
          transactionTimeoutMs := clientTimeout, partitions := ∅ } howns _ _
        (howns.lookup_insert hne)).keep (keepsIds_persistProducerState _)

theorem Owned.keepPreparedTxn (h : Owned handed s) (hne : id ≠ "") {prep : PreparedTxn}
    (hprep : s.preparedTxns.lookup id = some prep) (enable2pc : Bool) (clientTimeout : Nat) :
    Reuses handed s id (s.keepPreparedTxn id enable2pc clientTimeout prep) := by
  have howns : Owns handed prep.producerId id :=
    h.prepared ⟨id, prep⟩ (AList.mem_lookup_iff.mp hprep)
  have hkeep (s : State) (pid epoch : Nat) := (@moves_fence False [] s pid epoch).keepsIds
  refine ⟨hne, howns, ?_, (hkeep _ prep.producerId prep.producerEpoch).nextProducerId⟩
  refine (h.setProducer _ ?_ s.nextProducerId _ (howns.lookup_insert hne)).keep
    (hkeep _ prep.producerId _)
  split
  · exact howns
  · exact howns

/-- The outcomes of InitProducerId: an error, a known producer id, or a new one. -/
theorem Owned.initProducerIdWithOpts (h : Owned handed s) (id : String)
    (enable2pc keepPrepared : Bool) (timeoutMs : Int) :
    let r := s.initProducerIdWithOpts id enable2pc keepPrepared timeoutMs
    (r.1.errorCode ≠ .ok ∧ Owned handed r.2 ∧ r.2.nextProducerId = s.nextProducerId) ∨
      Reuses handed s id r ∨ Allocates handed s id r := by
  intro r
  have hexpire := keepsIds_expireTimedOutTxns s
  have h₁ := h.keep hexpire
  have hfence {s₁ : State} (hk : KeepsIds s s₁) (hne : id ≠ "") :
      let r := s₁.fenceOrAllocate id enable2pc timeoutMs.toNat
      Reuses handed s id r ∨ Allocates handed s id r := by
    refine ((h.keep hk).fenceOrAllocate hne enable2pc timeoutMs.toNat).imp
      (fun hreuse => ⟨hreuse.ne, hreuse.owns, hreuse.owned, hreuse.next.trans hk.nextProducerId⟩)
      fun halloc => ?_
    have hunknown := halloc.unknown
    have hpid := halloc.producerId
    have hnext := halloc.next
    have howned := halloc.owned
    rw [pairOf_keep hk] at hunknown
    rw [hk.nextProducerId] at hpid hnext howned
    exact ⟨halloc.ok, hunknown, hpid, hnext, howned⟩
  rcases initProducerIdWithOpts_cases s id enable2pc keepPrepared timeoutMs with
    ⟨herror, hr⟩ | ⟨rfl, hok, hpid, hr⟩ | ⟨hne, rfl, prep, hprep, hr⟩ | ⟨hne, rfl, hr⟩ | ⟨hne, rfl, hr⟩
  · refine .inl ⟨by rw [show r.1.errorCode = _ from herror]; simp, hr ▸ h₁, ?_⟩
    rw [show r.2 = _ from hr]
    exact hexpire.nextProducerId
  · have hnext : s.expireTimedOutTxns.nextProducerId = s.nextProducerId := hexpire.nextProducerId
    refine .inr (.inr ⟨hok, .inl rfl, hpid.trans hnext, ?_, fun owner howner => ?_⟩)
    · rw [show r.2 = _ from hr, ← hnext]
      rfl
    · have howns : Owns ((s.expireTimedOutTxns.nextProducerId, owner) :: handed)
          s.expireTimedOutTxns.nextProducerId "" := ⟨owner, mem_cons_self, howner⟩
      rw [show r.2 = _ from hr, ← hnext]
      exact ((h₁.mono fun e he => mem_cons_of_mem _ he).setProducer _ howns _ _
        fun _ _ hid => .inl hid).keep (keepsIds_persistProducerState _)
  · have hreuse := h₁.keepPreparedTxn hne hprep enable2pc timeoutMs.toNat
    rw [show r = _ from hr]
    exact .inr (.inl ⟨hne, hreuse.owns, hreuse.owned, hreuse.next.trans hexpire.nextProducerId⟩)
  · rw [show r = _ from hr]
    exact .inr (hfence hexpire hne)
  · rw [show r = _ from hr]
    exact .inr (hfence (hexpire.trans (@moves_dropPreparedTxn False [] _ id).keepsIds) hne)

/-! ## The other steps -/

theorem keepsIds_appendAndRecord (s : State) (env : RequestEnv) (tp : TopicPartition)
    (req : ProduceRequest) : KeepsIds s (s.appendAndRecord env tp req).2 := by
  unfold appendAndRecord
  split
  · exact .refl s
  · split
    · exact .others s
    · simp only
      split_ifs
      · exact .others s
      all_goals split
      all_goals first
        | exact .others s
        | exact .trans (.others s) (keepsIds_recordIdempotentProduce _ _ _ _ _ _ _)

theorem keepsIds_handleProduce (hkeys : s.Keyed) (env : RequestEnv) (tp : TopicPartition)
    (req : ProduceRequest) : KeepsIds s (s.handleProduce env tp req).2 := by
  unfold handleProduce
  split_ifs
  · exact .refl s
  · exact .refl s
  · exact (@moves_bufferTxnProduce False [] s hkeys _ _ _ _ _).keepsIds
  · split
    · exact keepsIds_appendAndRecord s env tp req
    · exact .refl s

theorem Owned.persistLate (h : Owned handed s) (nextId : Nat) :
    Owned handed (s.persistLate nextId) :=
  ⟨h.producers, h.producers, h.transactionalIds, h.keyed, h.prepared, h.preparedFile⟩

theorem Owned.allocateProducerIds (h : Owned handed s) (len : UInt32) :
    Owned handed (s.allocateProducerIds len).2 :=
  ⟨h.producers, h.producers, h.transactionalIds, h.keyed, h.prepared, h.preparedFile⟩

theorem keepsIds_installOpenTxn (s : State) (id : String) (pid epoch : Nat) :
    KeepsIds s (s.installOpenTxn id pid epoch) := by
  unfold installOpenTxn
  split
  · exact .others s
  · split_ifs
    · exact .refl s
    · exact .others s

variable {m : ParticipantOpen}

theorem participantProducer_transactionalId {old : Option Producer}
    {prod : Producer} (h : participantProducer old m = some prod) :
    prod.transactionalId = m.transactionalId := by
  unfold participantProducer at h
  split at h
  · split_ifs at h
    cases h
    rfl
  · cases h
    rfl

theorem Owned.handleTxnParticipantOpen (h : Owned handed s)
    (hne : m.transactionalId ≠ "") (howns : Owns handed m.producerId m.transactionalId) :
    let s' := (s.handleTxnParticipantOpen m).2
    Owned handed s' ∧ s'.nextProducerId = s.nextProducerId := by
  intro s'
  have hs' : s' = (s.handleTxnParticipantOpen m).2 := rfl
  unfold State.handleTxnParticipantOpen at hs'
  split at hs'
  · exact ⟨hs' ▸ h, by rw [hs']⟩
  next prod hprod =>
    have hid := participantProducer_transactionalId hprod
    have hempty : m.transactionalId.isEmpty = false := by simpa using hne
    simp only [hempty] at hs'
    have hset := h.setProducer prod (hid ▸ howns) s.nextProducerId
      (s.transactionalIds.insert m.transactionalId m.producerId) (howns.lookup_insert hne)
    have hkeep : KeepsIds { s with
        producers := s.producers.insert m.producerId prod
        transactionalIds := s.transactionalIds.insert m.transactionalId m.producerId } s' := by
      rw [hs']
      refine .trans ?_ (keepsIds_persistProducerState _)
      split
      · exact keepsIds_installOpenTxn _ _ _ _
      · exact .refl _
    exact ⟨hset.keep hkeep, hkeep.nextProducerId⟩

theorem Owned.restart (h : Owned handed s) (config : Config) (nowMs : Int) (nextSerial : Nat)
    (committed : List Nat) : Owned handed (restart s.disk config nowMs nextSerial committed) := by
  have hopened : Owned handed (opened s.disk config nowMs nextSerial committed) := by
    refine ⟨fun pid epoch id hid => ?_, h.file, fun id pid hid => ?_, nofun, nofun, h.preparedFile⟩
    · rw [identityOf_opened] at hid
      exact h.file pid epoch id hid
    · obtain ⟨prod, hprod, rfl, hne⟩ := named_of_transactionalIds_opened _ _ _ _ hid
      exact ⟨hne, h.file pid prod.epoch _ (by rw [hprod]; rfl)⟩
  have hmarkers := hopened.keep (frame_keepsIds.loadTxnMarkers _)
  have hloaded : Owned handed (loaded s.disk config nowMs nextSerial committed) := by
    unfold loaded
    generalize (opened s.disk config nowMs nextSerial committed).loadTxnMarkers = s₁ at hmarkers
    rw [loadPreparedTxns_eq]
    exact ⟨hmarkers.producers, hmarkers.file, hmarkers.transactionalIds,
      Assoc.forall_mem_foldl_insert _ _ hmarkers.keyed fun _ _ => rfl,
      Assoc.forall_mem_foldl_insert _ _ hmarkers.prepared hmarkers.preparedFile,
      hmarkers.preparedFile⟩
  exact hloaded.keep (keepsIds_expireTimedOutTxns _)

theorem nextProducerId_restart (hfile : s.producerFile.nextId = s.nextProducerId)
    (hpos : 0 < s.nextProducerId) (config : Config) (nowMs : Int) (nextSerial : Nat)
    (committed : List Nat) :
    (restart s.disk config nowMs nextSerial committed).nextProducerId = s.nextProducerId := by
  refine (keepsIds_expireTimedOutTxns _).nextProducerId.trans ?_
  rw [loaded, loadPreparedTxns_eq]
  exact (frame_keepsIds.loadTxnMarkers _).nextProducerId.trans
    (nextProducerId_opened config nowMs nextSerial committed hfile hpos)

/-- An operation that does not initialise and does not restart. -/
theorem Owned.exec (h : Owned handed s) {op : Op} (hinit : op.initialised = none)
    (hrestart : op.isRestart = true → s.producerFile.nextId = s.nextProducerId)
    (hpos : 0 < s.nextProducerId) :
    Owned handed (s.exec op) ∧ (s.exec op).nextProducerId = s.nextProducerId := by
  rcases exec_cases h.keyed op with ⟨-, hkeep⟩ | ⟨_, _, _, _, rfl⟩ | ⟨pid, epoch, committed, offsets, rfl⟩ |
    ⟨nowMs, rfl⟩
  · exact ⟨h.keep hkeep, hkeep.nextProducerId⟩
  · cases hinit
  · have hidle : Owned handed s.idle := h.keep (.others s)
    exact hidle.endTxn pid epoch committed offsets
  · exact ⟨h.restart s.config nowMs s.nextSerial s.committed,
      nextProducerId_restart (hrestart rfl) hpos s.config nowMs s.nextSerial s.committed⟩

end State

/-! ## The cluster -/

namespace Brokers

open State

variable {c : Brokers} {b : Nat} {id : String} {enable2pc : Bool}

structure Inv (c : Brokers) : Prop where
  unique : ∀ pid o o', (pid, o) ∈ c.handed → (pid, o') ∈ c.handed → o = o'
  /-- Some broker has allocated every id; the others' counters have not moved. -/
  allocator : ∃ a, (∀ b, b ≠ a → (c.brokers b).nextProducerId = 1) ∧
    ∀ e ∈ c.handed, 0 < e.1 ∧ e.1 < (c.brokers a).nextProducerId
  next : ∀ b, 0 < (c.brokers b).nextProducerId ∧ (c.brokers b).nextProducerId < 2 ^ 64
  owned : ∀ b, Owned c.handed (c.brokers b)
  opens : ∀ m ∈ c.opens, m.transactionalId ≠ "" ∧ Owns c.handed m.producerId m.transactionalId
  served : ∀ x ∈ c.served, (x.2.1, x.2.2) ∈ c.handed

theorem inv_start (config : Nat → Config) : Inv (start config) where
  unique := nofun
  allocator := ⟨0, fun _ _ => rfl, nofun⟩
  next _ := ⟨Nat.one_pos, show 1 < 2 ^ 64 by norm_num⟩
  owned _ := ⟨nofun, nofun, nofun, nofun, nofun, nofun⟩
  opens := nofun
  served := nofun

/-- One broker changes and hands out nothing. -/
theorem Inv.setBroker (h : Inv c) {s : State} (howned : Owned c.handed s)
    (hnext : s.nextProducerId = (c.brokers b).nextProducerId) : Inv (c.setBroker b s) := by
  have hnexts : ∀ b', ((c.setBroker b s).brokers b').nextProducerId =
      (c.brokers b').nextProducerId :=
    (forall_update_iff c.brokers fun b' s => s.nextProducerId = (c.brokers b').nextProducerId).mpr
      ⟨hnext, fun _ _ => rfl⟩
  obtain ⟨a, hothers, hbelow⟩ := h.allocator
  exact { h with
    allocator := ⟨a, fun b' hb' => (hnexts b').trans (hothers b' hb'),
      fun e he => hnexts a ▸ hbelow e he⟩
    next := fun b' => hnexts b' ▸ h.next b'
    owned := (forall_update_iff c.brokers fun _ => Owned c.handed).mpr
      ⟨howned, fun b' _ => h.owned b'⟩ }

/-- The sole allocator hands out ids from its counter on. -/
theorem Inv.allocate (h : Inv c) {n : Nat} (hsole : c.SoleAllocator b n) (news : List (Nat × Owner))
    (hnews : ∀ e ∈ news, (c.brokers b).nextProducerId ≤ e.1 ∧
      e.1 < (c.brokers b).nextProducerId + n) (hone : ∀ e ∈ news, ∀ e' ∈ news, e.2 = e'.2)
    {s : State} (hnext : s.nextProducerId = (c.brokers b).nextProducerId + n)
    (howned : Owned (news ++ c.handed) s) (opens : List ParticipantOpen)
    (hopens : ∀ m ∈ opens, m.transactionalId ≠ "" ∧
      Owns (news ++ c.handed) m.producerId m.transactionalId) :
    Inv ({ c with handed := news ++ c.handed, opens := opens ++ c.opens }.setBroker b s) := by
  have hsub : ∀ e ∈ c.handed, e ∈ news ++ c.handed := fun e he => mem_append_right _ he
  -- if another broker was the allocator so far, nothing has been handed out
  have hbelow : ∀ e ∈ c.handed, 0 < e.1 ∧ e.1 < (c.brokers b).nextProducerId := by
    intro e he
    obtain ⟨a, hothers, hbelow⟩ := h.allocator
    rcases eq_or_ne a b with rfl | hne
    · exact hbelow e he
    · obtain ⟨hpos, hlt⟩ := hbelow e he
      rw [hsole.1 a hne] at hlt
      omega
  have hpos := (h.next b).1
  refine ⟨?_, ⟨b, fun b' hb' => ?_, fun e he => ?_⟩,
    (forall_update_iff c.brokers fun _ s => 0 < s.nextProducerId ∧ s.nextProducerId < 2 ^ 64).mpr
      ⟨?_, fun b' _ => h.next b'⟩,
    (forall_update_iff c.brokers fun _ => Owned (news ++ c.handed)).mpr
      ⟨howned, fun b' _ => (h.owned b').mono hsub⟩, ?_, ?_⟩
  · intro pid o o' ho ho'
    rcases mem_append.mp ho with ho | ho <;> rcases mem_append.mp ho' with ho' | ho'
    · exact hone _ ho _ ho'
    · exact absurd (hbelow _ ho').2 (not_lt.mpr (hnews _ ho).1)
    · exact absurd (hbelow _ ho).2 (not_lt.mpr (hnews _ ho').1)
    · exact h.unique pid o o' ho ho'
  · simpa [Brokers.setBroker, hb'] using hsole.1 b' hb'
  · simp only [Brokers.setBroker, update_self, hnext]
    rcases mem_append.mp he with he | he
    · have := hnews e he
      omega
    · have := hbelow e he
      omega
  · have := hsole.2
    omega
  · intro m hm
    rcases mem_append.mp hm with hm | hm
    · exact hopens m hm
    · exact ⟨(h.opens m hm).1, (h.opens m hm).2.mono hsub⟩
  · exact fun x hx => hsub _ (h.served x hx)

theorem transactionalId_ownerFor (id : String) : (c.ownerFor id).transactionalId = id := by
  unfold ownerFor
  split_ifs with hempty
  · exact hempty.symm
  · rfl

theorem mem_registerFanout {pid epoch : Nat} {m : ParticipantOpen}
    (hm : m ∈ (txn2pcInitRegisterFanout id pid epoch enable2pc).toList) :
    m.transactionalId = id ∧ m.producerId = pid ∧ id ≠ "" := by
  unfold txn2pcInitRegisterFanout at hm
  split_ifs at hm with hempty
  · cases hm
  · rw [Option.toList_some, mem_singleton] at hm
    exact ⟨by rw [hm], by rw [hm], by simpa using hempty⟩

/-- An id is handed out again to its owner, and the peers are told. -/
theorem Inv.again (h : Inv c) {pid : Nat} {owner : Owner} (hmem : (pid, owner) ∈ c.handed)
    {opens : List ParticipantOpen} (hopens : ∀ m ∈ opens, m.transactionalId ≠ "" ∧
      Owns c.handed m.producerId m.transactionalId) :
    Inv { c with handed := (pid, owner) :: c.handed, opens := opens ++ c.opens } := by
  have hsub : ∀ e ∈ c.handed, e ∈ (pid, owner) :: c.handed := fun _ => mem_cons_of_mem _
  have hback : ∀ e ∈ (pid, owner) :: c.handed, e ∈ c.handed := by
    rintro e (_ | ⟨_, he⟩)
    · exact hmem
    · exact he
  obtain ⟨a, hothers, hbelow⟩ := h.allocator
  refine ⟨fun pid o o' ho ho' => h.unique pid o o' (hback _ ho) (hback _ ho'),
    ⟨a, hothers, fun e he => hbelow e (hback e he)⟩, h.next, fun b => (h.owned b).mono hsub,
    fun m hm => ?_, fun x hx => hsub _ (h.served x hx)⟩
  rcases mem_append.mp hm with hm | hm
  · exact ⟨(hopens m hm).1, (hopens m hm).2.mono hsub⟩
  · exact ⟨(h.opens m hm).1, (h.opens m hm).2.mono hsub⟩

variable {keepPrepared : Bool}

theorem Inv.initProducerId (h : Inv c) {timeoutMs : Int}
    (hone : c.OneAllocator (.initProducerId b id enable2pc keepPrepared timeoutMs)) :
    Inv (c.step (.initProducerId b id enable2pc keepPrepared timeoutMs)) := by
  have hidle : KeepsIds (c.brokers b) (c.brokers b).idle := .others _
  unfold step
  simp only
  rcases ((h.owned b).keep hidle).initProducerIdWithOpts id enable2pc keepPrepared timeoutMs with
    ⟨herror, howned, hnext⟩ | hreuse | halloc
  · rw [if_neg herror]
    exact h.setBroker howned hnext
  · split_ifs
    · have hmem := hreuse.owns.transactional hreuse.ne
      rw [ownerFor, if_neg hreuse.ne]
      refine .setBroker (h.again hmem fun m hm => ?_)
        (hreuse.owned.mono fun _ => mem_cons_of_mem _) hreuse.next
      obtain ⟨hid, hpid, hne⟩ := mem_registerFanout hm
      rw [hid, hpid]
      exact ⟨hne, hreuse.owns⟩
    · exact h.setBroker hreuse.owned hreuse.next
  · rw [if_pos halloc.ok]
    have hsole := hone (halloc.unknown.imp_right fun hnone => hnone)
    have howner := transactionalId_ownerFor (c := c) id
    refine h.allocate hsole [(_, c.ownerFor id)] ?_ ?_ ?_ ?_ _ fun m hm => ?_
    · intro e he
      rw [mem_singleton.mp he]
      show (c.brokers b).nextProducerId ≤ _ ∧ _ < (c.brokers b).nextProducerId + 1
      rw [halloc.producerId]
      exact ⟨le_rfl, Nat.lt_succ_self _⟩
    · intro e he e' he'
      rw [mem_singleton.mp he, mem_singleton.mp he']
    · rw [halloc.next]
      exact Nat.mod_eq_of_lt hsole.2
    · rw [halloc.producerId]
      exact halloc.owned _ howner
    · obtain ⟨hid, hpid, hne⟩ := mem_registerFanout hm
      rw [hid, hpid]
      exact ⟨hne, c.ownerFor id, mem_append_left _ (mem_singleton_self _), howner⟩

theorem Inv.allocateProducerIds (h : Inv c) {len : UInt32}
    (hone : c.OneAllocator (.allocateProducerIds b len)) :
    Inv (c.step (.allocateProducerIds b len)) := by
  unfold step
  rcases eq_or_ne len 0 with rfl | hne
  · exact h.setBroker ((h.owned b).allocateProducerIds 0) (Nat.mod_eq_of_lt (h.next b).2)
  · have hsole := hone hne
    refine h.allocate hsole ((range len.toNat).map fun i =>
        ((c.brokers b).nextProducerId + i, Owner.block c.requests)) ?_ ?_ ?_ ?_ [] nofun
    · intro e he
      obtain ⟨i, hi, rfl⟩ := mem_map.mp he
      have := mem_range.mp hi
      omega
    · intro e he e' he'
      obtain ⟨i, hi, rfl⟩ := mem_map.mp he
      obtain ⟨i', hi', rfl⟩ := mem_map.mp he'
      rfl
    · exact Nat.mod_eq_of_lt hsole.2
    · exact ((h.owned b).allocateProducerIds len).mono fun _ => mem_append_right _

theorem Inv.served_cons (h : Inv c) {served : List (Nat × Nat × Owner)}
    (hserved : ∀ x ∈ served, (x.2.1, x.2.2) ∈ c.handed) (loads : Nat → List Nat) :
    Inv { c with served, loads } :=
  { h with served := hserved }

theorem Inv.step (h : Inv c) {e : Event} (henabled : c.Enabled e) (hone : c.OneAllocator e) :
    Inv (c.step e) := by
  cases e with
  | initProducerId b id enable2pc keepPrepared timeoutMs => exact h.initProducerId hone
  | allocateProducerIds b len => exact h.allocateProducerIds hone
  | serve b owner op =>
    obtain ⟨hinit, hown⟩ := henabled
    obtain ⟨howned, hnext⟩ := (h.owned b).exec hinit hone (h.next b).1
    refine (h.served_cons (fun x hx => ?_) _).setBroker howned hnext
    rcases mem_append.mp hx with hx | hx
    · obtain ⟨pid, hpid, rfl⟩ := Option.map_eq_some_iff.mp (Option.mem_toList.mp hx)
      exact hown pid hpid
    · exact h.served x hx
  | produce b owner env tp req =>
    have hkeep := keepsIds_handleProduce (h.owned b).keyed env tp req
    refine (h.served_cons (fun x hx => ?_) c.loads).setBroker ((h.owned b).keep hkeep)
      hkeep.nextProducerId
    split_ifs at hx with hzero
    · exact h.served x hx
    · rcases mem_cons.mp hx with rfl | hx
      · exact henabled hzero
      · exact h.served x hx
  | openFanout b pid =>
    refine { h with opens := fun m hm => ?_ }
    rcases mem_append.mp hm with hm | hm
    · unfold txn2pcOpenFanout at hm
      split at hm
      · cases hm
      next prod hprod =>
        split_ifs at hm with hplain
        · cases hm
        · rw [mem_singleton.mp hm]
          have hne : prod.transactionalId ≠ "" := by
            rintro heq
            simp [heq] at hplain
          exact ⟨hne, (h.owned b).producers pid prod.epoch _ (by rw [identityOf, hprod]; rfl)⟩
    · exact h.opens m hm
  | deliver b m =>
    obtain ⟨hne, howns⟩ := h.opens m henabled
    obtain ⟨howned, hnext⟩ := (h.owned b).handleTxnParticipantOpen hne howns
    refine (h.served_cons (fun x hx => ?_) c.loads).setBroker howned hnext
    rcases mem_cons.mp hx with rfl | hx
    · exact howns.transactional hne
    · exact h.served x hx
  | persistLate b nextId =>
    have hset := h.setBroker ((h.owned b).persistLate nextId) rfl
    exact { hset with }

theorem Reachable.inv {config : Nat → Config} (h : Reachable config c) : Inv c := by
  induction h with
  | start => exact inv_start config
  | step _ e henabled hone ih => exact ih.step henabled hone

/-- While one broker allocates, a producer id is handed out to one producer only; only that
producer has used it on any broker, and every record under it is that producer's. -/
theorem producer_id_unique {config : Nat → Config} (h : Reachable config c) :
    (∀ pid o o', (pid, o) ∈ c.handed → (pid, o') ∈ c.handed → o = o') ∧
      (∀ b pid o o', (b, pid, o) ∈ c.served → (b, pid, o') ∈ c.served → o = o') ∧
      ∀ b pid prod o, (c.brokers b).producers.lookup pid = some prod → (pid, o) ∈ c.handed →
        prod.transactionalId = o.transactionalId := by
  have hinv := h.inv
  refine ⟨hinv.unique, fun b pid o o' ho ho' => ?_, fun b pid prod o hprod ho => ?_⟩
  · exact hinv.unique pid o o' (hinv.served _ ho) (hinv.served _ ho')
  · obtain ⟨owner, hmem, howner⟩ := (hinv.owned b).producers pid prod.epoch prod.transactionalId
      (by rw [identityOf, hprod]; rfl)
    rw [← howner, hinv.unique pid owner o hmem ho]

theorem brokers_initProducerId {b' : Nat} (hne : b' ≠ b) {timeoutMs : Int} :
    (c.step (.initProducerId b id enable2pc keepPrepared timeoutMs)).brokers b' = c.brokers b' := by
  unfold step
  simp only [setBroker]
  rw [update_of_ne hne]
  split_ifs <;> rfl

def initialises (b : Nat) (id : String) : Event := .initProducerId b id false false 0

def registersA : ParticipantOpen :=
  { transactionalId := "a", producerId := 2, producerEpoch := 0, enable2pc := false
    installOpen := false }

/-- Broker 0 allocates for a plain producer and for `"a"`, and broker 1 learns of `"a"`. -/
theorem learned_record_of_a :
    let c := ((start fun _ => oneSecond).step (initialises 0 "")).step (initialises 0 "a")
    let c' := c.step (.deliver 1 registersA)
    c'.handed = [(2, .transactional "a"), (1, .plain 0)] ∧
      ∀ prod, (c'.brokers 1).producers.lookup 2 = some prod → prod.transactionalId = "a" := by
  intro c c'
  have hone : ∀ b', b' ≠ 0 → (((start fun _ => oneSecond).step (initialises 0 "")).brokers
      b').nextProducerId = 1 := by
    intro b' hb'
    rw [initialises, brokers_initProducerId hb']
    rfl
  have hreach : Reachable (fun _ => oneSecond) c' := by
    refine .step (.step (.step .start (initialises 0 "") trivial ?_) (initialises 0 "a") trivial ?_)
      (.deliver 1 registersA) ?_ trivial
    · exact fun _ => ⟨fun _ _ => rfl, by decide +kernel⟩
    · exact fun _ => ⟨hone, by decide +kernel⟩
    · show registersA ∈ c.opens
      decide +kernel
  have hhanded : c'.handed = [(2, .transactional "a"), (1, .plain 0)] := by decide +kernel
  refine ⟨hhanded, fun prod hprod => ?_⟩
  exact (producer_id_unique hreach).2.2 1 2 prod (.transactional "a") hprod (by rw [hhanded]; simp)

/-- Two brokers allocate. Both hand out id 1, and the message about `"a"` makes the record of the
plain producer on broker 0 one of `"a"`. -/
theorem two_allocators_share_id :
    let c := ((start fun _ => oneSecond).step (initialises 0 "")).step (initialises 1 "a")
    let m : ParticipantOpen := { registersA with producerId := 1 }
    let c' := c.step (.deliver 0 m)
    c.handed = [(1, .transactional "a"), (1, .plain 0)] ∧ c.Enabled (.deliver 0 m) ∧
      ((c.brokers 0).producers.lookup 1).map (·.transactionalId) = some "" ∧
      ((c'.brokers 0).producers.lookup 1).map (·.transactionalId) = some "a" := by
  intro c m c'
  refine ⟨by decide +kernel, ?_, by decide +kernel, by decide +kernel⟩
  show m ∈ c.opens
  decide +kernel

end Brokers
end Volant.Broker
