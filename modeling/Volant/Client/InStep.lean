-- SUMMARY: The client's sequence numbers follow the broker's as long as no timeout drops numbers the broker needs.
import Volant.Broker.CrashAbort
import Volant.Broker.Moves
import Volant.Broker.TxnTables
import Volant.Client.Producer

/-!
# Sequence numbers in step

The broker accepts a batch of a transaction if its base sequence follows the
last batch it knows for the partition: the last one of the open transaction,
or else the last committed one. The client counts on its own. The two agree
through begin, produce, commit and abort. When the broker aborts a transaction
by its timeout, the client is told with an error and keeps its numbers, so that
they are ahead of the broker's wherever the transaction had written to a
partition with a committed batch.
-/

namespace Volant

open List AList

namespace Broker.State

variable {s : State} {pid epoch : Nat} {prod : Producer} {messages : List Message} {id : String}

/-! ## What a commit records -/

/-- The last batch a transaction wrote to a partition. -/
def lastBatch (tp : TopicPartition) (written : List WrittenRange) : Option BatchState :=
  written.foldl (fun last r =>
    if r.tp = tp then some ⟨r.baseSequence, r.count, r.firstOffset⟩ else last) none

theorem lastBatch_concat (tp : TopicPartition) (written : List WrittenRange) (r : WrittenRange) :
    lastBatch tp (written ++ [r]) =
      if r.tp = tp then some ⟨r.baseSequence, r.count, r.firstOffset⟩ else lastBatch tp written := by
  simp [lastBatch]

/-- Recording the batches of a transaction leaves the last one on each partition. -/
theorem producers_recordAll (hpid : pid ≠ 0) (hprod : s.producers.lookup pid = some prod)
    (hepoch : prod.epoch = epoch) {written : List WrittenRange}
    (hwritten : ∀ r ∈ written, 0 ≤ r.baseSequence) :
    ∃ partitions, (written.foldl (fun s r => s.recordIdempotentProduce pid epoch r.tp
        r.baseSequence r.count r.firstOffset) s).producers.lookup pid =
        some { prod with partitions } ∧
      ∀ tp, partitions.lookup tp = (lastBatch tp written).or (prod.partitions.lookup tp) := by
  induction written using reverseRecOn with
  | nil => exact ⟨prod.partitions, hprod, fun tp => rfl⟩
  | append_singleton written r ih =>
    obtain ⟨partitions, hlookup, hlast⟩ := ih fun r' hr' => hwritten r' (mem_append_left _ hr')
    have hr : ¬ (pid = 0 ∨ r.baseSequence < 0) := by
      rintro (h | h)
      · exact hpid h
      · exact absurd (hwritten r (by simp)) (by omega)
    refine ⟨partitions.insert r.tp ⟨r.baseSequence, r.count, r.firstOffset⟩, ?_, fun tp => ?_⟩
    · rw [foldl_append, foldl_cons, recordIdempotentProduce, if_neg hr]
      simp only [hlookup, hepoch, ne_eq, not_true_eq_false, if_false]
      exact lookup_insert _
    · rw [lastBatch_concat]
      split_ifs with htp
      · subst htp
        rw [lookup_insert, Option.some_or]
      · rw [lookup_insert_ne (Ne.symm htp)]
        exact hlast tp

theorem sameTables_commitOffset (s : State) (o : DeferredOffset) :
    SameTables s (s.commitOffset o) := by
  unfold commitOffset
  split_ifs
  · exact ⟨rfl, rfl, rfl, rfl, rfl, rfl⟩
  · exact frame_sameTables.refl s

/-- A commit changes the producers by what it records. -/
theorem producers_finalizeTxn_commit (s : State) (pid epoch : Nat) (txn : OpenTxn)
    (offsets : List DeferredOffset) : (s.finalizeTxn pid epoch true txn offsets).2.producers =
      (txn.written.foldl (fun s r => s.recordIdempotentProduce pid epoch r.tp r.baseSequence
        r.count r.firstOffset) s).producers := by
  exact ((frame_sameTables.appendTxnControlMarkers _ pid epoch .commit txn).trans
    (frame_sameTables.foldl sameTables_commitOffset _ _)).producers

theorem producers_finalizeTxn_abort (s : State) (pid epoch : Nat) (txn : OpenTxn)
    (offsets : List DeferredOffset) :
    (s.finalizeTxn pid epoch false txn offsets).2.producers = s.producers :=
  (frame_sameTables.abort s pid epoch txn).producers

/-! ## A batch in sequence -/

/-- The base sequence `n` is the one after the last batch. -/
structure Follows (last : Option BatchState) (n : Int) : Prop where
  nonneg : 0 ≤ n
  lt : n < 2 ^ 31
  next : ∀ b ∈ last, 0 ≤ b.baseSequence ∧ 0 < b.count ∧ n = b.baseSequence + b.count

theorem castSigned_of_lt {n : Nat} (h : n < 2 ^ 31) : castSigned 32 n = n := by
  unfold castSigned
  rw [Int.bmod_def]
  split_ifs <;> omega

theorem Follows.checkSequence {last : Option BatchState} {n : Int} (h : Follows last n)
    (count : Nat) : checkSequence last n count = .accept 0 := by
  cases last with
  | none => rfl
  | some b =>
    obtain ⟨hbase, hcount, hn⟩ := h.next b rfl
    have hlt := h.lt
    have hne : ¬ (n = b.baseSequence ∧ count = b.count) := by omega
    have hnext : n = saturateSigned 32 (b.baseSequence + castSigned 32 b.count) := by
      rw [castSigned_of_lt (by omega), saturateSigned]
      omega
    simp [State.checkSequence, hne, ← hnext]

/-- The transaction after one more batch. -/
def withBatch (txn : OpenTxn) (tp : TopicPartition) (range : WrittenRange) : OpenTxn :=
  { txn with
    written := txn.written ++ [range]
    pending := txn.pending.insert tp ⟨range.baseSequence, range.count, range.firstOffset⟩ }

theorem writeThrough_cases {txn : OpenTxn} (hopen : s.openTxns.lookup pid = some txn)
    (tp : TopicPartition) (baseSequence : Int) (hne : messages ≠ []) : (s.partitions tp = none ∧
        s.writeThrough pid txn tp baseSequence messages = (.reject .unknown, s)) ∨
      (∃ p, s.partitions tp = some p) ∧ ∃ range : WrittenRange, range.tp = tp ∧
        range.baseSequence = baseSequence ∧ range.count = messageCount messages ∧
        ∃ s', s'.producers = s.producers ∧ s'.preparedTxns = s.preparedTxns ∧
          s'.openTxns = s.openTxns.insert pid (withBatch txn tp range) ∧
          s.writeThrough pid txn tp baseSequence messages = (.accept range.firstOffset, s') := by
  cases hp : s.partitions tp with
  | none => exact .inl ⟨rfl, by simp [writeThrough, produce, hp]⟩
  | some p =>
    let count := messageCount messages
    let range : WrittenRange := ⟨tp, p.leo, saturatingAdd p.leo count, baseSequence, count⟩
    have hopen' : ((s.appended tp p messages (.txn txn.serial)).durable .txnAppend).openTxns.lookup
        pid = some txn := hopen
    refine .inr ⟨⟨p, rfl⟩, range, rfl, rfl, rfl,
      { (s.appended tp p messages (.txn txn.serial)).durable .txnAppend with
        openTxns := s.openTxns.insert pid (withBatch txn tp range) }.persistTxnMarkers .markers,
      rfl, rfl, rfl, ?_⟩
    unfold writeThrough
    rw [produce_some hp hne]
    simp only [head?_stamp hne, hopen']
    rfl

/-- After its expiry, a produce in an open transaction is a write if its sequence is right. -/
theorem bufferTxnProduce_of_open {txn : OpenTxn} {tp : TopicPartition} {baseSequence : Int}
    (hprod : s.expireTimedOutTxns.checkTxnProducer pid epoch = .ok prod)
    (hprepared : s.expireTimedOutTxns.isPrepared prod.transactionalId = false)
    (hopen : s.expireTimedOutTxns.openTxns.lookup pid = some txn)
    (hcount : messageCount messages ≠ 0)
    (hnext : Follows ((txn.pending.lookup tp).or (prod.partitions.lookup tp)) baseSequence) :
    s.bufferTxnProduce pid epoch tp baseSequence messages =
      s.expireTimedOutTxns.writeThrough pid txn tp baseSequence messages := by
  simp [bufferTxnProduce, hcount, hprod, hprepared, hopen, hnext.checkSequence]

theorem bufferTxnProduce_of_closed
    (hprod : s.expireTimedOutTxns.checkTxnProducer pid epoch = .ok prod)
    (hprepared : s.expireTimedOutTxns.isPrepared prod.transactionalId = false)
    (hopen : s.expireTimedOutTxns.openTxns.lookup pid = none) (tp : TopicPartition)
    (baseSequence : Int) (hcount : messageCount messages ≠ 0) :
    s.bufferTxnProduce pid epoch tp baseSequence messages =
      (.reject (s.expireTimedOutTxns.noOpenTxn pid), s.expireTimedOutTxns) := by
  simp [bufferTxnProduce, hcount, hprod, hprepared, hopen]

/-! ## The producer a client is given -/

/-- The record of a client's producer. -/
structure Registered (id : String) (epoch : Nat) (prod : Producer) : Prop where
  epoch : prod.epoch = epoch
  transactional : prod.transactional = true
  transactionalId : prod.transactionalId = id
  enable2pc : prod.enable2pc = false

theorem Registered.checkTxnProducer (h : Registered id epoch prod)
    (hprod : s.producers.lookup pid = some prod) : s.checkTxnProducer pid epoch = .ok prod := by
  simp [State.checkTxnProducer, hprod, h.epoch, h.transactional]

/-- A client without two-phase commit can take over the transactional id, or be given a new
producer id for it. -/
structure Ready (id : String) (s : State) : Prop where
  owner : ∀ pid prod, s.transactionalIds.lookup id = some pid → s.producers.lookup pid = some prod →
    pid ≠ 0 ∧ prod.enable2pc = false
  next_ne : s.nextProducerId ≠ 0
  next_closed : s.openTxns.lookup s.nextProducerId = none

theorem Ready.expireTimedOutTxns (h : Ready id s) : Ready id s.expireTimedOutTxns := by
  have hids := keepsIds_expireTimedOutTxns s
  refine ⟨?_, by rw [hids.nextProducerId]; exact h.next_ne, ?_⟩
  · rw [producers_expire, hids.transactionalIds]
    exact h.owner
  · rw [hids.nextProducerId]
    rcases lookup_openTxns_expire_cases s s.nextProducerId with heq | ⟨heq, -⟩
    · exact heq.trans h.next_closed
    · exact heq

theorem dropPreparedTxn_spec (s : State) (id : String) :
    let s' := s.dropPreparedTxn id
    s'.preparedTxns.lookup id = none ∧ s'.openTxns = s.openTxns ∧ s'.producers = s.producers ∧
      s'.transactionalIds = s.transactionalIds ∧ s'.nextProducerId = s.nextProducerId := by
  intro s'
  have hnext : s'.nextProducerId = s.nextProducerId := (@moves_dropPreparedTxn False [] s id).keepsIds.nextProducerId
  suffices h : s'.preparedTxns.lookup id = none ∧ s'.openTxns = s.openTxns ∧
      s'.producers = s.producers ∧ s'.transactionalIds = s.transactionalIds from
    ⟨h.1, h.2.1, h.2.2.1, h.2.2.2, hnext⟩
  have hs' : s' = s.dropPreparedTxn id := rfl
  unfold dropPreparedTxn at hs'
  split at hs'
  next hnone =>
    rw [hs']
    exact ⟨hnone, rfl, rfl, rfl⟩
  next prep _ =>
    let s₁ := { s with preparedTxns := s.preparedTxns.erase id }
    have hsame : SameTables s₁ s' := by
      rw [hs']
      exact (frame_sameTables.abort s₁ prep.producerId prep.producerEpoch prep.body).trans
        ⟨rfl, rfl, rfl, rfl, rfl, rfl⟩
    refine ⟨?_, hsame.openTxns, hsame.producers, hsame.transactionalIds⟩
    rw [hsame.preparedTxns]
    exact lookup_erase id s.preparedTxns

theorem fenceOpenTxn_spec (s : State) (pid epoch : Nat) :
    let s' := s.fenceOpenTxn pid epoch
    s'.openTxns.lookup pid = none ∧ s'.producers = s.producers ∧
      s'.preparedTxns = s.preparedTxns := by
  intro s'
  have hs' : s' = s.fenceOpenTxn pid epoch := rfl
  unfold fenceOpenTxn at hs'
  split at hs'
  next hnone =>
    rw [hs']
    exact ⟨hnone, rfl, rfl⟩
  next txn _ =>
    have hsame := frame_sameTables.abort { s with openTxns := s.openTxns.erase pid } pid epoch txn
    rw [hs']
    refine ⟨?_, hsame.producers, hsame.preparedTxns⟩
    rw [hsame.openTxns]
    exact lookup_erase pid s.openTxns

/-- The native request, without two-phase commit, prepared transactions or a timeout of its own. -/
theorem initProducerIdWithOpts_native (s : State) (hid : id ≠ "") :
    s.initProducerIdWithOpts id false false 0 =
      (s.expireTimedOutTxns.dropPreparedTxn id).fenceOrAllocate id false 0 := by
  have hempty : id.isEmpty = false := by simpa using hid
  simp [initProducerIdWithOpts, hempty]

theorem Ready.dropPreparedTxn (h : Ready id s) : Ready id (s.dropPreparedTxn id) := by
  obtain ⟨-, hopen, hproducers, hids, hnext⟩ := dropPreparedTxn_spec s id
  refine ⟨?_, hnext ▸ h.next_ne, ?_⟩
  · rw [hids, hproducers]
    exact h.owner
  · rw [hopen, hnext]
    exact h.next_closed

theorem Ready.fenceOrAllocate (h : Ready id s) (hprepared : s.preparedTxns.lookup id = none) :
    let r := s.fenceOrAllocate id false 0
    r.1.producerId ≠ 0 ∧ r.2.preparedTxns.lookup id = none ∧
      r.2.openTxns.lookup r.1.producerId = none ∧
      ∃ prod, r.2.producers.lookup r.1.producerId = some prod ∧ Registered id r.1.epoch prod ∧
        prod.partitions = ∅ := by
  intro r
  have hr : r = s.fenceOrAllocate id false 0 := rfl
  unfold State.fenceOrAllocate at hr
  simp only at hr
  split at hr
  next pid prod hexisting =>
    obtain ⟨pid', hpid', hprod⟩ := Option.bind_eq_some_iff.mp hexisting
    obtain ⟨prod', hprod', heq⟩ := Option.map_eq_some_iff.mp hprod
    cases heq
    obtain ⟨hpid, h2pc⟩ := h.owner pid prod hpid' hprod'
    obtain ⟨hclosed, hprods, hprep⟩ := fenceOpenTxn_spec
      { s with producers := s.producers.insert pid { prod with
        epoch := bumpEpoch prod.epoch, partitions := ∅, transactional := true, transactionalId := id,
        enable2pc := false || prod.enable2pc, transactionTimeoutMs := 0 } } pid prod.epoch
    rw [hr]
    exact ⟨hpid, (congrArg (AList.lookup id) hprep).trans hprepared, hclosed, _,
      (congrArg (AList.lookup pid) hprods).trans (lookup_insert _), ⟨rfl, rfl, rfl, h2pc⟩, rfl⟩
  next =>
    rw [hr]
    exact ⟨h.next_ne, hprepared, h.next_closed, _, lookup_insert _, ⟨rfl, rfl, rfl, rfl⟩, rfl⟩

/-- The producer of a new client has nothing open and no batch on record. -/
theorem Ready.init (h : Ready id s) (hid : id ≠ "") :
    let r := s.initProducerIdWithOpts id false false 0
    r.1.producerId ≠ 0 ∧ r.2.preparedTxns.lookup id = none ∧
      r.2.openTxns.lookup r.1.producerId = none ∧
      ∃ prod, r.2.producers.lookup r.1.producerId = some prod ∧ Registered id r.1.epoch prod ∧
        prod.partitions = ∅ := by
  rw [initProducerIdWithOpts_native s hid]
  exact h.expireTimedOutTxns.dropPreparedTxn.fenceOrAllocate (dropPreparedTxn_spec _ id).1

end Broker.State

namespace Client

open Broker State

/-! ## The numbers of client and broker -/

/-- The base sequence that a table of the client gives a partition. -/
def numberAt (m : AList fun _ : TopicPartition => Int) (tp : TopicPartition) : Int :=
  (m.lookup tp).getD 0

/-- The client's tables are right for the broker's record of the producer and its transaction. -/
structure Numbered (nextSeq seqAtBegin : AList fun _ : TopicPartition => Int) (prod : Producer)
    (open_ : Option OpenTxn) : Prop where
  next : ∀ tp, Follows ((open_.bind (·.pending.lookup tp)).or (prod.partitions.lookup tp))
    (numberAt nextSeq tp)
  atBegin : open_.isSome = true → ∀ tp,
    Follows (prod.partitions.lookup tp) (numberAt seqAtBegin tp)
  pending : ∀ txn ∈ open_, ∀ tp, txn.pending.lookup tp = lastBatch tp txn.written
  nonneg : ∀ txn ∈ open_, ∀ r ∈ txn.written, 0 ≤ r.baseSequence

namespace Numbered

variable {nextSeq seqAtBegin : AList fun _ : TopicPartition => Int} {prod : Producer} {txn : OpenTxn}

/-- A table that is right without a transaction. -/
theorem closed (h : ∀ tp, Follows (prod.partitions.lookup tp) (numberAt nextSeq tp)) :
    Numbered nextSeq seqAtBegin prod none where
  next := h
  atBegin := nofun
  pending := nofun
  nonneg := nofun

theorem fresh (h : prod.partitions = ∅) : Numbered ∅ seqAtBegin prod none := by
  refine closed fun tp => ?_
  rw [h]
  exact ⟨le_refl 0, (by norm_num : (0 : Int) < 2 ^ 31), nofun⟩

/-- What the client counted is no longer pending, but harmless where nothing is committed. -/
theorem timedOut (h : Numbered nextSeq seqAtBegin prod (some txn))
    (hnew : ∀ e ∈ txn.pending.entries, prod.partitions.lookup e.1 = none) :
    Numbered nextSeq seqAtBegin prod none := by
  refine closed fun tp => ?_
  have hnext : Follows ((txn.pending.lookup tp).or (prod.partitions.lookup tp)) _ := h.next tp
  cases hpending : txn.pending.lookup tp with
  | none =>
    rw [hpending] at hnext
    exact hnext
  | some batch =>
    have hmem := mem_lookup_iff.mp hpending
    rw [hnew _ hmem]
    exact ⟨hnext.nonneg, hnext.lt, nofun⟩

theorem begin_ (h : Numbered nextSeq seqAtBegin prod none) (hpending : txn.pending = ∅)
    (hwritten : txn.written = []) : Numbered nextSeq nextSeq prod (some txn) where
  next tp := by
    have hlookup : (some txn).bind (·.pending.lookup tp) = none := by
      rw [Option.bind_some, hpending]
      rfl
    rw [hlookup]
    exact h.next tp
  atBegin _ := h.next
  pending txn' h' tp := by
    cases h'
    rw [hpending, hwritten]
    rfl
  nonneg txn' h' := by
    cases h'
    simp [hwritten]

section

variable (h : Numbered nextSeq seqAtBegin prod (some txn))

include h

theorem withBatch {tp : TopicPartition}
    {range : WrittenRange} (htp : range.tp = tp) (hseq : range.baseSequence = numberAt nextSeq tp)
    (hpos : 0 < range.count) (hlt : range.baseSequence + range.count < 2 ^ 31) :
    Numbered (nextSeq.insert tp (range.baseSequence + range.count)) seqAtBegin prod
      (some (withBatch txn tp range)) := by
  have hnonneg : 0 ≤ range.baseSequence := hseq ▸ (h.next tp).nonneg
  refine ⟨fun tp' => ?_, fun _ => h.atBegin rfl, fun txn' h' tp' => ?_, fun txn' h' r hr => ?_⟩
  · by_cases heq : tp' = tp
    · subst heq
      simp only [State.withBatch, numberAt, Option.bind_some, lookup_insert, Option.some_or,
        Option.getD_some]
      exact ⟨by omega, hlt, fun b hb => by cases hb; exact ⟨hnonneg, hpos, rfl⟩⟩
    · simp only [State.withBatch, numberAt, Option.bind_some, lookup_insert_ne heq]
      exact h.next tp'
  · cases h'
    simp only [State.withBatch, lastBatch_concat, htp]
    split_ifs with heq
    · subst heq
      exact lookup_insert _
    · rw [lookup_insert_ne (Ne.symm heq)]
      exact h.pending txn rfl tp'
  · cases h'
    rcases mem_append.mp hr with hr | hr
    · exact h.nonneg txn rfl r hr
    · rw [mem_singleton.mp hr]
      exact hnonneg

/-- The broker records what was pending. -/
theorem commit {partitions : AList fun _ : TopicPartition => BatchState}
    (hlast : ∀ tp, partitions.lookup tp =
      (lastBatch tp txn.written).or (prod.partitions.lookup tp)) :
    Numbered nextSeq ∅ { prod with partitions } none := by
  refine closed fun tp => ?_
  have hnext : Follows ((txn.pending.lookup tp).or (prod.partitions.lookup tp)) _ := h.next tp
  rw [h.pending txn rfl tp, ← hlast tp] at hnext
  exact hnext

/-- The client goes back to what is committed. -/
theorem abort : Numbered seqAtBegin ∅ prod none :=
  closed (h.atBegin rfl)

end

end Numbered

/-- The broker knows the client's producer, and their numbers agree. -/
structure Agrees (id : String) (c : IdempotentState) (s : State) : Prop where
  pid_ne : c.producerId ≠ 0
  prepared : s.preparedTxns.lookup id = none
  producer : ∃ prod, s.producers.lookup c.producerId = some prod ∧ Registered id c.epoch prod ∧
    Numbered c.nextSeq c.seqAtBegin prod (s.openTxns.lookup c.producerId)

/-- If the client's transaction has timed out, it has no batch on a partition where the producer
has a committed one. -/
def NothingLost (c : IdempotentState) (s : State) : Prop :=
  ∀ prod ∈ s.producers.lookup c.producerId, ∀ txn ∈ s.openTxns.lookup c.producerId,
    s.openTxnTimedOut c.producerId txn = true →
      ∀ e ∈ txn.pending.entries, prod.partitions.lookup e.1 = none

namespace Agrees

variable {id : String} {c : IdempotentState} {s : State}

/-- What is not about the producer may change. -/
theorem congr (h : Agrees id c s) {s' : State}
    (hprepared : s'.preparedTxns.lookup id = s.preparedTxns.lookup id)
    (hproducer : s'.producers.lookup c.producerId = s.producers.lookup c.producerId)
    (hopen : s'.openTxns.lookup c.producerId = s.openTxns.lookup c.producerId) :
    Agrees id c s' := by
  refine ⟨h.pid_ne, hprepared.trans h.prepared, ?_⟩
  rw [hproducer, hopen]
  exact h.producer

theorem expireTimedOutTxns (h : Agrees id c s) (hlost : NothingLost c s) :
    Agrees id c s.expireTimedOutTxns := by
  have hprepared : s.expireTimedOutTxns.preparedTxns.lookup id = none := by
    refine Option.eq_none_iff_forall_ne_some.mpr fun prep hprep => ?_
    have hold := lookup_preparedTxns_expire hprep
    rw [h.prepared] at hold
    cases hold
  obtain ⟨prod, hprod, hregistered, hnumbered⟩ := h.producer
  rcases lookup_openTxns_expire_cases s c.producerId with hopen | ⟨hopen, txn, htxn, htimedOut⟩
  · exact h.congr (hprepared.trans h.prepared.symm) (by rw [producers_expire]) hopen
  · refine ⟨h.pid_ne, hprepared, prod, by rw [producers_expire]; exact hprod, hregistered, ?_⟩
    rw [htxn] at hnumbered
    rw [hopen]
    exact hnumbered.timedOut (hlost prod hprod txn htxn htimedOut)

end Agrees

/-! ## Runs -/

/-- What the client or the broker's clock does. -/
inductive Event where
  | begin_
  | produce (tp : TopicPartition) (messages : List Message)
  | end_ (committed : Bool) (offsets : List DeferredOffset)
  | clock (nowMs : Int)
  /-- Some other request makes the broker expire what has timed out. -/
  | sweep

namespace Session

def step (x : Session) : Event → Session
  | .begin_ => x.beginTransaction.2
  | .produce tp messages => (x.produce tp messages).2
  | .end_ committed offsets => (x.endTransaction committed offsets).2
  | .clock nowMs => { x with broker := { x.broker with nowMs } }
  | .sweep => { x with broker := x.broker.expireTimedOutTxns }

/-- No timeout takes away a number the broker needs, and no batch goes past the last number. -/
def Smooth (x : Session) : Event → Prop
  | .begin_ | .end_ _ _ | .sweep =>
    x.client.initialized = true → NothingLost x.client x.broker
  | .produce tp messages =>
    (x.client.initialized = true → NothingLost x.client x.broker) ∧
      x.sequence tp + messages.length < 2 ^ 31
  | .clock _ => True

/-- The client has not spoken to the broker yet. -/
structure Start (id : String) (x : Session) : Prop where
  config : x.config.transactionalId = some id
  id_ne : id ≠ ""
  client : x.client = .default
  ready : Ready id x.broker

/-- What else happens on the broker: it does not touch the producer of a client that has one, and
keeps the id free for a client that has none. -/
def Elsewhere (id : String) (x : Session) (s : State) : Prop :=
  if x.client.initialized then
    s.preparedTxns.lookup id = x.broker.preparedTxns.lookup id ∧
      s.producers.lookup x.client.producerId = x.broker.producers.lookup x.client.producerId ∧
      s.openTxns.lookup x.client.producerId = x.broker.openTxns.lookup x.client.producerId
  else Ready id s

/-- The states of a run in which every step is smooth. -/
inductive Reachable (id : String) : Session → Prop where
  | start {x : Session} (h : x.Start id) : Reachable id x
  | step {x : Session} (h : Reachable id x) (e : Event) (hsmooth : x.Smooth e) :
      Reachable id (x.step e)
  | elsewhere {x : Session} (h : Reachable id x) (s : State) (helse : x.Elsewhere id s) :
      Reachable id { x with broker := s }

structure Inv (id : String) (x : Session) : Prop where
  config : x.config.transactionalId = some id
  id_ne : id ≠ ""
  new : x.client.initialized = false → x.client = .default ∧ Ready id x.broker
  agrees : x.client.initialized = true → Agrees id x.client x.broker

variable {id : String} {x : Session} {y : Session} {s : State} {messages : List Message}

theorem Start.inv (h : x.Start id) : x.Inv id := by
  refine ⟨h.config, h.id_ne, fun _ => ⟨h.client, h.ready⟩, fun hinit => ?_⟩
  rw [h.client] at hinit
  cases hinit

/-- A step of a client that has a producer. -/
theorem Inv.of_agrees (h : x.Inv id) (hconfig : y.config = x.config)
    (hinit : y.client.initialized = true) (hagrees : Agrees id y.client y.broker) : y.Inv id := by
  refine ⟨hconfig ▸ h.config, h.id_ne, fun hfalse => ?_, fun _ => hagrees⟩
  rw [hinit] at hfalse
  cases hfalse

/-! ## InitProducerId -/

/-- The client with its producer, before the request itself. -/
structure Initialised (id : String) (x y : Session) : Prop where
  config : y.config = x.config
  initialized : y.client.initialized = true
  agrees : Agrees id y.client y.broker
  sequence : ∀ tp, y.sequence tp = x.sequence tp
  lost : (x.client.initialized = true → NothingLost x.client x.broker) →
    NothingLost y.client y.broker

theorem Inv.ensureProducerId (h : x.Inv id) : Initialised id x x.ensureProducerId := by
  unfold Session.ensureProducerId
  split
  next hinit => exact ⟨rfl, hinit, h.agrees hinit, fun _ => rfl, fun hlost => hlost hinit⟩
  next hinit =>
    obtain ⟨hclient, hready⟩ := h.new (by simpa using hinit)
    obtain ⟨hpid, hprepared, hopen, prod, hprod, hregistered, hempty⟩ := hready.init h.id_ne
    rw [h.config]
    refine ⟨h.config ▸ rfl, rfl, ⟨hpid, hprepared, prod, hprod, hregistered, ?_⟩, fun tp => ?_,
      fun _ prod' _ txn htxn => ?_⟩
    · simp only [Option.getD_some, hopen]
      exact .fresh hempty
    · simp [sequence, hclient, IdempotentState.default]
    · simp only [Option.getD_some, hopen] at htxn
      cases htxn

/-! ## Begin -/

theorem checkTxnProducer_final {pid epoch : Nat} {code : ErrorCode}
    (h : s.checkTxnProducer pid epoch = .error code) : isTransientErrorCode code = false := by
  unfold checkTxnProducer at h
  split at h
  · cases h
    rfl
  · split_ifs at h <;> cases h <;> rfl

theorem beginTxn_final (s : State) (pid epoch : Nat) :
    isTransientErrorCode (s.beginTxn pid epoch).1 = false := by
  unfold beginTxn
  simp only
  split
  next code hcode => exact checkTxnProducer_final hcode
  · split_ifs <;> rfl

theorem Inv.beginTransaction (h : x.Inv id)
    (hlost : x.client.initialized = true → NothingLost x.client x.broker) :
    x.beginTransaction.2.Inv id := by
  have hsome : x.config.transactionalId.isNone = false := by rw [h.config]; rfl
  have hy := h.ensureProducerId
  unfold Session.beginTransaction
  simp only [hsome, Bool.false_eq_true, if_false]
  generalize x.ensureProducerId = y at hy
  have hagrees := hy.agrees.expireTimedOutTxns (hy.lost hlost)
  rw [retrying_of_final (beginTxn_final _ _ _)]
  rcases beginTxn_cases y.broker y.client.producerId y.client.epoch with
    ⟨code, hcode, heq⟩ | ⟨prod, hcheck, -, -, hnone, heq⟩
  · simp only [heq, checkOk, if_neg hcode]
    exact h.of_agrees hy.config hy.initialized hagrees
  · simp only [heq, checkOk, if_true]
    refine h.of_agrees hy.config hy.initialized ⟨hagrees.pid_ne, hagrees.prepared, ?_⟩
    obtain ⟨prod, hprod, hregistered, hnumbered⟩ := hagrees.producer
    rw [hnone] at hnumbered
    refine ⟨prod, hprod, hregistered, ?_⟩
    simp only [lookup_insert]
    exact hnumbered.begin_ rfl rfl

/-! ## Produce -/

/-- The answer of the broker to a batch of the client. -/
def check (y : Session) (tp : TopicPartition) (messages : List Message) : IdempotentCheck × State :=
  y.broker.bufferTxnProduce y.client.producerId y.client.epoch tp (y.sequence tp) messages

theorem handleProduce_eq_check (hagrees : Agrees id y.client y.broker) (tp : TopicPartition)
    (hne : messages ≠ []) :
    y.broker.handleProduce (standaloneEnv y.broker) tp (y.produceRequest tp messages) =
      (.ok (checkResponse (y.check tp messages).1 (messageCount messages)),
        (y.check tp messages).2) := by
  obtain ⟨prod, hprod, hregistered, hnumbered⟩ := hagrees.producer
  have hempty : messages.isEmpty = false := by simpa using hne
  have htransactional : y.broker.isTransactionalProducer y.client.producerId = true := by
    simp [isTransactionalProducer, hprod, hregistered.transactional]
  have hseq : 0 ≤ y.sequence tp := (hnumbered.next tp).nonneg
  simp [handleProduce, produceRequest, standaloneEnv, Partition.ProduceEnv.standalone, hempty,
    hagrees.pid_ne, hseq, htransactional, check]

/-- The answers to a batch in sequence: no transaction, no partition, or accepted. -/
inductive Answered (id : String) (y : Session) (tp : TopicPartition) (messages : List Message) :
    IdempotentCheck × State → Prop where
  | closed (hopen : y.broker.expireTimedOutTxns.openTxns.lookup y.client.producerId = none) :
      Answered id y tp messages (.reject (y.broker.expireTimedOutTxns.noOpenTxn y.client.producerId),
        y.broker.expireTimedOutTxns)
  | missing (hp : y.broker.expireTimedOutTxns.partitions tp = none) :
      Answered id y tp messages (.reject .unknown, y.broker.expireTimedOutTxns)
  | accepted (baseOffset : Nat) (s : State)
      (hagrees : Agrees id { y.client with
        nextSeq := y.client.nextSeq.insert tp (y.sequence tp + messages.length) } s) :
      Answered id y tp messages (.accept baseOffset, s)

theorem answered (hagrees : Agrees id y.client y.broker) (hlost : NothingLost y.client y.broker)
    (tp : TopicPartition) (hne : messages ≠ []) (hlt : y.sequence tp + messages.length < 2 ^ 31) :
    Answered id y tp messages (y.check tp messages) := by
  have hexpired := hagrees.expireTimedOutTxns hlost
  obtain ⟨prod, hprod, hregistered, hnumbered⟩ := hexpired.producer
  have hseq : 0 ≤ y.sequence tp := (hnumbered.next tp).nonneg
  have hcount : messageCount messages = messages.length := Nat.mod_eq_of_lt (by omega)
  have hpos : 0 < messages.length := length_pos_iff.mpr hne
  have hcheck := hregistered.checkTxnProducer hprod
  have hprepared : y.broker.expireTimedOutTxns.isPrepared prod.transactionalId = false := by
    rw [isPrepared, hregistered.transactionalId, hexpired.prepared]
    exact Bool.and_false _
  unfold check
  cases hopen : y.broker.expireTimedOutTxns.openTxns.lookup y.client.producerId with
  | none =>
    rw [bufferTxnProduce_of_closed hcheck hprepared hopen tp _ (by omega)]
    exact .closed hopen
  | some txn =>
    rw [hopen] at hnumbered
    have hnext : Follows ((txn.pending.lookup tp).or (prod.partitions.lookup tp)) (y.sequence tp) :=
      hnumbered.next tp
    rw [bufferTxnProduce_of_open hcheck hprepared hopen (by omega) hnext]
    rcases writeThrough_cases hopen tp (y.sequence tp) hne with
      ⟨hp, heq⟩ | ⟨-, range, htp, hbase, hrange, s, hproducers, hprep, hopens, heq⟩
    · rw [heq]
      exact .missing hp
    · rw [heq]
      rw [hcount] at hrange
      refine .accepted _ s ⟨hexpired.pid_ne, hprep ▸ hexpired.prepared, prod, hproducers ▸ hprod,
        hregistered, ?_⟩
      rw [hopens, lookup_insert, ← hbase, ← hrange]
      exact hnumbered.withBatch htp hbase (by omega) (by omega)

theorem sequenceAfter_of_lt {n : Int} {count : Nat} (h : 0 ≤ n) (hlt : n + count < 2 ^ 31) :
    sequenceAfter n count = n + count := by
  rw [sequenceAfter, castSigned_of_lt (by omega), saturateSigned]
  omega

theorem noOpenTxn_cases (s : State) (pid : Nat) :
    s.noOpenTxn pid = .transactionAbortable ∨ s.noOpenTxn pid = .invalidTxnState := by
  unfold noOpenTxn
  split_ifs
  · exact .inl rfl
  · exact .inr rfl

theorem Inv.produce (h : x.Inv id)
    (hlost : x.client.initialized = true → NothingLost x.client x.broker) (tp : TopicPartition)
    (hlt : x.sequence tp + messages.length < 2 ^ 31) : (x.produce tp messages).2.Inv id := by
  unfold Session.produce
  split
  · exact h
  next hempty =>
    have hne : messages ≠ [] := by simpa using hempty
    have hy := h.ensureProducerId
    simp only
    generalize x.ensureProducerId = y at hy
    rw [← hy.sequence] at hlt
    have hagrees := hy.agrees.expireTimedOutTxns (hy.lost hlost)
    have hhandled := handleProduce_eq_check hy.agrees tp hne
    have hanswer := answered hy.agrees (hy.lost hlost) tp hne hlt
    generalize y.check tp messages = r at hhandled hanswer
    cases hanswer with
    | closed hopen =>
      have hcode := noOpenTxn_cases y.broker.expireTimedOutTxns y.client.producerId
      generalize y.broker.expireTimedOutTxns.noOpenTxn y.client.producerId = code at *
      rw [retrying_of_final (by rw [hhandled]; rcases hcode with rfl | rfl <;> rfl), hhandled]
      have hfail : checkOk "produce" code = .error (.failed "produce" code) := by
        rcases hcode with rfl | rfl <;> rfl
      simp only [checkResponse, hfail]
      exact h.of_agrees hy.config hy.initialized hagrees
    | missing hp =>
      rw [retrying_of_final (by rw [hhandled]; rfl), hhandled]
      exact h.of_agrees hy.config hy.initialized hagrees
    | accepted baseOffset s haccepted =>
      have hseq : 0 ≤ y.sequence tp := by
        obtain ⟨prod, -, -, hnumbered⟩ := hy.agrees.producer
        exact (hnumbered.next tp).nonneg
      have hcount : messageCount messages = messages.length := Nat.mod_eq_of_lt (by omega)
      rw [retrying_of_final (by rw [hhandled]; rfl), hhandled]
      simp only [checkResponse, checkOk, if_true, if_pos hseq, hcount, sequenceAfter_of_lt hseq hlt]
      exact h.of_agrees hy.config hy.initialized haccepted

/-! ## Commit and abort -/

section

variable (s : State) (pid epoch : Nat) (committed : Bool) (offsets : List DeferredOffset)

theorem completeOpen_final (prod : Producer) :
    isTransientErrorCode (s.completeOpen pid epoch committed offsets prod).1 = false := by
  unfold completeOpen
  split
  · split <;> rfl
  · split <;> rfl

theorem completePrepared_final (id : String) (prep : PreparedTxn) :
    isTransientErrorCode (s.completePrepared pid epoch committed offsets id prep).1 = false := by
  unfold completePrepared
  split_ifs <;> rfl

theorem endTxn_final : isTransientErrorCode (s.endTxn pid epoch committed offsets).1 = false := by
  unfold endTxn
  dsimp only
  split
  · rfl
  · split
    · rfl
    · split
      · exact completeOpen_final _ _ _ _ _ _
      · split
        · exact completePrepared_final _ _ _ _ _ _ _
        · exact completeOpen_final _ _ _ _ _ _

end

/-- An open transaction of the client is finalized, with the numbers of the outcome. -/
theorem agrees_finalize {c : IdempotentState} (h : Agrees id c s) {txn : OpenTxn}
    (hopen : s.openTxns.lookup c.producerId = some txn) (committed : Bool)
    (offsets : List DeferredOffset) :
    let s₁ := { s with openTxns := s.openTxns.erase c.producerId }.clearTxnAbortable c.producerId
    let s₂ := (s₁.finalizeTxn c.producerId c.epoch committed txn offsets).2.markCommitted committed
      txn.serial
    Agrees id { c with
      inTransaction := false, nextSeq := if committed then c.nextSeq else c.seqAtBegin
      seqAtBegin := ∅ } s₂ := by
  intro s₁ s₂
  obtain ⟨prod, hprod, hregistered, hnumbered⟩ := h.producer
  rw [hopen] at hnumbered
  have htables : s₂.txnTables = s₁.txnTables.mark committed txn.serial := by
    rw [txnTables_markCommitted, txnTables_finalizeTxn]
  obtain ⟨hopen₂, hprepared₂⟩ : s₂.openTxns = s.openTxns.erase c.producerId ∧
      s₂.preparedTxns = s.preparedTxns := by
    unfold TxnTables.mark at htables
    split_ifs at htables <;>
      exact ⟨congrArg TxnTables.openTxns htables, congrArg TxnTables.preparedTxns htables⟩
  have hclosed : s₂.openTxns.lookup c.producerId = none := by
    rw [hopen₂]
    exact lookup_erase _ _
  refine ⟨h.pid_ne, hprepared₂ ▸ h.prepared, ?_⟩
  simp only [hclosed]
  cases committed with
  | false =>
    have hproducers : s₂.producers = s.producers :=
      producers_finalizeTxn_abort s₁ c.producerId c.epoch txn offsets
    rw [hproducers]
    exact ⟨prod, hprod, hregistered, hnumbered.abort⟩
  | true =>
    obtain ⟨partitions, hlookup, hlast⟩ := producers_recordAll (s := s₁) h.pid_ne hprod
      hregistered.epoch (hnumbered.nonneg txn rfl)
    have hproducers : s₂.producers = _ :=
      producers_finalizeTxn_commit s₁ c.producerId c.epoch txn offsets
    rw [hproducers]
    exact ⟨_, hlookup, ⟨hregistered.epoch, hregistered.transactional, hregistered.transactionalId,
      hregistered.enable2pc⟩, hnumbered.commit hlast⟩

theorem Inv.endTransaction (h : x.Inv id)
    (hlost : x.client.initialized = true → NothingLost x.client x.broker) (committed : Bool)
    (offsets : List DeferredOffset) : (x.endTransaction committed offsets).2.Inv id := by
  unfold Session.endTransaction
  split
  · exact h
  next hinit =>
    have hinit : x.client.initialized = true := by simpa using hinit
    have hagrees := (h.agrees hinit).expireTimedOutTxns (hlost hinit)
    obtain ⟨prod, hprod, hregistered, -⟩ := hagrees.producer
    rw [retrying_of_final (endTxn_final _ _ _ _ _)]
    rcases endTxn_exits x.broker x.client.producerId x.client.epoch committed offsets with
      ⟨hcode, hstate⟩ | ⟨prod', hprod', -, ⟨prep, -, hprep, -⟩ | ⟨-, txn, htxn, hends⟩⟩
    · simp only [checkOk, if_neg hcode]
      refine h.of_agrees rfl hinit ?_
      rcases hstate with heq | heq
      · rw [heq]
        exact hagrees
      · rw [heq]
        exact hagrees.congr rfl rfl rfl
    all_goals
      rw [hprod] at hprod'
      cases hprod'
    · rw [hregistered.transactionalId, hagrees.prepared] at hprep
      cases hprep
    · have hends := (if_neg (by simp [hregistered.enable2pc])).mp hends
      simp only [hends, checkOk, if_true]
      exact h.of_agrees rfl hinit (agrees_finalize hagrees htxn committed offsets)

/-! ## Every run -/

theorem Inv.step (h : x.Inv id) {e : Event} (hsmooth : x.Smooth e) : (x.step e).Inv id := by
  cases e with
  | begin_ => exact h.beginTransaction hsmooth
  | produce tp messages => exact h.produce hsmooth.1 tp hsmooth.2
  | end_ committed offsets => exact h.endTransaction hsmooth committed offsets
  | clock nowMs =>
    refine ⟨h.config, h.id_ne, fun hinit => ?_, fun hinit => (h.agrees hinit).congr rfl rfl rfl⟩
    obtain ⟨hclient, hready⟩ := h.new hinit
    exact ⟨hclient, hready.owner, hready.next_ne, hready.next_closed⟩
  | sweep =>
    refine ⟨h.config, h.id_ne, fun hinit => ?_, fun hinit => ?_⟩
    · obtain ⟨hclient, hready⟩ := h.new hinit
      exact ⟨hclient, hready.expireTimedOutTxns⟩
    · exact (h.agrees hinit).expireTimedOutTxns (hsmooth hinit)

theorem Inv.elsewhere (h : x.Inv id) (helse : x.Elsewhere id s) :
    Inv id { x with broker := s } := by
  refine ⟨h.config, h.id_ne, fun hinit => ⟨(h.new hinit).1, ?_⟩, fun hinit => ?_⟩
  · rw [Elsewhere, if_neg (by simpa using hinit)] at helse
    exact helse
  · rw [Elsewhere, if_pos hinit] at helse
    exact (h.agrees hinit).congr helse.1 helse.2.1 helse.2.2

theorem Reachable.inv (h : Reachable id x) : x.Inv id := by
  induction h with
  | start h => exact h.inv
  | step _ e hsmooth ih => exact ih.step hsmooth
  | elsewhere _ s helse ih => exact ih.elsewhere helse

/-- A batch the client sends in a smooth run is never out of sequence and never a duplicate, and
it is accepted if its transaction is still open and its partition exists. -/
theorem batch_in_sequence (h : Reachable id x) {tp : TopicPartition} {messages : List Message}
    (hsmooth : x.Smooth (.produce tp messages)) (hne : messages ≠ []) :
    let y := x.ensureProducerId
    let answer := (y.check tp messages).1
    (y.broker.handleProduce (standaloneEnv y.broker) tp (y.produceRequest tp messages)).1 =
        .ok (checkResponse answer (messageCount messages)) ∧
      answer ≠ .reject .outOfOrderSequence ∧
      (∀ baseOffset count, answer ≠ .duplicate baseOffset count) ∧
      ((y.broker.expireTimedOutTxns.openTxns.lookup y.client.producerId).isSome = true →
        (y.broker.expireTimedOutTxns.partitions tp).isSome = true →
        ∃ baseOffset, answer = .accept baseOffset) := by
  intro y answer
  have hy := h.inv.ensureProducerId
  refine ⟨by rw [handleProduce_eq_check hy.agrees tp hne], ?_⟩
  have hlt := hsmooth.2
  rw [← hy.sequence] at hlt
  have hanswer := answered hy.agrees (hy.lost hsmooth.1) tp hne hlt
  have hcheck : answer = (y.check tp messages).1 := rfl
  generalize y.check tp messages = r at hanswer hcheck
  cases hanswer with
  | closed hopen =>
    refine ⟨?_, by simp [hcheck], fun hsome => ?_⟩
    · rw [hcheck]
      rcases noOpenTxn_cases x.ensureProducerId.broker.expireTimedOutTxns
        x.ensureProducerId.client.producerId with hcode | hcode <;> simp [hcode]
    · rw [hopen] at hsome
      cases hsome
  | missing hp =>
    refine ⟨by simp [hcheck], by simp [hcheck], fun _ hsome => ?_⟩
    rw [hp] at hsome
    cases hsome
  | accepted baseOffset s _ =>
    exact ⟨by simp [hcheck], by simp [hcheck], fun _ _ => ⟨baseOffset, hcheck⟩⟩

/-! ## A commit, and a timeout -/

instance (c : IdempotentState) (s : State) : Decidable (NothingLost c s) := by
  unfold NothingLost
  infer_instance

instance (x : Session) (e : Event) : Decidable (x.Smooth e) := by
  cases e <;> unfold Smooth <;> infer_instance

/-- The session after some events. -/
def follow (x : Session) (es : List Event) : Session := es.foldl step x

/-- Every event of the list is smooth. -/
def FollowsSmoothly : Session → List Event → Prop
  | _, [] => True
  | x, e :: es => x.Smooth e ∧ FollowsSmoothly (x.step e) es

instance : ∀ (x : Session) (es : List Event), Decidable (x.FollowsSmoothly es)
  | _, [] => .isTrue trivial
  | x, e :: es =>
    have := instDecidableFollowsSmoothly (x.step e) es
    inferInstanceAs (Decidable (_ ∧ _))

theorem Reachable.follow (h : Reachable id x) {es : List Event} (hes : x.FollowsSmoothly es) :
    Reachable id (x.follow es) := by
  induction es generalizing x with
  | nil => exact h
  | cons e es ih => exact ih (h.step e hes.1) hes.2

/-- A new client, and a broker on which an open transaction may last a second. -/
def newClient : Session where
  config := { transactionalId := some "a", acks := 1, maxRetries := 0 }
  client := .default
  broker := { (State.fresh State.oneSecond).createPartition State.orders with nowMs := 1 }

theorem start_newClient : newClient.Start "a" where
  config := rfl
  id_ne := by decide
  client := rfl
  ready := ⟨nofun, by decide +kernel, by decide +kernel⟩

/-- The client commits a batch and begins again. -/
def committedOnce : List Event :=
  [.begin_, .produce State.orders [State.order 7], .end_ true [], .begin_]

/-- The batch after a commit is accepted. -/
theorem batch_after_commit : ∃ baseOffset,
    ((newClient.follow committedOnce).ensureProducerId.check State.orders [State.order 8]).1 =
      .accept baseOffset := by
  have hreachable : Reachable "a" (newClient.follow committedOnce) :=
    (Reachable.start start_newClient).follow (by decide +kernel)
  exact (batch_in_sequence hreachable (by decide +kernel) (cons_ne_nil _ _)).2.2.2
    (by decide +kernel) (by decide +kernel)

/-- After a timeout the client is told to abort, begins a transaction, and is a batch ahead of the
broker. -/
theorem batch_after_timeout :
    let x := newClient.follow (committedOnce ++
      [.produce State.orders [State.order 8], .clock 5000])
    (x.endTransaction false []).1 = .error (.failed "end_txn" .transactionAbortable) ∧
      ((x.endTransaction false []).2.beginTransaction.1 matches .ok ()) ∧
      (((x.endTransaction false []).2.beginTransaction.2).check State.orders [State.order 9]).1 =
        .reject .outOfOrderSequence := by
  decide +kernel

end Session

end Client
end Volant
