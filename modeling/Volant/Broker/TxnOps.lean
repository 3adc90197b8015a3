-- SUMMARY: InitProducerId, opening, producing and fetching keep the transaction invariant.
import Volant.Broker.TxnEnd

/-!
# The other operations

What is left of the broker's operations: those that hand out producer ids,
open a transaction, write to it, or only read.
-/

namespace Volant.Broker.State

open List

variable {exact steps : Prop} {s s' : State} {pid : Nat} {txn : OpenTxn} {messages : List Message}

/-! ## What aborts leave alone -/

/-- A relation that every step of an abort stays in: steps that append records, push aborted ranges
and write files, but touch no table of transactions. -/
structure Frame (R : State → State → Prop) : Prop where
  refl : ∀ s, R s s
  trans : ∀ {s s' s''}, R s s' → R s' s'' → R s s''
  memory : ∀ (s : State) {partitions origins abortedTxns abortableProducers markersFile},
    (∀ tp, s.origins tp <+: origins tp) →
    R s { s with partitions, origins, abortedTxns, abortableProducers, markersFile }
  durable : ∀ (s : State) {step}, step ≠ DurableStep.offset → R s (s.durable step)
  prepared : ∀ s, R s s.persistPreparedTxns

namespace Frame

variable {R : State → State → Prop} (hR : Frame R)
include hR

theorem foldl {α : Type} {f : State → α → State} (hf : ∀ s x, R s (f s x)) (l : List α)
    (s : State) : R s (l.foldl f s) := by
  induction l generalizing s with
  | nil => exact hR.refl s
  | cons x l ih => exact hR.trans (hf s x) (ih (f s x))

section

variable (s : State)

theorem produce (tp : TopicPartition) (ms : List Message) (g : Origin)
    {step : DurableStep} (hstep : step ≠ .offset) : R s (s.produce tp ms g step).2 := by
  cases hp : s.partitions tp with
  | none =>
    simp only [State.produce, hp]
    exact hR.refl s
  | some p =>
    rcases eq_or_ne ms [] with rfl | hms
    · rw [produce_nil hp]
      exact hR.durable s hstep
    · rw [produce_some hp hms]
      have hkeeps : Keeps s ((s.appended tp p ms g).durable step) := appended_keeps step
      exact hR.trans (hR.memory s hkeeps.origins) (hR.durable _ hstep)

theorem appendTxnControlMarkers (pid epoch : Nat) (markerType : ControlMarkerType)
    (txn : OpenTxn) : R s (s.appendTxnControlMarkers pid epoch markerType txn) :=
  hR.foldl (fun s tp => hR.produce s tp _ _ (by simp)) _ s

theorem persistTxnMarkers {step : DurableStep} (hstep : step ≠ .offset) :
    R s (s.persistTxnMarkers step) :=
  hR.trans (hR.memory s fun _ => prefix_rfl) (hR.durable _ hstep)

theorem recordAbortedFromTxn (pid : Nat) (txn : OpenTxn) :
    R s (s.recordAbortedFromTxn pid txn) := by
  obtain ⟨_, heq, -⟩ := pushAbortedHulls_spec s pid txn.written
  have hpush : R s (s.pushAbortedHulls pid txn.written) := by
    rw [heq]
    exact hR.memory s fun _ => prefix_rfl
  exact hR.trans hpush (hR.persistTxnMarkers _ (by simp))

theorem abort (pid epoch : Nat) (txn : OpenTxn) :
    R s ((s.recordAbortedFromTxn pid txn).appendTxnControlMarkers pid epoch .abort txn) :=
  hR.trans (hR.recordAbortedFromTxn s pid txn) (hR.appendTxnControlMarkers _ pid epoch .abort txn)

theorem abortExpired (pid epoch : Nat) (txn : OpenTxn) : R s (s.abortExpired pid epoch txn) :=
  hR.trans (hR.abort s pid epoch txn) (hR.memory _ fun _ => prefix_rfl)

theorem expireTimedOutOpenTxns :
    R { s with openTxns := s.unexpiredOpenTxns } s.expireTimedOutOpenTxns := by
  unfold State.expireTimedOutOpenTxns
  simp only
  split
  next hempty =>
    rw [unexpiredOpenTxns, isEmpty_iff.mp hempty]
    exact hR.refl s
  next =>
    exact hR.trans (hR.foldl (fun s (e : Nat × Nat × OpenTxn) =>
      hR.abortExpired s e.1 e.2.1 e.2.2) _ _) (hR.persistTxnMarkers _ (by simp))

theorem expireTimedOutPreparedTxns :
    R { s with preparedTxns := s.unexpiredPreparedTxns } s.expireTimedOutPreparedTxns := by
  unfold State.expireTimedOutPreparedTxns
  simp only
  split
  next hempty =>
    rw [unexpiredPreparedTxns, isEmpty_iff.mp hempty]
    exact hR.refl s
  next =>
    exact hR.trans (hR.foldl (fun s (p : PreparedTxn) =>
      hR.abortExpired s p.producerId p.producerEpoch p.body) _ _) (hR.prepared _)

theorem loadTxnMarkers : R s s.loadTxnMarkers := by
  unfold State.loadTxnMarkers
  split
  · exact hR.memory s fun _ => prefix_rfl
  next file _ =>
    have hcrash (s : State) : R s (s.appendCrashAbortControlMarkers file) := by
      refine hR.foldl (fun s crashed => ?_) _ s
      split
      · exact hR.refl s
      · exact hR.appendTxnControlMarkers s _ _ _ _
    have hload : ∀ abortedTxns, R s { s with abortedTxns } := fun _ => hR.memory s fun _ => prefix_rfl
    have hgc (s : State) : R s s.gcStaleAbortedMarkersAll := hR.memory s fun _ => prefix_rfl
    exact hR.trans (hload _) (hR.trans (hcrash _) (hR.trans (hgc _)
      (hR.persistTxnMarkers _ (by simp))))

end

end Frame

/-- The tables that decide who is timed out or fenced are the same. -/
structure SameTables (s s' : State) : Prop where
  config : s'.config = s.config
  nowMs : s'.nowMs = s.nowMs
  producers : s'.producers = s.producers
  transactionalIds : s'.transactionalIds = s.transactionalIds
  openTxns : s'.openTxns = s.openTxns
  preparedTxns : s'.preparedTxns = s.preparedTxns

theorem SameTables.trans {s'' : State} (h : SameTables s s') (h' : SameTables s' s'') :
    SameTables s s'' :=
  ⟨h'.1.trans h.1, h'.2.trans h.2, h'.3.trans h.3, h'.4.trans h.4, h'.5.trans h.5, h'.6.trans h.6⟩

theorem frame_sameTables : Frame SameTables := by
  refine ⟨?_, .trans, ?_, ?_, ?_⟩ <;> intros <;> exact ⟨rfl, rfl, rfl, rfl, rfl, rfl⟩

/-! ## After expiry nothing is timed out -/

theorem expiredOpenTxns_expireTimedOutTxns (s : State) :
    s.expireTimedOutTxns.expiredOpenTxns = [] := by
  have h₁ := frame_sameTables.expireTimedOutOpenTxns s
  have h₂ := frame_sameTables.expireTimedOutPreparedTxns s.expireTimedOutOpenTxns
  have htimedOut : s.expireTimedOutTxns.openTxnTimedOut = s.openTxnTimedOut := by
    funext pid txn
    simp only [expireTimedOutTxns, openTxnTimedOut, timedOut, clampTxnTimeoutMs, h₂.config,
      h₂.nowMs, h₂.producers, h₁.config, h₁.nowMs, h₁.producers]
  have hopen : s.expireTimedOutTxns.openTxns = _ := h₂.openTxns.trans h₁.openTxns
  rw [expiredOpenTxns, map_eq_nil_iff, filter_eq_nil_iff, htimedOut, hopen]
  intro e he htimed
  -- an entry that has timed out would have been erased
  rw [unexpiredOpenTxns, expiredOpenTxns, foldl_map] at he
  have hold := Assoc.mem_of_mem_foldl_erase _ _ _ he
  exact Assoc.key_notMem_of_mem_foldl_erase _ _ _ he
    (mem_map_of_mem (f := fun e : (_ : Nat) × OpenTxn => e.1)
      (mem_filter.mpr ⟨hold, htimed⟩))

theorem expiredPreparedTxns_expireTimedOutTxns
    (h : ∀ e ∈ s.preparedTxns.entries, e.2.transactionalId = e.1) :
    s.expireTimedOutTxns.expiredPreparedTxns = [] := by
  have h₁ := frame_sameTables.expireTimedOutOpenTxns s
  have h₂ := frame_sameTables.expireTimedOutPreparedTxns s.expireTimedOutOpenTxns
  have hprep : s.expireTimedOutTxns.preparedTxns = _ := h₂.preparedTxns
  have hkeys : ∀ e ∈ s.expireTimedOutOpenTxns.preparedTxns.entries, e.2.transactionalId = e.1 := by
    rw [h₁.preparedTxns]
    exact h
  rw [expiredPreparedTxns, map_eq_nil_iff, filter_eq_nil_iff, hprep]
  intro e he htimed
  rw [unexpiredPreparedTxns, expiredPreparedTxns, foldl_map] at he
  have hold := Assoc.mem_of_mem_foldl_erase _ _ _ he
  have hnot := Assoc.key_notMem_of_mem_foldl_erase _ _ _ he
  refine hnot ?_
  rw [← hkeys e hold]
  refine mem_map_of_mem (f := fun e : (_ : String) × PreparedTxn => e.2.transactionalId)
    (mem_filter.mpr ⟨hold, ?_⟩)
  simpa [expireTimedOutTxns, timedOut, clampTxnTimeoutMs, h₂.config, h₂.nowMs] using htimed

theorem expireTimedOutTxns_of_nil (hopen : s.expiredOpenTxns = [])
    (hprepared : s.expiredPreparedTxns = []) : s.expireTimedOutTxns = s := by
  have hsame : s.expireTimedOutOpenTxns = s := by simp [expireTimedOutOpenTxns, hopen]
  simp [expireTimedOutTxns, hsame, expireTimedOutPreparedTxns, hprepared]

/-! ## InitProducerId -/

theorem Goes.after {s₀ : State} (h : Goes exact steps s s') (hl : Later s₀ s) :
    Goes exact steps s₀ s' :=
  ⟨h.settled, hl.trans h.later⟩

section

variable (h : Settled exact steps s)

include h

/-- The producer tables change and are written. -/
theorem Settled.persistProducerState (nextProducerId : Nat)
    (producers : AList fun _ : Nat => Producer) (transactionalIds : AList fun _ : String => Nat)
    (abortableProducers : List Nat) :
    Goes exact steps s { s with
      nextProducerId, producers, transactionalIds, abortableProducers }.persistProducerState := by
  have hk : Keeps s { s with
    nextProducerId, producers, transactionalIds, abortableProducers } := .others s
  obtain ⟨hmid, hk'⟩ := h.mid.persistProducerState hk rfl rfl rfl
  exact ⟨hmid.settled (hk'.fresh h.fresh) (hk'.preparedSynced h.prepared), hk'.grows.toLater⟩

/-- The producer tables change, the producer is fenced, and the tables are written. -/
theorem Settled.fenceProducer (producers : AList fun _ : Nat => Producer) (transactionalIds : AList fun _ : String => Nat)
    (pid epoch : Nat) (hclean : exact → ∀ txn, s.openTxns.lookup pid = some txn → s.CleanHull txn) :
    Goes exact steps s (({ s with producers, transactionalIds }.fenceOpenTxn pid
      epoch).clearTxnAbortable pid).persistProducerState := by
  have hk : Keeps s { s with producers, transactionalIds } := .others s
  obtain ⟨hfenced, hlater⟩ := (h.keep hk (.inl rfl) rfl rfl).fenceOpenTxn pid epoch hclean
  exact ((hfenced.clearTxnAbortable pid).persistProducerState _ _ _ _).after
    (hk.grows.toLater.trans (hlater.trans (.maps _)))

theorem Settled.fenceOrAllocate (id : String) (enable2pc : Bool) (clientTimeout : Nat)
    (hclean : exact → ∀ pid txn, s.transactionalIds.lookup id = some pid →
      s.openTxns.lookup pid = some txn → s.CleanHull txn) :
    Goes exact steps s (s.fenceOrAllocate id enable2pc clientTimeout).2 := by
  unfold State.fenceOrAllocate
  simp only
  split
  next pid prod hexisting =>
    have hid : s.transactionalIds.lookup id = some pid := by
      obtain ⟨pid', hpid', hmap⟩ := Option.bind_eq_some_iff.mp hexisting
      obtain ⟨_, _, heq⟩ := Option.map_eq_some_iff.mp hmap
      cases heq
      exact hpid'
    exact h.fenceProducer _ _ pid prod.epoch fun hex txn => hclean hex pid txn hid
  next => exact h.persistProducerState _ _ _ _

/-- The transactions that InitProducerId aborts, apart from timed-out ones. -/
def fencedTxns (s : State) (id : String) (keepPrepared : Bool) : List OpenTxn :=
  let owned := ((s.transactionalIds.lookup id).bind fun pid => s.openTxns.lookup pid).toList
  match s.preparedTxns.lookup id with
  | none => owned
  | some prep =>
    if keepPrepared then (s.openTxns.lookup prep.producerId).toList else prep.body :: owned

theorem Settled.initProducerIdWithOpts (hexpiry : exact → s.CleanExpiry)
    (id : String) (enable2pc keepPrepared : Bool) (timeoutMs : Int)
    (hclean : exact → ∀ txn ∈ s.expireTimedOutTxns.fencedTxns id keepPrepared,
      s.expireTimedOutTxns.CleanHull txn) : Goes exact (steps ∧ s.expiredOpenTxns.length ≤ 1) s
      (s.initProducerIdWithOpts id enable2pc keepPrepared timeoutMs).2 := by
  obtain ⟨h₁, hlater⟩ := h.expireTimedOutTxns hexpiry
  revert h₁ hlater hclean
  unfold State.initProducerIdWithOpts
  generalize s.expireTimedOutTxns = s₁
  intro hclean h₁ hlater
  have howned : exact → ∀ pid txn, s₁.transactionalIds.lookup id = some pid →
      s₁.openTxns.lookup pid = some txn →
      (∀ prep, s₁.preparedTxns.lookup id = some prep → keepPrepared = false) →
      s₁.CleanHull txn := by
    intro hex pid txn hpid htxn hkeep
    refine hclean hex txn ?_
    unfold fencedTxns
    cases hprep : s₁.preparedTxns.lookup id with
    | none => simp [hpid, htxn]
    | some prep => simp [hkeep prep hprep, hpid, htxn]
  simp only
  split_ifs with htimeout hempty hkeep
  · exact ⟨h₁, hlater⟩
  · exact (h₁.persistProducerState _ _ _ _).after hlater
  · split
    next prep hprep =>
      refine (h₁.fenceProducer _ _ prep.producerId prep.producerEpoch ?_).after hlater
      exact fun hex txn htxn => hclean hex txn (by simp [fencedTxns, hprep, hkeep, htxn])
    next hnone =>
      refine (h₁.fenceOrAllocate id enable2pc timeoutMs.toNat ?_).after hlater
      intro hex pid txn hpid htxn
      refine howned hex pid txn hpid htxn fun prep hprep => ?_
      rw [hnone] at hprep
      cases hprep
  · have hkeep' : keepPrepared = false := by simpa using hkeep
    obtain ⟨h₂, hlater₂⟩ := h₁.dropPreparedTxn id fun hex prep hprep =>
      hclean hex prep.body (by simp [fencedTxns, hprep, hkeep'])
    have htables : (s₁.dropPreparedTxn id).transactionalIds = s₁.transactionalIds ∧
        (s₁.dropPreparedTxn id).openTxns = s₁.openTxns := by
      unfold State.dropPreparedTxn
      split
      · exact ⟨rfl, rfl⟩
      · exact ⟨(frame_sameTables.abort _ _ _ _).transactionalIds, (frame_sameTables.abort _ _ _ _).openTxns⟩
    refine (h₂.fenceOrAllocate id enable2pc timeoutMs.toNat ?_).after (hlater.trans hlater₂)
    intro hex pid txn hpid htxn
    exact (howned hex pid txn (htables.1 ▸ hpid) (htables.2 ▸ htxn) fun _ _ => hkeep').grow hlater₂

end

/-! ## Opening a transaction -/

/-- A new open transaction that has written nothing. -/
theorem Inv.openTxn (h : Inv exact s) (hnone : s.openTxns.lookup pid = none)
    (hserial : txn.serial = s.nextSerial) (hwritten : txn.written = []) : Inv exact { s with
      openTxns := s.openTxns.insert pid txn, nextSerial := s.nextSerial + 1 } := by
  have hvalues : Assoc.values (s.openTxns.insert pid txn) = txn :: Assoc.values s.openTxns :=
    Assoc.values_insert_of_none hnone
  refine ⟨⟨h.mem.logs, h.mem.settled, ?_, h.mem.keys⟩, fun tp o => ?_, h.prepared⟩
  · have hledger := h.mem.ledger.begin_ hserial hwritten
    simp only [live, hvalues]
    exact hledger
  · refine (h.fresh tp o).trans (or_congr_right ?_)
    rw [hvalues]
    simp [hwritten, Covered]

theorem Settled.beginTxn (h : Settled exact steps s) (hexpiry : exact → s.CleanExpiry)
    (pid epoch : Nat) :
    Ends exact (steps ∧ s.expiredOpenTxns.length ≤ 1) s (s.beginTxn pid epoch).2 := by
  obtain ⟨h₁, hlater⟩ := h.expireTimedOutTxns hexpiry
  rcases beginTxn_cases s pid epoch with ⟨code, -, heq⟩ | ⟨prod, -, -, -, hnone, heq⟩
  · rw [heq]
    exact h₁.ends hlater
  · rw [heq]
    exact ⟨h₁.toInv.openTxn hnone rfl rfl, (h₁.ends hlater).trace⟩

theorem Settled.ensureTxnOpen (h : Settled exact steps s) (hexpiry : exact → s.CleanExpiry)
    (pid epoch : Nat) :
    Ends exact (steps ∧ s.expiredOpenTxns.length ≤ 1) s (s.ensureTxnOpen pid epoch).2 := by
  obtain ⟨h₁, hlater⟩ := h.expireTimedOutTxns hexpiry
  have hsame := h₁.ends hlater
  -- the second expiry finds nothing
  have hopen := expiredOpenTxns_expireTimedOutTxns s
  have hprep := expiredPreparedTxns_expireTimedOutTxns h.mem.keys
  have hexpiry' : exact → s.expireTimedOutTxns.CleanExpiry := fun _ => by
    simp [CleanExpiry, hopen, hprep]
  unfold State.ensureTxnOpen
  simp only
  split
  · exact hsame
  · split_ifs
    · exact hsame
    · exact hsame
    · exact hsame
    · have hends := (h₁.beginTxn hexpiry' pid epoch).after hlater
      exact ⟨hends.inv, fun hsteps => hends.trace ⟨hsteps, by simp [hopen]⟩⟩

/-- A change to an open transaction that is neither its number nor its ranges. -/
theorem Inv.updateOpen (h : Inv exact s) (hlookup : s.openTxns.lookup pid = some txn)
    (txn' : OpenTxn) (hserial : txn'.serial = txn.serial) (hwritten : txn'.written = txn.written) :
    Inv exact { s with openTxns := s.openTxns.insert pid txn' } := by
  have hvalues := Assoc.values_perm_of_lookup hlookup
  refine ⟨⟨h.mem.logs, h.mem.settled, h.mem.ledger.congr ?_, h.mem.keys⟩, fun tp o => ?_, h.prepared⟩
  · simp only [live, nil_append, map_append]
    refine List.Perm.append_right _ ?_
    rw [Assoc.values_insert, map_cons, hserial, hwritten]
    exact (hvalues.map fun t => (t.serial, t.written)).symm
  · refine (h.fresh tp o).trans (or_congr_right ?_)
    simp [hvalues.mem_iff, Assoc.values_insert, hwritten]

theorem Settled.recordTxnAddedPartitions (h : Settled exact steps s) (pid : Nat)
    (partitions : List TopicPartition) :
    Ends exact steps s (s.recordTxnAddedPartitions pid partitions).2 := by
  unfold State.recordTxnAddedPartitions
  split
  · exact h.ends (.refl s)
  · split
    · exact h.ends (.refl s)
    next txn hlookup =>
      have hinv := h.toInv.updateOpen hlookup { txn with
        added := addPartitions txn.added partitions } rfl rfl
      obtain ⟨hinv', htrace⟩ := Inv.persistTxnMarkers hinv.mem hinv.prepared h.trace .markers
      exact Settled.ends ⟨hinv', htrace⟩
        ⟨rfl, rfl, rfl, rfl, fun _ => prefix_rfl, fun _ _ ha => ha⟩

theorem Settled.bufferTxnOffsets (h : Settled exact steps s) (hexpiry : exact → s.CleanExpiry)
    (pid epoch : Nat) (offsets : List DeferredOffset) :
    Ends exact (steps ∧ s.expiredOpenTxns.length ≤ 1) s
      (s.bufferTxnOffsets pid epoch offsets).2 := by
  obtain ⟨h₁, hlater⟩ := h.expireTimedOutTxns hexpiry
  have hsame := h₁.ends hlater
  unfold State.bufferTxnOffsets
  simp only
  split
  · exact hsame
  · split_ifs
    · exact hsame
    · split
      · exact hsame
      next txn hlookup => exact ⟨h₁.toInv.updateOpen hlookup _ rfl rfl, hsame.trace⟩

/-! ## Producing -/

/-- The batch's count fits 32 bits and its offsets fit 64. -/
def BatchFits (s : State) (tp : TopicPartition) (messages : List Message) : Prop :=
  messages.length < 2 ^ 32 ∧ ∀ p, s.partitions tp = some p → p.leo + messages.length ≤ u64Max

theorem head?_stamp {nowMs : Int64} {offset : Nat} {ms : List Message} (hms : ms ≠ []) :
    ((Partition.stamp nowMs offset ms).head?.map (·.offset)).getD 0 = offset := by
  cases ms with
  | nil => exact absurd rfl hms
  | cons m ms => rfl

/-- The transaction with one more range. -/
def wrote (txn : OpenTxn) (tp : TopicPartition) (base : Nat) (baseSequence : Int) (count : Nat) :
    OpenTxn :=
  { txn with
    written := txn.written ++
      [{ tp, firstOffset := base, endOffset := base + count, baseSequence, count }]
    pending := txn.pending.insert tp { baseSequence, count, baseOffset := base } }

/-- The records are on the log and their range is in memory, but not on file. -/
def appendedTxn (s : State) (pid : Nat) (txn : OpenTxn) (tp : TopicPartition) (p : Partition)
    (baseSequence : Int) (messages : List Message) : State :=
  { (s.appended tp p messages (.txn txn.serial)).durable .txnAppend with
    openTxns := s.openTxns.insert pid (wrote txn tp p.leo baseSequence messages.length) }

theorem writeThrough_some {tp : TopicPartition} {p : Partition}
    (hlookup : s.openTxns.lookup pid = some txn) (hp : s.partitions tp = some p)
    (hms : messages ≠ []) (hfits : s.BatchFits tp messages) (baseSequence : Int) :
    (s.writeThrough pid txn tp baseSequence messages).2 =
      (s.appendedTxn pid txn tp p baseSequence messages).persistTxnMarkers .markers := by
  have hcount : messageCount messages = messages.length := Nat.mod_eq_of_lt hfits.1
  have hend : saturatingAdd p.leo messages.length = p.leo + messages.length :=
    min_eq_left (hfits.2 p hp)
  have hopen : ((s.appended tp p messages (.txn txn.serial)).durable .txnAppend).openTxns.lookup
      pid = some txn := hlookup
  unfold writeThrough
  rw [produce_some hp hms]
  simp only [head?_stamp hms, hcount, hend, hopen]
  rfl

theorem MemoryOk.appendedTxn (h : MemoryOk exact [] s) (hlookup : s.openTxns.lookup pid = some txn)
    {tp : TopicPartition} {p : Partition} (hp : s.partitions tp = some p) (baseSequence : Int)
    (hmarked : exact → ∀ m ∈ messages, isTxnControl m.headers = false) :
    MemoryOk exact [] (s.appendedTxn pid txn tp p baseSequence messages) := by
  have hlen : (s.origins tp).length = p.leo := by
    rw [h.logs.length tp, disk_logs_of_some hp]
    exact (h.settled tp p hp).1.leo.symm
  refine ⟨appended_logsOk h.logs hp (h.settled tp p hp).1 fun m hm hex => hmarked hex m hm,
    appended_settled (g := .txn txn.serial) h.settled hp, ?_, h.keys⟩
  have hperm := (Assoc.values_perm_of_lookup hlookup).symm.append_right
    ((Assoc.values s.preparedTxns).map (·.body))
  exact (h.ledger.perm hperm).write rfl rfl ⟨rfl, hlen.symm, by rw [hlen]⟩

/-- Between the append and the marker file the disk does not know whose the records are. -/
theorem Settled.writeThrough (h : Settled exact steps s)
    (hlookup : s.openTxns.lookup pid = some txn) (tp : TopicPartition) (baseSequence : Int)
    (hms : messages ≠ []) (hfits : s.BatchFits tp messages)
    (hmarked : exact → ∀ m ∈ messages, isTxnControl m.headers = false) :
    Ends exact steps s (s.writeThrough pid txn tp baseSequence messages).2 := by
  cases hp : s.partitions tp with
  | none =>
    simp only [State.writeThrough, produce, hp]
    exact h.ends (.refl s)
  | some p =>
    rw [writeThrough_some hlookup hp hms hfits]
    have hmem := h.mem.appendedTxn hlookup hp baseSequence hmarked
    have htrace (hsteps : steps) : TraceOk exact (s.appendedTxn pid txn tp p baseSequence messages) :=
      (h.trace hsteps).snoc rfl rfl rfl (absurd rfl)
    obtain ⟨hinv, htrace'⟩ := Inv.persistTxnMarkers hmem h.prepared htrace .markers
    refine Settled.ends ⟨hinv, htrace'⟩ ?_
    exact ⟨rfl, rfl, rfl, rfl, (appended_keeps (p := p) .txnAppend).origins, fun _ _ ha => ha⟩

theorem Settled.bufferTxnProduce (h : Settled exact steps s) (hexpiry : exact → s.CleanExpiry)
    (pid epoch : Nat) (tp : TopicPartition) (baseSequence : Int)
    (hfits : s.expireTimedOutTxns.BatchFits tp messages)
    (hmarked : exact → ∀ m ∈ messages, isTxnControl m.headers = false) :
    Ends exact (steps ∧ s.expiredOpenTxns.length ≤ 1) s
      (s.bufferTxnProduce pid epoch tp baseSequence messages).2 := by
  obtain ⟨h₁, hlater⟩ := h.expireTimedOutTxns hexpiry
  rcases bufferTxnProduce_cases s pid epoch tp baseSequence messages with
    ⟨heq, -⟩ | ⟨prod, txn, hcount, -, -, hlookup, -, heq⟩
  · rw [heq]
    exact h₁.ends hlater
  · have hms : messages ≠ [] := by
      rintro rfl
      exact hcount rfl
    rw [heq]
    exact (h₁.writeThrough hlookup tp baseSequence hms hfits hmarked).after hlater

/-! ## Fetching -/

theorem Settled.fetchUpTo (h : Settled exact steps s) (tp : TopicPartition) (start maxMessages : Nat)
    (isolation : FetchIsolation) (hexpiry : exact → isolation ≠ .readUncommitted → s.CleanExpiry) :
    Goes exact (steps ∧ s.expiredOpenTxns.length ≤ 1) s
      (s.fetchUpTo tp start maxMessages isolation).2 := by
  have hsame : Goes exact (steps ∧ s.expiredOpenTxns.length ≤ 1) s s :=
    ⟨⟨h.toInv, fun hsteps => h.trace hsteps.1⟩, .refl s⟩
  unfold State.fetchUpTo
  split
  · exact hsame
  · cases isolation with
    | readUncommitted => exact hsame
    | readCommitted =>
      obtain ⟨h₁, hlater⟩ := h.expireTimedOutTxns fun hex => hexpiry hex (by simp)
      exact ⟨h₁, hlater⟩
    | committedOnly =>
      obtain ⟨h₁, hlater⟩ := h.expireTimedOutTxns fun hex => hexpiry hex (by simp)
      split_ifs
      · exact hsame
      · exact ⟨h₁, hlater⟩

end Volant.Broker.State
