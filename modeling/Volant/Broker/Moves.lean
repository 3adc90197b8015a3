-- SUMMARY: The broker's operations as sequences of small moves on logs, transactions and aborted ranges.
import Volant.Broker.KeepsIds

/-!
# Moves

Every operation between two restarts is a sequence of a few kinds of moves: a
record is appended, a transaction begins, writes, leaves the tables, is listed
as prepared, or its hull is marked aborted. A transaction that an operation
has taken out of the tables is in the `lost` list until the operation is done
with it. What every move preserves holds along every run without a restart.
Unless a move may name producers, the identities of producers stay.
-/

namespace Volant.Broker.State

open List

/-- The logs, the transactions and the aborted ranges are the same. -/
structure SameBooks (s s' : State) : Prop where
  partitions : s'.partitions = s.partitions
  origins : s'.origins = s.origins
  openTxns : s'.openTxns = s.openTxns
  preparedTxns : s'.preparedTxns = s.preparedTxns
  abortedTxns : s'.abortedTxns = s.abortedTxns
  nextSerial : s'.nextSerial = s.nextSerial

variable {offsets : OffsetKey → Option CommittedOffset} {trace : List (DurableStep × Disk)}
  {markersFile : Option MarkersFile} {abortableProducers : List Nat} {committed : List Nat}

/-- Everything that no book mentions may change. -/
theorem SameBooks.others (s : State) {config : Config} {nowMs : Int} {nextProducerId : Nat}
    {producers : AList fun _ : Nat => Producer} {transactionalIds : AList fun _ : String => Nat}
    {preparedFile : Option (List PreparedTxn)} {producersFile : Option ProducerFile} :
    SameBooks s { s with
      config, nowMs, nextProducerId, producers, transactionalIds, abortableProducers, markersFile
      preparedFile, producersFile, offsets, trace, committed } :=
  ⟨rfl, rfl, rfl, rfl, rfl, rfl⟩

theorem SameBooks.live {s s' : State} (h : SameBooks s s') : s'.live = s.live := by
  unfold State.live
  rw [h.openTxns, h.preparedTxns]

inductive Move (named : Prop) : List OpenTxn × State → List OpenTxn × State → Prop
  | keep {lost : List OpenTxn} {s s' : State} (h : SameBooks s s') (hids : named ∨ KeepsIds s s') :
      Move named (lost, s) (lost, s')
  | create {lost : List OpenTxn} {s : State} {tp : TopicPartition} (h : s.partitions tp = none) :
      Move named (lost, s) (lost, s.createPartition tp)
  /-- Records that belong to no transaction. -/
  | append {lost : List OpenTxn} {s : State} {tp : TopicPartition} {p : Partition} {g : Origin}
      (ms : List Message) (hp : s.partitions tp = some p) (hg : ∀ n, g ≠ .txn n) :
      Move named (lost, s) (lost, s.appended tp p ms g)
  | begin_ {lost : List OpenTxn} {s : State} {pid : Nat} {t : OpenTxn}
      (hnone : s.openTxns.lookup pid = none) (hserial : t.serial = s.nextSerial)
      (hwritten : t.written = []) :
      Move named (lost, s) (lost, { s with
        openTxns := s.openTxns.insert pid t, nextSerial := s.nextSerial + 1 })
  /-- An open transaction changes in what is neither its number nor its ranges. -/
  | touch {lost : List OpenTxn} {s : State} {pid : Nat} {t t' : OpenTxn}
      (hlookup : s.openTxns.lookup pid = some t) (hserial : t'.serial = t.serial)
      (hwritten : t'.written = t.written) :
      Move named (lost, s) (lost, { s with openTxns := s.openTxns.insert pid t' })
  /-- An open transaction writes a batch and lists where it starts. -/
  | write {lost : List OpenTxn} {s : State} {pid : Nat} {t t' : OpenTxn} {tp : TopicPartition}
      {p : Partition} {r : WrittenRange} (ms : List Message)
      (hlookup : s.openTxns.lookup pid = some t) (hp : s.partitions tp = some p)
      (hserial : t'.serial = t.serial) (hwritten : t'.written = t.written ++ [r])
      (hr : r.tp = tp ∧ r.firstOffset = p.leo) :
      Move named (lost, s) (lost, { s.appended tp p ms (.txn t.serial) with
        openTxns := s.openTxns.insert pid t' })
  | takeOpen {lost : List OpenTxn} {s : State} (taken : List OpenTxn)
      {openTxns : AList fun _ : Nat => OpenTxn}
      (hperm : (Assoc.values s.openTxns).Perm (taken ++ Assoc.values openTxns)) :
      Move named (lost, s) (taken ++ lost, { s with openTxns })
  | takePrepared {lost : List OpenTxn} {s : State} (taken : List PreparedTxn)
      {preparedTxns : AList fun _ : String => PreparedTxn}
      (hperm : (Assoc.values s.preparedTxns).Perm (taken ++ Assoc.values preparedTxns))
      (hsub : ∀ e ∈ preparedTxns.entries, e ∈ s.preparedTxns.entries) :
      Move named (lost, s) (taken.map (·.body) ++ lost, { s with preparedTxns })
  | prepare {lost : List OpenTxn} {s : State} {id : String} {prep : PreparedTxn} (hnamed : named)
      (hnone : s.preparedTxns.lookup id = none) (hid : prep.transactionalId = id) :
      Move named (prep.body :: lost, s) (lost, { s with preparedTxns := s.preparedTxns.insert id prep })
  | mark {lost : List OpenTxn} {s : State} {t : OpenTxn} (pid : Nat) (ht : t ∈ lost) :
      Move named (lost, s) (lost, s.pushAbortedHulls pid t.written)
  /-- The operation is done with the transactions it took. -/
  | forget {lost kept : List OpenTxn} {s : State} (h : kept.Sublist lost) :
      Move named (lost, s) (kept, s)

abbrev Moves (named : Prop) : List OpenTxn × State → List OpenTxn × State → Prop :=
  Relation.ReflTransGen (Move named)

variable {named : Prop} {lost : List OpenTxn} {s s' : State} {a b : List OpenTxn × State}
  {t txn : OpenTxn} {id : String}

/-- The prepared transactions are listed under their ids. -/
def Keyed (s : State) : Prop := ∀ e ∈ s.preparedTxns.entries, e.2.transactionalId = e.1

theorem Move.keyed (h : Move named a b) (hkeys : a.2.Keyed) : b.2.Keyed := by
  cases h with
  | keep h _ =>
    unfold Keyed
    rw [h.preparedTxns]
    exact hkeys
  | create hnone =>
    unfold createPartition
    simp only [hnone]
    exact hkeys
  | append | begin_ | touch | write | takeOpen | forget => exact hkeys
  | takePrepared taken hperm hsub => exact fun e he => hkeys e (hsub e he)
  | prepare _ _ hid => exact Assoc.forall_mem_insert hid hkeys
  | @mark _ s t pid ht =>
    obtain ⟨_, heq, -⟩ := pushAbortedHulls_spec s pid t.written
    rw [heq]
    exact hkeys

theorem Moves.keyed (h : Moves named a b) (hkeys : a.2.Keyed) : b.2.Keyed := by
  induction h with
  | refl => exact hkeys
  | tail _ hmove ih => exact hmove.keyed ih

theorem Move.keepsIds (h : Move False a b) : KeepsIds a.2 b.2 := by
  cases h with
  | keep _ hids => exact hids.resolve_left id
  | create hnone =>
    unfold createPartition
    simp only [hnone]
    exact .others _
  | append | begin_ | touch | write | takeOpen => exact .others _
  | takePrepared taken hperm hsub => exact .takePrepared hsub
  | prepare hnamed hnone hid => exact hnamed.elim
  | @mark _ s t pid ht =>
    obtain ⟨_, heq, -⟩ := pushAbortedHulls_spec s pid t.written
    rw [heq]
    exact .others s
  | forget h => exact .refl _

theorem Moves.keepsIds (h : Moves False a b) : KeepsIds a.2 b.2 := by
  induction h with
  | refl => exact .refl _
  | tail _ hmove ih => exact ih.trans hmove.keepsIds

theorem Moves.keep (h : SameBooks s s') (hids : named ∨ KeepsIds s s') :
    Moves named (lost, s) (lost, s') := .single (.keep h hids)

/-- Everything that neither a book nor the name of a producer depends on may change. -/
theorem Moves.aside (s : State) {config : Config} {nowMs : Int} :
    Moves named (lost, s) (lost, { s with
      config, nowMs, abortableProducers, markersFile, offsets, trace, committed }) :=
  .keep (.others s) (.inr (.others s))

/-! ## Appends and files -/

theorem moves_produce (s : State) (tp : TopicPartition) (ms : List Message) {g : Origin}
    (hg : ∀ n, g ≠ .txn n) (step : DurableStep) :
    Moves named (lost, s) (lost, (s.produce tp ms g step).2) := by
  cases hp : s.partitions tp with
  | none =>
    simp only [produce, hp]
    exact .refl
  | some p =>
    rcases eq_or_ne ms [] with rfl | hms
    · rw [produce_nil hp]
      exact .aside s
    · rw [produce_some hp hms]
      have happend : Move named (lost, s) (lost, s.appended tp p ms g) := .append ms hp hg
      exact (Moves.aside (s.appended tp p ms g)).head happend

/-- A loop moves if each of its rounds does. -/
theorem moves_foldl {α : Type} {f : State → α → State} (l : List α)
    (hstep : ∀ s, ∀ x ∈ l, Moves named (lost, s) (lost, f s x)) (s : State) :
    Moves named (lost, s) (lost, l.foldl f s) := by
  induction l generalizing s with
  | nil => exact .refl
  | cons x l ih =>
    exact (hstep s x mem_cons_self).trans
      (ih (fun s y hy => hstep s y (mem_cons_of_mem x hy)) (f s x))

theorem moves_appendTxnControlMarkers (s : State) (pid epoch : Nat) (markerType : ControlMarkerType)
    (txn : OpenTxn) :
    Moves named (lost, s) (lost, s.appendTxnControlMarkers pid epoch markerType txn) :=
  moves_foldl _ (fun s tp _ => moves_produce s tp _ (fun n => by simp) _) s

theorem moves_recordAbortedFromTxn (s : State) (pid : Nat) (ht : t ∈ lost) :
    Moves named (lost, s) (lost, s.recordAbortedFromTxn pid t) := by
  have hmark : Move named (lost, s) (lost, s.pushAbortedHulls pid t.written) := .mark pid ht
  exact (Moves.aside (s.pushAbortedHulls pid t.written)).head hmark

/-- An abort of a transaction that was taken: its hull, then the control markers. -/
theorem moves_abort (s : State) (pid epoch : Nat) (ht : t ∈ lost) :
    Moves named (lost, s) (lost, (s.recordAbortedFromTxn pid t).appendTxnControlMarkers pid epoch .abort
      t) :=
  (moves_recordAbortedFromTxn s pid ht).trans (moves_appendTxnControlMarkers _ pid epoch .abort t)

theorem moves_persistPreparedTxns (s : State) :
    Moves named (lost, s) (lost, s.persistPreparedTxns) :=
  .keep (.others s) (.inr (keepsIds_persistPreparedTxns s))

theorem moves_persistProducerState (s : State) :
    Moves named (lost, s) (lost, s.persistProducerState) :=
  .keep (.others s) (.inr (keepsIds_persistProducerState s))

/-! ## Expiry -/

theorem moves_abortExpired (s : State) (pid epoch : Nat) (ht : t ∈ lost) :
    Moves named (lost, s) (lost, s.abortExpired pid epoch t) :=
  (moves_abort s pid epoch ht).trans (Moves.aside _)

/-- The timed-out transactions are taken, aborted one by one, and forgotten. -/
theorem moves_abortAll {α : Type} (body : α → OpenTxn) (pid epoch : α → Nat) (expired : List α)
    (s : State) : Moves named (expired.map body ++ lost, s)
      (lost, expired.foldl (fun s e => s.abortExpired (pid e) (epoch e) (body e)) s) := by
  refine (moves_foldl expired (fun s e he => ?_) s).tail (.forget (sublist_append_right _ _))
  exact moves_abortExpired s (pid e) (epoch e)
    (mem_append_left _ (mem_map_of_mem (f := body) he))

theorem moves_expireTimedOutOpenTxns (s : State) :
    Moves named (lost, s) (lost, s.expireTimedOutOpenTxns) := by
  unfold expireTimedOutOpenTxns
  simp only
  split
  · exact .refl
  · have htake : Move named (lost, s) (s.expiredOpenTxns.map (·.2.2) ++ lost,
        { s with openTxns := s.unexpiredOpenTxns }) :=
      .takeOpen _ (values_perm_expiredOpenTxns s)
    have habort := @moves_abortAll named lost _ (·.2.2) (·.1) (·.2.1) s.expiredOpenTxns
      { s with openTxns := s.unexpiredOpenTxns }
    exact (habort.head htake).trans (Moves.aside _)

theorem moves_expireTimedOutPreparedTxns (hkeys : s.Keyed) :
    Moves named (lost, s) (lost, s.expireTimedOutPreparedTxns) := by
  unfold expireTimedOutPreparedTxns
  simp only
  split
  · exact .refl
  · have htake : Move named (lost, s) (s.expiredPreparedTxns.map (·.body) ++ lost,
        { s with preparedTxns := s.unexpiredPreparedTxns }) :=
      .takePrepared _ (values_perm_expiredPreparedTxns hkeys)
        fun e he => Assoc.mem_of_mem_foldl_erase _ _ _ he
    have habort := @moves_abortAll named lost _ (·.body) (·.producerId) (·.producerEpoch)
      s.expiredPreparedTxns { s with preparedTxns := s.unexpiredPreparedTxns }
    exact (habort.head htake).trans (moves_persistPreparedTxns _)

theorem moves_expireTimedOutTxns (hkeys : s.Keyed) :
    Moves named (lost, s) (lost, s.expireTimedOutTxns) := by
  have hopen := @moves_expireTimedOutOpenTxns named lost s
  exact hopen.trans (moves_expireTimedOutPreparedTxns (hopen.keyed hkeys))

/-! ## InitProducerId -/

/-- Taking an open transaction out. -/
theorem Move.takeOne {pid : Nat} (h : s.openTxns.lookup pid = some txn) :
    Move named (lost, s) (txn :: lost, { s with openTxns := s.openTxns.erase pid }) :=
  .takeOpen [txn] (Assoc.values_perm_of_lookup h)

/-- Taking a prepared transaction out. -/
theorem Move.takeOnePrepared {prep : PreparedTxn} (h : s.preparedTxns.lookup id = some prep) :
    Move named (lost, s) (prep.body :: lost, { s with preparedTxns := s.preparedTxns.erase id }) :=
  .takePrepared [prep] (Assoc.values_perm_of_lookup h) fun _ he => Assoc.mem_of_mem_erase he

/-- Aborting a transaction that was just taken. -/
theorem Moves.abortTaken (h : Move named a (t :: lost, s)) (pid epoch : Nat) : Moves named a
      (lost, (s.recordAbortedFromTxn pid t).appendTxnControlMarkers pid epoch .abort t) :=
  ((moves_abort s pid epoch mem_cons_self).head h).tail
    (.forget (sublist_cons_self t lost))

theorem moves_fenceOpenTxn (s : State) (pid epoch : Nat) :
    Moves named (lost, s) (lost, s.fenceOpenTxn pid epoch) := by
  unfold fenceOpenTxn
  split
  · exact .refl
  next txn hlookup => exact .abortTaken (.takeOne hlookup) pid epoch

theorem moves_dropPreparedTxn (s : State) (id : String) :
    Moves named (lost, s) (lost, s.dropPreparedTxn id) := by
  unfold dropPreparedTxn
  split
  · exact .refl
  next prep hlookup =>
    have habort : Moves named (lost, s) _ :=
      .abortTaken (.takeOnePrepared hlookup) prep.producerId prep.producerEpoch
    exact (habort.trans (moves_persistPreparedTxns _)).trans (Moves.aside _)

/-- The end of an InitProducerId for a known id. -/
theorem moves_fence (s : State) (pid epoch : Nat) : Moves named (lost, s)
    (lost, ((s.fenceOpenTxn pid epoch).clearTxnAbortable pid).persistProducerState) :=
  ((moves_fenceOpenTxn s pid epoch).trans (Moves.aside _)).trans (moves_persistProducerState _)

theorem moves_fenceOrAllocate (hnamed : named) (s : State) (id : String) (enable2pc : Bool)
    (clientTimeout : Nat) :
    Moves named (lost, s) (lost, (s.fenceOrAllocate id enable2pc clientTimeout).2) := by
  unfold fenceOrAllocate
  simp only
  split
  · exact (moves_fence _ _ _).head (.keep (.others s) (.inl hnamed))
  · exact .keep (.others s) (.inl hnamed)

theorem moves_initProducerIdWithOpts (hnamed : named) (hkeys : s.Keyed) (id : String)
    (enable2pc keepPrepared : Bool) (timeoutMs : Int) : Moves named (lost, s)
      (lost, (s.initProducerIdWithOpts id enable2pc keepPrepared timeoutMs).2) := by
  refine (moves_expireTimedOutTxns hkeys).trans ?_
  unfold initProducerIdWithOpts
  generalize s.expireTimedOutTxns = s₁
  simp only
  split_ifs
  · exact .refl
  · exact Moves.keep (.others s₁) (.inl hnamed)
  · split
    · exact (moves_fence _ _ _).head (.keep (.others s₁) (.inl hnamed))
    · exact moves_fenceOrAllocate hnamed s₁ id enable2pc _
  · exact (moves_dropPreparedTxn s₁ id).trans (moves_fenceOrAllocate hnamed _ id enable2pc _)

/-! ## Opening and writing -/

theorem moves_beginTxn (hkeys : s.Keyed) (pid epoch : Nat) :
    Moves named (lost, s) (lost, (s.beginTxn pid epoch).2) := by
  have hexpire := @moves_expireTimedOutTxns named lost s hkeys
  rcases beginTxn_cases s pid epoch with ⟨code, -, heq⟩ | ⟨prod, -, -, -, hnone, heq⟩
  · rw [heq]
    exact hexpire
  · rw [heq]
    exact hexpire.tail (.begin_ hnone rfl rfl)

theorem moves_ensureTxnOpen (hkeys : s.Keyed) (pid epoch : Nat) :
    Moves named (lost, s) (lost, (s.ensureTxnOpen pid epoch).2) := by
  have hexpire := @moves_expireTimedOutTxns named lost s hkeys
  unfold ensureTxnOpen
  simp only
  split
  · exact hexpire
  · split_ifs
    · exact hexpire
    · exact hexpire
    · exact hexpire
    · exact hexpire.trans (moves_beginTxn (hexpire.keyed hkeys) pid epoch)

theorem moves_recordTxnAddedPartitions (s : State) (pid : Nat) (partitions : List TopicPartition) :
    Moves named (lost, s) (lost, (s.recordTxnAddedPartitions pid partitions).2) := by
  unfold recordTxnAddedPartitions
  split
  · exact .refl
  · split
    · exact .refl
    next txn hlookup =>
      have htouch : Move named (lost, s) (lost, { s with openTxns := s.openTxns.insert pid { txn with
          added := addPartitions txn.added partitions } }) := .touch hlookup rfl rfl
      exact (Moves.aside _).head htouch

theorem moves_bufferTxnOffsets (hkeys : s.Keyed) (pid epoch : Nat) (offsets : List DeferredOffset) :
    Moves named (lost, s) (lost, (s.bufferTxnOffsets pid epoch offsets).2) := by
  have hexpire := @moves_expireTimedOutTxns named lost s hkeys
  unfold bufferTxnOffsets
  simp only
  split
  · exact hexpire
  · split_ifs
    · exact hexpire
    · split
      · exact hexpire
      next txn hlookup => exact hexpire.tail (.touch hlookup rfl rfl)

/-- Nobody else runs, so the transaction is still open after the append. -/
theorem moves_writeThrough {pid : Nat} (hlookup : s.openTxns.lookup pid = some txn)
    (tp : TopicPartition) (baseSequence : Int) {messages : List Message} (hms : messages ≠ []) :
    Moves named (lost, s) (lost, (s.writeThrough pid txn tp baseSequence messages).2) := by
  cases hp : s.partitions tp with
  | none =>
    simp only [writeThrough, produce, hp]
    exact .refl
  | some p =>
    have hopen : ((s.appended tp p messages (.txn txn.serial)).durable .txnAppend).openTxns.lookup
        pid = some txn := hlookup
    unfold writeThrough
    rw [produce_some hp hms]
    simp only [head?_stamp hms, hopen]
    let txn' : OpenTxn := { txn with
      written := txn.written ++ [{ tp, firstOffset := p.leo, baseSequence
                                   endOffset := saturatingAdd p.leo (messageCount messages)
                                   count := messageCount messages }]
      pending := txn.pending.insert tp
        { baseSequence, count := messageCount messages, baseOffset := p.leo } }
    have hwrite : Move named (lost, s) (lost, { s.appended tp p messages (.txn txn.serial) with
        openTxns := s.openTxns.insert pid txn' }) :=
      .write messages hlookup hp rfl rfl ⟨rfl, rfl⟩
    exact (Moves.aside _).head hwrite

theorem moves_bufferTxnProduce (hkeys : s.Keyed) (pid epoch : Nat) (tp : TopicPartition)
    (baseSequence : Int) (messages : List Message) : Moves named (lost, s)
      (lost, (s.bufferTxnProduce pid epoch tp baseSequence messages).2) := by
  have hexpire := @moves_expireTimedOutTxns named lost s hkeys
  rcases bufferTxnProduce_cases s pid epoch tp baseSequence messages with
    ⟨heq, -⟩ | ⟨prod, txn, hcount, -, -, hlookup, -, heq⟩
  · rw [heq]
    exact hexpire
  · have hms : messages ≠ [] := by
      rintro rfl
      exact hcount rfl
    rw [heq]
    exact hexpire.trans (moves_writeThrough hlookup tp baseSequence hms)

/-! ## Ending -/

theorem sameBooks_recordIdempotentProduce (s : State) (pid epoch : Nat) (tp : TopicPartition)
    (baseSequence : Int) (count baseOffset : Nat) :
    SameBooks s (s.recordIdempotentProduce pid epoch tp baseSequence count baseOffset) := by
  unfold recordIdempotentProduce
  split
  · exact .others s
  · split
    · exact .others s
    · split
      · exact .others s
      · exact .others s

theorem moves_commitOffset (s : State) (o : DeferredOffset) :
    Moves named (lost, s) (lost, s.commitOffset o) := by
  unfold commitOffset
  split
  · exact .aside s
  · exact .refl

theorem moves_finalizeTxn (h : Move named a (txn :: lost, s)) (pid epoch : Nat) (committed : Bool)
    (offsets : List DeferredOffset) :
    Moves named a (lost, (s.finalizeTxn pid epoch committed txn offsets).2) := by
  cases committed with
  | false => exact .abortTaken h pid epoch
  | true =>
    have hrecord := @moves_foldl named lost _ _ txn.written (fun s batch _ =>
      .keep (sameBooks_recordIdempotentProduce s pid epoch batch.tp batch.baseSequence batch.count
        batch.firstOffset) (.inr (keepsIds_recordIdempotentProduce s pid epoch _ _ _ _))) s
    have hmarkers := hrecord.trans (moves_appendTxnControlMarkers _ pid epoch .commit txn)
    have hoffsets := hmarkers.trans (moves_foldl (txn.deferredOffsets ++ offsets)
      (fun s o _ => moves_commitOffset s o) _)
    have hforget : Moves named a (lost, s) :=
      (Relation.ReflTransGen.single h).tail (.forget (sublist_cons_self txn lost))
    exact (hforget.trans hoffsets).trans (Moves.aside _)

theorem moves_markCommitted (s : State) (committed : Bool) (serial : Nat) :
    Moves named (lost, s) (lost, s.markCommitted committed serial) := by
  unfold markCommitted
  split
  · exact .aside s
  · exact .refl

theorem moves_prepareTxn (hnamed : named) (s : State) (pid epoch : Nat) (committed : Bool)
    (hnone : s.preparedTxns.lookup id = none) :
    Moves named (txn :: lost, s) (lost, s.prepareTxn pid epoch committed id txn) := by
  let prep : PreparedTxn := ⟨id, pid, epoch, committed, s.nowMs, txn⟩
  have hprepare : Move named (txn :: lost, s)
      (lost, { s with preparedTxns := s.preparedTxns.insert id prep }) :=
    @Move.prepare named lost s id prep hnamed hnone rfl
  exact ((Moves.aside _).trans (moves_persistPreparedTxns _)).head hprepare

/-- EndTxn is a sequence of moves, and perhaps the open transaction is prepared at the end. -/
theorem moves_endTxn (hkeys : s.Keyed) (pid epoch : Nat) (committed : Bool)
    (offsets : List DeferredOffset) :
    let r := (s.endTxn pid epoch committed offsets).2.2
    Moves named (lost, s) (lost, r) ∨ ∃ s₁ prod txn, Moves named (lost, s) (txn :: lost, s₁) ∧
      s₁.producers.lookup pid = some prod ∧ prod.transactionalId ≠ "" ∧
      s₁.preparedTxns.lookup prod.transactionalId = none ∧
      r = s₁.prepareTxn pid epoch committed prod.transactionalId txn := by
  intro r
  have hexpire := @moves_expireTimedOutTxns named lost s hkeys
  have hclear : Moves named (lost, s) (lost, s.expireTimedOutTxns.clearTxnAbortable pid) :=
    hexpire.trans (Moves.aside _)
  have hexits := endTxn_exits s pid epoch committed offsets
  generalize s.expireTimedOutTxns = s₁ at hexpire hclear hexits
  rcases hexits with ⟨-, heq | heq⟩ |
    ⟨prod, hprod, -, ⟨prep, -, hprep, hends⟩ | ⟨hnone, txn, hopen, hends⟩⟩
  · exact .inl ((show r = s₁ from heq) ▸ hexpire)
  · exact .inl ((show r = _ from heq) ▸ hclear)
  · have hr : r = _ := congrArg (·.2.2) hends.result
    have htake : Move named (lost, s₁.clearTxnAbortable pid) (prep.body :: lost, { s₁ with
        preparedTxns := s₁.preparedTxns.erase prod.transactionalId }.clearTxnAbortable pid) :=
      .takeOnePrepared hprep
    have hfinal := hclear.trans (moves_finalizeTxn htake pid epoch committed offsets)
    refine .inl (hr.symm ▸ ?_)
    exact (hfinal.trans (moves_persistPreparedTxns _)).trans (moves_markCommitted _ committed _)
  · have htake : Move named (lost, s₁.clearTxnAbortable pid) (txn :: lost,
        { s₁ with openTxns := s₁.openTxns.erase pid }.clearTxnAbortable pid) := .takeOne hopen
    unfold EndsOpen at hends
    split_ifs at hends with h2pc
    · exact .inr ⟨_, prod, txn, hclear.tail htake, hprod, h2pc.2, hnone h2pc.2,
        congrArg (·.2.2) hends⟩
    · have hr : r = _ := congrArg (·.2.2) hends
      refine .inl (hr.symm ▸ ?_)
      exact (hclear.trans (moves_finalizeTxn htake pid epoch committed offsets)).trans
        (moves_markCommitted _ committed txn.serial)

/-- EndTxn leaves the identities alone, unless it prepares the transaction of a producer. -/
theorem endTxn_cases (hkeys : s.Keyed) (pid epoch : Nat) (committed : Bool)
    (offsets : List DeferredOffset) :
    let r := (s.endTxn pid epoch committed offsets).2.2
    KeepsIds s r ∨ ∃ s₁ prod txn, KeepsIds s s₁ ∧ s₁.producers.lookup pid = some prod ∧
      prod.transactionalId ≠ "" ∧
      r = s₁.prepareTxn pid epoch committed prod.transactionalId txn := by
  rcases @moves_endTxn False [] s hkeys pid epoch committed offsets with
    hmoves | ⟨s₁, prod, txn, hmoves, hprod, hne, -, heq⟩
  · exact .inl hmoves.keepsIds
  · exact .inr ⟨s₁, prod, txn, hmoves.keepsIds, hprod, hne, heq⟩

/-! ## Operations -/

theorem moves_fetchUpTo (hkeys : s.Keyed) (tp : TopicPartition) (start maxMessages : Nat)
    (isolation : FetchIsolation) :
    Moves named (lost, s) (lost, (s.fetchUpTo tp start maxMessages isolation).2) := by
  have hexpire := @moves_expireTimedOutTxns named lost s hkeys
  unfold fetchUpTo
  split
  · exact .refl
  · cases isolation with
    | readUncommitted => exact .refl
    | readCommitted => exact hexpire
    | committedOnly =>
      split_ifs
      · exact .refl
      · exact hexpire

/-- Every operation but a restart is a sequence of moves. -/
theorem moves_exec (hkeys : s.Keyed) {op : Op} (hop : ∀ nowMs, op ≠ .restart nowMs)
    (hnamed : op.names = true → named) : Moves named ([], s) ([], s.exec op) := by
  have hidle : Moves named ([], s) ([], s.idle) := .aside s
  have hkeys' : s.idle.Keyed := hkeys
  cases op with
  | clock nowMs => exact .aside s
  | createPartition tp =>
    refine hidle.trans ?_
    cases hp : s.idle.partitions tp with
    | none => exact .single (.create hp)
    | some p =>
      simp only [exec, createPartition, hp]
      exact .refl
  | produce tp messages => exact hidle.trans (moves_produce _ tp messages (fun n => by simp) _)
  | initProducerId id enable2pc keepPrepared timeoutMs =>
    exact hidle.trans (moves_initProducerIdWithOpts (hnamed rfl) hkeys' id enable2pc keepPrepared
      timeoutMs)
  | beginTxn pid epoch => exact hidle.trans (moves_beginTxn hkeys' pid epoch)
  | ensureTxnOpen pid epoch => exact hidle.trans (moves_ensureTxnOpen hkeys' pid epoch)
  | recordTxnAddedPartitions pid partitions =>
    exact hidle.trans (moves_recordTxnAddedPartitions _ pid partitions)
  | bufferTxnProduce pid epoch tp baseSequence messages =>
    exact hidle.trans (moves_bufferTxnProduce hkeys' pid epoch tp baseSequence messages)
  | bufferTxnOffsets pid epoch offsets =>
    exact hidle.trans (moves_bufferTxnOffsets hkeys' pid epoch offsets)
  | endTxn pid epoch committed offsets =>
    refine hidle.trans ?_
    rcases moves_endTxn hkeys' pid epoch committed offsets with
      hmoves | ⟨s₁, prod, txn, hmoves, -, -, hnone, heq⟩
    · exact hmoves
    · change Moves named _ ([], (s.idle.endTxn pid epoch committed offsets).2.2)
      rw [heq]
      exact hmoves.trans (moves_prepareTxn (hnamed rfl) s₁ pid epoch committed hnone)
  | sweepTimedOutTxns => exact hidle.trans (moves_expireTimedOutTxns hkeys')
  | fetch tp start maxMessages isolation =>
    exact hidle.trans (moves_fetchUpTo hkeys' tp start maxMessages isolation)
  | restart nowMs => exact absurd rfl (hop nowMs)

/-- What an operation is to the identities: one that leaves them alone, or one of three others. -/
theorem exec_cases (hkeys : s.Keyed) (op : Op) : (op.initialised = none ∧ KeepsIds s (s.exec op)) ∨
      (∃ id enable2pc keepPrepared timeoutMs,
        op = .initProducerId id enable2pc keepPrepared timeoutMs) ∨
      (∃ pid epoch committed offsets, op = .endTxn pid epoch committed offsets) ∨
      ∃ nowMs, op = .restart nowMs := by
  have hkeep (hop : ∀ nowMs, op ≠ .restart nowMs) (hnames : op.names = false) :
      KeepsIds s (s.exec op) :=
    (@moves_exec False s hkeys op hop fun h => by simp [hnames] at h).keepsIds
  cases op with
  | initProducerId id enable2pc keepPrepared timeoutMs => exact .inr (.inl ⟨_, _, _, _, rfl⟩)
  | endTxn pid epoch committed offsets => exact .inr (.inr (.inl ⟨_, _, _, _, rfl⟩))
  | restart nowMs => exact .inr (.inr (.inr ⟨_, rfl⟩))
  | _ => exact .inl ⟨rfl, hkeep nofun rfl⟩

end Volant.Broker.State
