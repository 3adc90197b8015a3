-- SUMMARY: What every transactional operation does to the tables of open, prepared and committed transactions.
import Volant.Broker.Participant
import Volant.Broker.TxnOps

/-!
# Transaction tables

Appends, markers and files do not touch the tables of transactions, so an
operation's effect on them is one of a few: a transaction begins, changes in
place, is prepared, goes back to open, or is over.
-/

namespace Volant.Broker

structure TxnTables where
  openTxns : AList fun _ : Nat => OpenTxn
  preparedTxns : AList fun _ : String => PreparedTxn
  committed : List Nat
  nextSerial : Nat

namespace State

def txnTables (s : State) : TxnTables := ⟨s.openTxns, s.preparedTxns, s.committed, s.nextSerial⟩

variable {s : State}

/-! ## Steps that touch no table -/

theorem frame_txnTables : Frame fun s s' => s'.txnTables = s.txnTables :=
  ⟨fun _ => rfl, fun h h' => h'.trans h, fun _ _ _ _ _ _ _ => rfl, fun _ _ _ => rfl, fun _ => rfl⟩

section

variable (s : State)

@[simp] theorem txnTables_appendTxnControlMarkers (pid epoch : Nat)
    (markerType : ControlMarkerType) (txn : OpenTxn) :
    (s.appendTxnControlMarkers pid epoch markerType txn).txnTables = s.txnTables :=
  frame_txnTables.appendTxnControlMarkers s pid epoch markerType txn

@[simp] theorem txnTables_recordAbortedFromTxn (pid : Nat) (txn : OpenTxn) :
    (s.recordAbortedFromTxn pid txn).txnTables = s.txnTables :=
  frame_txnTables.recordAbortedFromTxn s pid txn

@[simp] theorem txnTables_persistTxnMarkers (step : DurableStep) :
    (s.persistTxnMarkers step).txnTables = s.txnTables := rfl

@[simp] theorem txnTables_persistPreparedTxns : s.persistPreparedTxns.txnTables = s.txnTables := rfl

@[simp] theorem txnTables_forceAbortPrepared (prep : PreparedTxn) :
    (s.forceAbortPrepared prep).txnTables = s.txnTables := by
  simp [forceAbortPrepared]

theorem txnTables_recordIdempotentProduce (pid epoch : Nat) (tp : TopicPartition)
    (baseSequence : Int) (count baseOffset : Nat) :
    (s.recordIdempotentProduce pid epoch tp baseSequence count baseOffset).txnTables =
      s.txnTables := by
  unfold recordIdempotentProduce
  split_ifs
  · rfl
  · split
    · rfl
    · split_ifs <;> rfl

theorem txnTables_commitOffset (o : DeferredOffset) :
    (s.commitOffset o).txnTables = s.txnTables := by
  unfold commitOffset
  split_ifs <;> rfl

@[simp] theorem txnTables_finalizeTxn (pid epoch : Nat) (committed : Bool)
    (txn : OpenTxn) (offsets : List DeferredOffset) :
    (s.finalizeTxn pid epoch committed txn offsets).2.txnTables = s.txnTables := by
  unfold finalizeTxn
  split_ifs
  · simp
  · simp only [txnTables_persistTxnMarkers]
    rw [frame_txnTables.foldl txnTables_commitOffset, txnTables_appendTxnControlMarkers]
    exact frame_txnTables.foldl (fun s (batch : WrittenRange) => txnTables_recordIdempotentProduce s pid
      epoch batch.tp batch.baseSequence batch.count batch.firstOffset) _ s

end

end State

/-! ## The end of a transaction -/

namespace TxnTables

variable (t : TxnTables)

/-- The transaction with this number is over. -/
def mark (committed : Bool) (serial : Nat) : TxnTables :=
  if committed then { t with committed := serial :: t.committed } else t

/-- The open transaction of a producer becomes a prepared one. -/
def prepare (pid : Nat) (id : String) (prep : PreparedTxn) : TxnTables :=
  { t with openTxns := t.openTxns.erase pid, preparedTxns := t.preparedTxns.insert id prep }

/-- An open transaction is over. -/
def finishOpen (pid : Nat) (committed : Bool) (txn : OpenTxn) : TxnTables :=
  { t with openTxns := t.openTxns.erase pid }.mark committed txn.serial

/-- A prepared transaction is over. -/
def finishPrepared (id : String) (committed : Bool) (prep : PreparedTxn) : TxnTables :=
  { t with preparedTxns := t.preparedTxns.erase id }.mark committed prep.body.serial

/-- The open transaction of the producer changes in place, perhaps with a new epoch, or nothing
happens. -/
inductive Touches (pid : Nat) (epoch : Option Nat) : TxnTables → Prop where
  | same : Touches pid epoch t
  | changed {txn txn' : OpenTxn} (hlookup : t.openTxns.lookup pid = some txn)
      (hserial : txn'.serial = txn.serial)
      (hepoch : txn'.producerEpoch = epoch.getD txn.producerEpoch) :
      Touches pid epoch { t with openTxns := t.openTxns.insert pid txn' }

/-- A transaction becomes prepared, or it is over, or nothing happens. -/
inductive Ends (pid : Nat) (id : String) (committed : Bool) : TxnTables → Prop where
  | same : Ends pid id committed t
  | prepare (prep : PreparedTxn) (hopen : t.openTxns.lookup pid = some prep.body)
      (hnone : t.preparedTxns.lookup id = none) (hid : prep.transactionalId = id)
      (hcommit : prep.commit = committed) : Ends pid id committed (t.prepare pid id prep)
  | finishOpen {txn : OpenTxn} (hlookup : t.openTxns.lookup pid = some txn) :
      Ends pid id committed (t.finishOpen pid committed txn)
  | finishPrepared {prep : PreparedTxn} (hlookup : t.preparedTxns.lookup id = some prep) :
      Ends pid id committed (t.finishPrepared id committed prep)

end TxnTables

namespace State

variable {s : State}

@[simp] theorem txnTables_markCommitted (s : State) (committed : Bool) (serial : Nat) :
    (s.markCommitted committed serial).txnTables = s.txnTables.mark committed serial := by
  unfold markCommitted TxnTables.mark
  split_ifs <;> rfl

/-! ## Expiry -/

theorem txnTables_expireTimedOutTxns (s : State) : s.expireTimedOutTxns.txnTables =
    { s.txnTables with
      openTxns := s.unexpiredOpenTxns, preparedTxns := s.unexpiredPreparedTxns } := by
  have h₁ := frame_sameTables.expireTimedOutOpenTxns s
  have hexpired : s.expireTimedOutOpenTxns.unexpiredPreparedTxns = s.unexpiredPreparedTxns := by
    simp only [unexpiredPreparedTxns, expiredPreparedTxns, timedOut, clampTxnTimeoutMs, h₁.config,
      h₁.nowMs, h₁.preparedTxns]
  unfold expireTimedOutTxns
  rw [frame_txnTables.expireTimedOutPreparedTxns]
  refine Eq.trans ?_ (congrArg (fun t => { t with preparedTxns := s.unexpiredPreparedTxns })
    (frame_txnTables.expireTimedOutOpenTxns s))
  rw [← hexpired]
  rfl

theorem openTxns_expire (s : State) : s.expireTimedOutTxns.openTxns = s.unexpiredOpenTxns :=
  congrArg TxnTables.openTxns (txnTables_expireTimedOutTxns s)

theorem preparedTxns_expire (s : State) :
    s.expireTimedOutTxns.preparedTxns = s.unexpiredPreparedTxns :=
  congrArg TxnTables.preparedTxns (txnTables_expireTimedOutTxns s)

theorem lookup_openTxns_expire {pid : Nat} {txn : OpenTxn}
    (h : s.expireTimedOutTxns.openTxns.lookup pid = some txn) : s.openTxns.lookup pid = some txn := by
  rw [openTxns_expire] at h
  have hmem := Assoc.mem_of_mem_foldl_erase _ _ _ (AList.mem_lookup_iff.mp h)
  exact AList.mem_lookup_iff.mpr hmem

/-- A transaction leaves its table at an expiry only if it has timed out. -/
theorem lookup_openTxns_expire_cases (s : State) (pid : Nat) :
    s.expireTimedOutTxns.openTxns.lookup pid = s.openTxns.lookup pid ∨
      s.expireTimedOutTxns.openTxns.lookup pid = none ∧
        ∃ txn, s.openTxns.lookup pid = some txn ∧ s.openTxnTimedOut pid txn = true := by
  rw [openTxns_expire]
  by_cases hexpired : ∃ e ∈ s.expiredOpenTxns, e.1 = pid
  · obtain ⟨e, he, rfl⟩ := hexpired
    obtain ⟨⟨pid, txn⟩, hmem, rfl⟩ := List.mem_map.mp he
    obtain ⟨hmem, htimedOut⟩ := List.mem_filter.mp hmem
    refine .inr ⟨Option.eq_none_iff_forall_not_mem.mpr fun txn' hlookup => ?_, txn,
      AList.mem_lookup_iff.mpr hmem, htimedOut⟩
    exact absurd (List.mem_map_of_mem he)
      (Assoc.key_notMem_of_mem_foldl_erase _ _ _ (AList.mem_lookup_iff.mp hlookup))
  · exact .inl (Assoc.lookup_foldl_erase_of_ne _ _ _ fun e he heq => hexpired ⟨e, he, heq⟩)

theorem lookup_preparedTxns_expire {id : String} {prep : PreparedTxn}
    (h : s.expireTimedOutTxns.preparedTxns.lookup id = some prep) :
    s.preparedTxns.lookup id = some prep := by
  rw [preparedTxns_expire] at h
  have hmem := Assoc.mem_of_mem_foldl_erase _ _ _ (AList.mem_lookup_iff.mp h)
  exact AList.mem_lookup_iff.mpr hmem

section

variable (s : State)

theorem producers_expire : s.expireTimedOutTxns.producers = s.producers :=
  (frame_sameTables.expireTimedOutPreparedTxns _).producers.trans
    (frame_sameTables.expireTimedOutOpenTxns s).producers

/-! ## Operations -/

theorem writeThrough_tables (pid : Nat) (txn : OpenTxn) (tp : TopicPartition)
    (baseSequence : Int) (messages : List Message) : s.txnTables.Touches pid none
      (s.writeThrough pid txn tp baseSequence messages).2.txnTables := by
  have happend := frame_txnTables.produce s tp messages (.txn txn.serial)
    (show DurableStep.txnAppend ≠ .offset by simp)
  unfold writeThrough
  generalize s.produce tp messages (.txn txn.serial) .txnAppend = result at happend
  obtain ⟨r, s₁⟩ := result
  rw [← happend]
  cases r with
  | error e => exact .same
  | ok records =>
    simp only
    split
    · exact .same
    next txn' htxn' => exact .changed htxn' rfl rfl

theorem bufferTxnProduce_tables (pid epoch : Nat) (tp : TopicPartition)
    (baseSequence : Int) (messages : List Message) : s.expireTimedOutTxns.txnTables.Touches pid none
      (s.bufferTxnProduce pid epoch tp baseSequence messages).2.txnTables := by
  rcases bufferTxnProduce_cases s pid epoch tp baseSequence messages with
    ⟨heq, -⟩ | ⟨prod, txn, -, -, -, -, -, heq⟩
  · rw [heq]
    exact .same
  · simp only [heq]
    exact writeThrough_tables s.expireTimedOutTxns pid txn tp baseSequence messages

/-- After expiry, a prepared or open transaction of the producer is over, or becomes prepared. -/
theorem endTxn_tables (pid epoch : Nat) (committed : Bool) (offsets : List DeferredOffset) :
    let s' := (s.endTxn pid epoch committed offsets).2.2
    let s₁ := s.expireTimedOutTxns
    s'.txnTables = s₁.txnTables ∨ ∃ prod, s₁.producers.lookup pid = some prod ∧
      s₁.txnTables.Ends pid prod.transactionalId committed s'.txnTables := by
  intro s' s₁
  rcases endTxn_exits s pid epoch committed offsets with
    ⟨-, heq | heq⟩ | ⟨prod, hprod, -, ⟨prep, -, hprep, hends⟩ | ⟨hnone, txn, htxn, hends⟩⟩
  · exact .inl (congrArg txnTables heq)
  · exact .inl ((congrArg txnTables heq).trans rfl)
  · refine .inr ⟨prod, hprod, ?_⟩
    have hs' : s' = _ := congrArg (fun r => r.2.2) hends.result
    rw [hs', txnTables_markCommitted, txnTables_persistPreparedTxns, txnTables_finalizeTxn]
    exact .finishPrepared hprep
  · refine .inr ⟨prod, hprod, ?_⟩
    unfold EndsOpen at hends
    split_ifs at hends with h2pc
    · have hs' : s' = _ := congrArg (fun r => r.2.2) hends
      rw [hs']
      exact .prepare ⟨prod.transactionalId, pid, epoch, committed, s₁.nowMs, txn⟩ htxn
        (hnone h2pc.2) rfl rfl
    · have hs' : s' = _ := congrArg (fun r => r.2.2) hends
      rw [hs', txnTables_markCommitted, txnTables_finalizeTxn]
      exact .finishOpen htxn

/-! ## Participants -/

theorem installOpenTxn_tables (id : String) (pid epoch : Nat) :
    let s' := s.installOpenTxn id pid epoch
    s.txnTables.Touches pid (some epoch) s'.txnTables ∨
      (s.openTxns.lookup pid = none ∧ s.isPrepared id = false ∧ ∃ txn : OpenTxn,
        txn.serial = s.nextSerial ∧ txn.producerEpoch = epoch ∧ s'.txnTables = { s.txnTables with
          openTxns := s.openTxns.insert pid txn, nextSerial := s.nextSerial + 1 }) := by
  unfold installOpenTxn
  split
  next txn htxn => exact .inl (.changed htxn rfl rfl)
  next hnone =>
    split_ifs with hprepared
    · exact .inl .same
    · exact .inr ⟨hnone, Bool.eq_false_of_not_eq_true hprepared, s.newTxn epoch, rfl, rfl, rfl⟩

theorem handleTxnParticipantOpen_tables (m : ParticipantOpen) :
    let s' := (s.handleTxnParticipantOpen m).2
    s.txnTables.Touches m.producerId (some m.producerEpoch) s'.txnTables ∨
      (s.openTxns.lookup m.producerId = none ∧ s.isPrepared m.transactionalId = false ∧
        ∃ txn : OpenTxn, txn.serial = s.nextSerial ∧ txn.producerEpoch = m.producerEpoch ∧ s'.txnTables = { s.txnTables with
          openTxns := s.openTxns.insert m.producerId txn, nextSerial := s.nextSerial + 1 }) := by
  unfold handleTxnParticipantOpen
  split
  · exact .inl .same
  next prod _ =>
    simp only
    generalize hs₁ : (if m.transactionalId.isEmpty = true then _ else _) = s₁
    have htables : s₁.txnTables = s.txnTables := by
      rw [← hs₁]
      split_ifs <;> rfl
    have hopen : s₁.openTxns = s.openTxns := congrArg TxnTables.openTxns htables
    have hserial : s₁.nextSerial = s.nextSerial := congrArg TxnTables.nextSerial htables
    have hprepared : s₁.isPrepared = s.isPrepared := by
      unfold isPrepared
      rw [show s₁.preparedTxns = s.preparedTxns from congrArg TxnTables.preparedTxns htables]
    split_ifs
    · have hinstall := installOpenTxn_tables s₁ m.transactionalId m.producerId m.producerEpoch
      simp only [htables, hopen, hserial, hprepared] at hinstall
      exact hinstall
    · exact .inl (htables ▸ .same)

theorem handleTxnParticipantPrepare_tables (m : ParticipantEnd) :
    let s' := (s.handleTxnParticipantPrepare m).2
    s'.txnTables = s.txnTables ∨ ∃ prep : PreparedTxn,
      s.openTxns.lookup m.producerId = some prep.body ∧
      s.preparedTxns.lookup m.transactionalId = none ∧ prep.transactionalId = m.transactionalId ∧
      prep.producerId = m.producerId ∧ prep.producerEpoch = m.producerEpoch ∧
      prep.commit = m.commit ∧ s'.txnTables = s.txnTables.prepare m.producerId m.transactionalId prep := by
  unfold handleTxnParticipantPrepare
  split
  · exact .inl rfl
  · split
    · split_ifs <;> exact .inl rfl
    next hnone =>
      split
      · split_ifs <;> exact .inl rfl
      next txn htxn =>
        split_ifs
        · exact .inl rfl
        · exact .inl rfl
        · exact .inr ⟨⟨m.transactionalId, m.producerId, m.producerEpoch, m.commit, s.nowMs, txn⟩,
            htxn, hnone, rfl, rfl, rfl, rfl, rfl⟩

end

/-- The transaction that is prepared for the message. -/
def preparedFor (s : State) (m : ParticipantEnd) : Option PreparedTxn :=
  if m.transactionalId.isEmpty then none else s.preparedTxns.lookup m.transactionalId

theorem lookup_of_preparedFor {m : ParticipantEnd} {prep : PreparedTxn}
    (h : s.preparedFor m = some prep) : s.preparedTxns.lookup m.transactionalId = some prep := by
  unfold preparedFor at h
  split_ifs at h
  exact h

/-- A prepared transaction is checked against the message, an open one is not. -/
theorem handleTxnParticipantComplete_tables (s : State) (m : ParticipantEnd) :
    (s.handleTxnParticipantComplete m).2.txnTables =
      match s.preparedFor m with
      | some prep =>
        if prep.producerId = m.producerId ∧ prep.producerEpoch = m.producerEpoch ∧
            (m.commit = true → prep.commit = true) then
          s.txnTables.finishPrepared m.transactionalId m.commit prep
        else s.txnTables
      | none =>
        match s.openTxns.lookup m.producerId with
        | some txn => s.txnTables.finishOpen m.producerId m.commit txn
        | none => s.txnTables := by
  unfold handleTxnParticipantComplete preparedFor
  generalize (if m.transactionalId.isEmpty = true then none
    else s.preparedTxns.lookup m.transactionalId) = prepared
  cases prepared with
  | none =>
    cases s.openTxns.lookup m.producerId with
    | none => rfl
    | some txn =>
      simp only [txnTables_markCommitted, txnTables_finalizeTxn]
      rfl
  | some prep =>
    simp only
    by_cases hfits : prep.producerId = m.producerId ∧ prep.producerEpoch = m.producerEpoch ∧
        (m.commit = true → prep.commit = true)
    · rw [if_pos hfits]
      obtain ⟨hpid, hepoch, hcommit⟩ := hfits
      rw [if_neg (not_not.mpr hpid), if_neg (not_not.mpr hepoch)]
      split_ifs with hne habort
      · exact absurd ((hcommit habort).trans habort.symm) hne
      · rw [txnTables_forceAbortPrepared, Bool.eq_false_of_not_eq_true habort]
        rfl
      · rw [txnTables_markCommitted, txnTables_persistPreparedTxns, txnTables_finalizeTxn]
        rfl
    · split_ifs with hpid hepoch hne habort
      · rfl
      · rfl
      · rfl
      · exact absurd ⟨not_not.mp hpid, not_not.mp hepoch, fun hc => absurd hc habort⟩ hfits
      · exact absurd ⟨not_not.mp hpid, not_not.mp hepoch, (not_not.mp hne).trans⟩ hfits

theorem handleTxnParticipantComplete_ends (s : State) (m : ParticipantEnd) :
    s.txnTables.Ends m.producerId m.transactionalId m.commit
      (s.handleTxnParticipantComplete m).2.txnTables := by
  rw [handleTxnParticipantComplete_tables]
  split
  next prep hprep =>
    split_ifs
    · exact .finishPrepared (lookup_of_preparedFor hprep)
    · exact .same
  · split
    next txn htxn => exact .finishOpen htxn
    · exact .same

theorem rollbackLocalPrepare_tables (s : State) (id : String) :
    let s' := s.rollbackLocalPrepare id
    s'.txnTables = s.txnTables ∨ ∃ prep, s.preparedTxns.lookup id = some prep ∧
      s'.txnTables = { s.txnTables with
        preparedTxns := s.preparedTxns.erase id
        openTxns := s.openTxns.insert prep.producerId prep.body } := by
  unfold rollbackLocalPrepare
  split
  · exact .inl rfl
  next prep hprep => exact .inr ⟨prep, hprep, rfl⟩

end State
end Volant.Broker
