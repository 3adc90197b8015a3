-- SUMMARY: The exits of the transactional operations, one inversion lemma for each.
import Volant.Broker.Txn

/-!
# Exits of the transactional operations

Every operation first expires what has timed out, checks the producer and its
tables, and is turned away or does its work. What it does then is stated here
once, so that an invariant need not take the operations apart again.
-/

namespace Volant.Broker.State

variable (s : State) (pid epoch : Nat)

theorem checkTxnProducer_error {s : State} {pid epoch : Nat} {code : ErrorCode}
    (h : s.checkTxnProducer pid epoch = .error code) : code ≠ .ok := by
  unfold checkTxnProducer at h
  split at h
  · cases h
    simp
  · split_ifs at h <;> cases h <;> simp

theorem checkTxnProducer_ok {s : State} {pid epoch : Nat} {prod : Producer}
    (h : s.checkTxnProducer pid epoch = .ok prod) :
    s.producers.lookup pid = some prod ∧ prod.epoch = epoch ∧ prod.transactional = true := by
  unfold checkTxnProducer at h
  split at h
  · cases h
  next prod' hprod =>
    split_ifs at h with hepoch htxn
    cases h
    exact ⟨hprod, not_not.mp hepoch, by simpa using htxn⟩

/-- The transaction that `beginTxn` opens. -/
def newTxn (s : State) (epoch : Nat) : OpenTxn :=
  { openedAtMs := s.nowMs, producerEpoch := epoch, added := [], written := [], pending := ∅,
    deferredOffsets := [], serial := s.nextSerial }

theorem beginTxn_cases :
    let s₁ := s.expireTimedOutTxns
    (∃ code, code ≠ .ok ∧ s.beginTxn pid epoch = (code, s₁)) ∨
      ∃ prod, s₁.checkTxnProducer pid epoch = .ok prod ∧ s₁.isTxnAbortable pid = false ∧
        s₁.isPrepared prod.transactionalId = false ∧ s₁.openTxns.lookup pid = none ∧
        s.beginTxn pid epoch = (.ok, { s₁ with
          openTxns := s₁.openTxns.insert pid (s₁.newTxn epoch)
          nextSerial := s₁.nextSerial + 1 }) := by
  unfold beginTxn
  simp only
  split
  next code hcode => exact .inl ⟨code, checkTxnProducer_error hcode, rfl⟩
  next prod hprod =>
    split_ifs with habortable hprepared hopen
    · exact .inl ⟨_, by simp, rfl⟩
    · exact .inl ⟨_, by simp, rfl⟩
    · exact .inl ⟨_, by simp, rfl⟩
    · exact .inr ⟨prod, hprod, by simpa using habortable, by simpa using hprepared,
        Option.not_isSome_iff_eq_none.mp hopen, rfl⟩

theorem bufferTxnProduce_cases (tp : TopicPartition) (baseSequence : Int)
    (messages : List Message) :
    let s₁ := s.expireTimedOutTxns
    let r := s.bufferTxnProduce pid epoch tp baseSequence messages
    (r.2 = s₁ ∧ ∀ baseOffset, r.1 ≠ .accept baseOffset) ∨
      ∃ prod txn, messageCount messages ≠ 0 ∧ s₁.checkTxnProducer pid epoch = .ok prod ∧
        s₁.isPrepared prod.transactionalId = false ∧ s₁.openTxns.lookup pid = some txn ∧
        (∃ baseOffset, checkSequence ((txn.pending.lookup tp).or (prod.partitions.lookup tp))
          baseSequence (messageCount messages) = .accept baseOffset) ∧
        r = s₁.writeThrough pid txn tp baseSequence messages := by
  intro s₁ r
  have hr : r = s.bufferTxnProduce pid epoch tp baseSequence messages := rfl
  unfold bufferTxnProduce at hr
  simp only at hr
  split_ifs at hr with hzero
  · exact .inl (by rw [hr]; exact ⟨rfl, nofun⟩)
  · split at hr
    · exact .inl (by rw [hr]; exact ⟨rfl, nofun⟩)
    next prod hprod =>
      split_ifs at hr with hprepared
      · exact .inl (by rw [hr]; exact ⟨rfl, nofun⟩)
      · split at hr
        · exact .inl (by rw [hr]; exact ⟨rfl, nofun⟩)
        next txn htxn =>
          split at hr
          next baseOffset haccept =>
            exact .inr ⟨prod, txn, hzero, hprod, by simpa using hprepared, htxn,
              ⟨baseOffset, haccept⟩, hr⟩
          next hreject =>
            exact .inl (by rw [hr]; exact ⟨rfl, hreject⟩)

/-- EndTxn prepares or finalizes the open transaction `txn`, which has left its table. -/
def EndsOpen (s : State) (pid epoch : Nat) (committed : Bool) (offsets : List DeferredOffset)
    (prod : Producer) (txn : OpenTxn) (r : ErrorCode × List TxnCommitResult × State) : Prop :=
  let s₁ := { s with openTxns := s.openTxns.erase pid }.clearTxnAbortable pid
  let f := s₁.finalizeTxn pid epoch committed txn offsets
  if prod.enable2pc = true ∧ prod.transactionalId ≠ "" then
    r = (.ok, [], s₁.prepareTxn pid epoch committed prod.transactionalId txn)
  else r = (.ok, f.1, f.2.markCommitted committed txn.serial)

section

variable (committed : Bool) (offsets : List DeferredOffset)

theorem completeOpen_exits (prod : Producer) :
    let r := s.completeOpen pid epoch committed offsets prod
    (r.1 ≠ .ok ∧ (r.2.2 = s ∨ r.2.2 = s.clearTxnAbortable pid)) ∨
      ∃ txn, s.openTxns.lookup pid = some txn ∧ s.EndsOpen pid epoch committed offsets prod txn r := by
  intro r
  have hr : r = s.completeOpen pid epoch committed offsets prod := rfl
  unfold completeOpen at hr
  split at hr
  next hnone =>
    split_ifs at hr
    · exact .inl (by rw [hr]; exact ⟨by simp, .inr rfl⟩)
    · exact .inl (by rw [hr]; exact ⟨by simp, .inl rfl⟩)
  next txn htxn =>
    refine .inr ⟨txn, htxn, ?_⟩
    split_ifs at hr with h2pc
    · exact (if_pos (by simpa using h2pc)).mpr hr
    · exact (if_neg (by simpa using h2pc)).mpr hr

/-- EndTxn finalizes the prepared transaction `prep`, which has left its table. -/
structure EndsPrepared (s : State) (pid epoch : Nat) (committed : Bool)
    (offsets : List DeferredOffset) (id : String) (prep : PreparedTxn)
    (r : ErrorCode × List TxnCommitResult × State) : Prop where
  producerId : prep.producerId = pid
  producerEpoch : prep.producerEpoch = epoch
  commit : prep.commit = committed
  result :
    let s₁ := { s with preparedTxns := s.preparedTxns.erase id }.clearTxnAbortable pid
    let f := s₁.finalizeTxn pid epoch committed prep.body offsets
    r = (.ok, f.1, f.2.persistPreparedTxns.markCommitted committed prep.body.serial)

theorem completePrepared_exits (id : String) (prep : PreparedTxn) :
    let r := s.completePrepared pid epoch committed offsets id prep
    (r.1 ≠ .ok ∧ r.2.2 = s) ∨ s.EndsPrepared pid epoch committed offsets id prep r := by
  intro r
  have hr : r = s.completePrepared pid epoch committed offsets id prep := rfl
  unfold completePrepared at hr
  split_ifs at hr with hpid hepoch hcommit
  · exact .inl (by rw [hr]; exact ⟨by simp, rfl⟩)
  · exact .inl (by rw [hr]; exact ⟨by simp, rfl⟩)
  · exact .inl (by rw [hr]; exact ⟨by simp, rfl⟩)
  · exact .inr ⟨not_not.mp hpid, not_not.mp hepoch, not_not.mp hcommit, hr⟩

theorem endTxn_exits :
    let s₁ := s.expireTimedOutTxns
    let r := s.endTxn pid epoch committed offsets
    (r.1 ≠ .ok ∧ (r.2.2 = s₁ ∨ r.2.2 = s₁.clearTxnAbortable pid)) ∨
      ∃ prod, s₁.producers.lookup pid = some prod ∧ prod.epoch = epoch ∧
        ((∃ prep, prod.transactionalId ≠ "" ∧
            s₁.preparedTxns.lookup prod.transactionalId = some prep ∧
            s₁.EndsPrepared pid epoch committed offsets prod.transactionalId prep r) ∨
          (prod.transactionalId ≠ "" → s₁.preparedTxns.lookup prod.transactionalId = none) ∧
            ∃ txn, s₁.openTxns.lookup pid = some txn ∧
              s₁.EndsOpen pid epoch committed offsets prod txn r) := by
  unfold endTxn
  generalize s.expireTimedOutTxns = s₁
  simp only
  split
  · exact .inl ⟨by simp, .inl rfl⟩
  next prod hprod =>
    split_ifs with hepoch hempty
    · exact .inl ⟨by simp, .inl rfl⟩
    · refine (completeOpen_exits s₁ pid epoch committed offsets prod).imp_right fun hopen => ?_
      exact ⟨prod, hprod, not_not.mp hepoch, .inr ⟨fun hne => absurd (by simpa using hempty) hne,
        hopen⟩⟩
    · split
      next prep hprep =>
        refine (completePrepared_exits s₁ pid epoch committed offsets _ prep).imp
          (fun herror => ⟨herror.1, .inl herror.2⟩) fun hends => ?_
        exact ⟨prod, hprod, not_not.mp hepoch, .inl ⟨prep, by simpa using hempty, hprep, hends⟩⟩
      next hnone =>
        refine (completeOpen_exits s₁ pid epoch committed offsets prod).imp_right fun hopen => ?_
        exact ⟨prod, hprod, not_not.mp hepoch, .inr ⟨fun _ => hnone, hopen⟩⟩

end

end Volant.Broker.State
