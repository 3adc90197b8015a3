-- SUMMARY: Ending a transaction, by commit, abort, prepare or fencing, keeps the transaction invariant.
import Volant.Broker.TxnAbort
import Volant.Broker.TxnCases

/-!
# Ends of transactions

The functions that take a transaction out of the maps: fencing, the forced
abort of a prepared transaction, and both calls of EndTxn. Each starts from a
`Settled` state and ends in one. A commit is the exception on disk: its last
durable step is the one that makes it, so the disk images before that step
are judged by the history before the commit.
-/

namespace Volant.Broker.State

open List

variable {exact steps : Prop} {s s' : State} {txn : OpenTxn} {prep : PreparedTxn} {id : String}

/-- The invariant holds and the trace so far is accounted for. -/
structure Settled (exact steps : Prop) (s : State) : Prop extends Inv exact s where
  trace : steps → TraceOk exact s

/-- How an operation ends: every disk image but the last is good in the history before it. -/
structure Ends (exact steps : Prop) (s s' : State) : Prop where
  inv : Inv exact s'
  trace : steps → ∀ e ∈ s'.trace.dropLast, e.1 ≠ .txnAppend → e.1 ≠ .prepareMarkers →
    DiskOk exact s.nextSerial s.committed e.2

/-- The state goes on and stays settled. -/
structure Goes (exact steps : Prop) (s s' : State) : Prop where
  settled : Settled exact steps s'
  later : Later s s'

theorem Settled.mid (h : Settled exact steps s) : Mid exact steps [] s := h.toInv.mid h.trace

theorem Mid.settled (h : Mid exact steps [] s) (hfresh : s.Fresh) (hprepared : s.PreparedSynced []) :
    Settled exact steps s :=
  ⟨⟨h.mem, hfresh, hprepared⟩, h.trace⟩

theorem Settled.ends (h : Settled exact steps s') (hl : Later s s') : Ends exact steps s s' := by
  refine ⟨h.toInv, fun hsteps e he => ?_⟩
  rw [← hl.nextSerial, ← hl.committed]
  exact h.trace hsteps e (mem_of_mem_dropLast he)

theorem Ends.after {s₀ : State} (h : Ends exact steps s s') (hl : Later s₀ s) :
    Ends exact steps s₀ s' := by
  refine ⟨h.inv, ?_⟩
  rw [← hl.nextSerial, ← hl.committed]
  exact h.trace

theorem Settled.keep (h : Settled exact steps s) (hk : Keeps s s') (ht : Traces s s')
    (hpart : s'.partitions = s.partitions) (horig : s'.origins = s.origins) :
    Settled exact steps s' :=
  (h.mid.keep hk ht hpart horig).settled (hk.fresh h.fresh) (hk.preparedSynced h.prepared)

/-- Taking transactions out of the maps, or clearing a producer, is no growth. -/
theorem Later.maps (s : State) {openTxns : AList fun _ : Nat => OpenTxn}
    {preparedTxns : AList fun _ : String => PreparedTxn} {abortableProducers : List Nat} :
    Later s { s with openTxns, preparedTxns, abortableProducers } :=
  ⟨rfl, rfl, rfl, rfl, fun _ => prefix_rfl, fun _ _ ha => ha⟩

theorem Mid.clearTxnAbortable {lost : List OpenTxn} (h : Mid exact steps lost s) (pid : Nat) :
    Mid exact steps lost (s.clearTxnAbortable pid) :=
  h.keep (.others s) (.inl rfl) rfl rfl

theorem Settled.clearTxnAbortable (h : Settled exact steps s) (pid : Nat) :
    Settled exact steps (s.clearTxnAbortable pid) :=
  h.keep (.others s) (.inl rfl) rfl rfl

theorem Settled.expireTimedOutTxns (h : Settled exact steps s) (hclean : exact → s.CleanExpiry) :
    Goes exact (steps ∧ s.expiredOpenTxns.length ≤ 1) s s.expireTimedOutTxns := by
  obtain ⟨hinv, htrace, hlater⟩ := h.toInv.expireTimedOutTxns h.trace hclean
  exact ⟨⟨hinv, htrace⟩, hlater⟩

/-! ## Aborts -/

/-- Aborting a transaction that was open. -/
theorem Mid.abortOpen (h : Mid exact steps [txn] s) (hprepared : s.PreparedSynced [])
    (hclean : exact → s.CleanHull txn) (pid epoch : Nat) : Goes exact steps s
      ((s.recordAbortedFromTxn pid txn).appendTxnControlMarkers pid epoch .abort txn) := by
  obtain ⟨hmid, hgrows, hfresh, -⟩ := Mid.recordAbortedFromTxn [txn] h
    (fun t ht => mem_singleton.mp ht) [] (fun _ => rfl) (fun _ => hprepared) hclean pid
  obtain ⟨hmid', hkeeps⟩ := hmid.appendTxnControlMarkers pid epoch .abort txn
  refine ⟨hmid'.settled (hkeeps.fresh hfresh) ?_, hgrows.toLater.trans hkeeps.grows.toLater⟩
  exact hkeeps.preparedSynced (hgrows.preparedSynced hprepared)

/-- Aborting a transaction that was prepared. -/
theorem Mid.abortPrepared (h : Mid exact steps [prep.body] s) (hprepared : s.PreparedSynced [prep])
    (hclean : exact → s.CleanHull prep.body) (pid epoch : Nat) :
    Goes exact steps s ((s.recordAbortedFromTxn pid prep.body).appendTxnControlMarkers pid epoch
      .abort prep.body).persistPreparedTxns := by
  obtain ⟨hmid, hgrows, hfresh, hcovered⟩ := Mid.recordAbortedFromTxn [] h
    (fun t ht => absurd ht not_mem_nil) [prep] (fun _ => rfl) (fun _ => hprepared) hclean pid
  obtain ⟨hmid', hkeeps⟩ := hmid.appendTxnControlMarkers pid epoch .abort prep.body
  have hmem := hmid'.mem.recorded [prep.body] fun t ht tp o hc => by
    rw [mem_singleton.mp ht] at hc
    exact hkeeps.grows.aborted tp o (hcovered tp o hc)
  obtain ⟨hinv, htrace⟩ := Inv.persistPreparedTxns hmem (hkeeps.fresh hfresh) hmid'.trace
  have hlater := hgrows.toLater.trans hkeeps.grows.toLater
  exact ⟨⟨hinv, htrace⟩, hlater.config, hlater.nowMs, hlater.nextSerial, hlater.committed,
    hlater.origins, hlater.aborted⟩

section

variable (h : Settled exact steps s)

include h

/-- An open transaction taken out of its map. -/
theorem Settled.takeOpen {pid : Nat} (hlookup : s.openTxns.lookup pid = some txn) :
    Mid exact steps [txn] { s with openTxns := s.openTxns.erase pid } :=
  ⟨h.mem.takeOpen (Assoc.values_perm_of_lookup hlookup), fun _ => h.diskOk, h.trace⟩

/-- A prepared transaction taken out of its map stays on the prepared file. -/
theorem Settled.takePrepared (hlookup : s.preparedTxns.lookup id = some prep) :
    Mid exact steps [prep.body] { s with preparedTxns := s.preparedTxns.erase id } ∧
      PreparedSynced [prep] { s with preparedTxns := s.preparedTxns.erase id } := by
  have hperm := Assoc.values_perm_of_lookup hlookup
  refine ⟨⟨?_, fun _ => h.diskOk, h.trace⟩, h.prepared.trans (hperm.map _)⟩
  exact h.mem.takePrepared [prep] hperm fun e he => Assoc.mem_of_mem_erase he

theorem Settled.fenceOpenTxn (pid epoch : Nat)
    (hclean : exact → ∀ txn, s.openTxns.lookup pid = some txn → s.CleanHull txn) :
    Goes exact steps s (s.fenceOpenTxn pid epoch) := by
  unfold State.fenceOpenTxn
  split
  · exact ⟨h, .refl s⟩
  next txn hlookup =>
    obtain ⟨hsettled, hlater⟩ := (h.takeOpen hlookup).abortOpen h.prepared
      (fun hex => hclean hex txn hlookup) pid epoch
    exact ⟨hsettled, (Later.maps s).trans hlater⟩

theorem Settled.dropPreparedTxn (id : String)
    (hclean : exact → ∀ prep, s.preparedTxns.lookup id = some prep → s.CleanHull prep.body) :
    Goes exact steps s (s.dropPreparedTxn id) := by
  unfold State.dropPreparedTxn
  split
  · exact ⟨h, .refl s⟩
  next prep hlookup =>
    obtain ⟨hmid, hprepared⟩ := h.takePrepared hlookup
    obtain ⟨hsettled, hlater⟩ := hmid.abortPrepared hprepared
      (fun hex => hclean hex prep hlookup) prep.producerId prep.producerEpoch
    exact ⟨hsettled.clearTxnAbortable _, (Later.maps s).trans (hlater.trans (.maps _))⟩

end

/-! ## Commits -/

/-- The state of a commit before its last marker file. -/
def beforeCommitMarkers (s : State) (pid epoch : Nat) (txn : OpenTxn)
    (offsets : List DeferredOffset) : State :=
  (txn.deferredOffsets ++ offsets).foldl State.commitOffset
    ((txn.written.foldl (fun s batch => s.recordIdempotentProduce pid epoch batch.tp
      batch.baseSequence batch.count batch.firstOffset) s).appendTxnControlMarkers pid epoch .commit
        txn)

theorem finalizeTxn_commit (s : State) (pid epoch : Nat) (txn : OpenTxn)
    (offsets : List DeferredOffset) : (s.finalizeTxn pid epoch true txn offsets).2 =
      (s.beforeCommitMarkers pid epoch txn offsets).persistTxnMarkers .commitMarkers := rfl

theorem Mid.beforeCommitMarkers {lost : List OpenTxn} (h : Mid exact steps lost s) (pid epoch : Nat)
    (txn : OpenTxn) (offsets : List DeferredOffset) :
    Mid exact steps lost (s.beforeCommitMarkers pid epoch txn offsets) ∧
      Keeps s (s.beforeCommitMarkers pid epoch txn offsets) := by
  obtain ⟨hmid₁, hk₁⟩ := Mid.foldl (fun s (batch : WrittenRange) hs =>
    hs.recordIdempotentProduce pid epoch batch.tp batch.baseSequence batch.count batch.firstOffset)
    txn.written h
  obtain ⟨hmid₂, hk₂⟩ := hmid₁.appendTxnControlMarkers pid epoch .commit txn
  obtain ⟨hmid₃, hk₃⟩ := Mid.foldl (fun s o hs => hs.commitOffset o)
    (txn.deferredOffsets ++ offsets) hmid₂
  exact ⟨hmid₃, hk₁.trans (hk₂.trans hk₃)⟩

theorem MemoryOk.markCommitted (h : MemoryOk exact [txn] s)
    (hclean : exact → ∀ tp o, Covered txn.written tp o → ¬ s.Aborted tp o) :
    MemoryOk exact [] (s.markCommitted true txn.serial) :=
  ⟨h.logs, h.settled, h.ledger.commit hclean, h.keys⟩

/-- Committing a transaction that was open: the marker file makes it. -/
theorem Mid.commitOpen (h : Mid exact steps [txn] s) (hprepared : s.PreparedSynced [])
    (hclean : exact → ∀ tp o, Covered txn.written tp o → ¬ s.Aborted tp o) (pid epoch : Nat)
    (offsets : List DeferredOffset) : Ends exact steps s
      ((s.finalizeTxn pid epoch true txn offsets).2.markCommitted true txn.serial) := by
  obtain ⟨hmid, hk⟩ := h.beforeCommitMarkers pid epoch txn offsets
  rw [finalizeTxn_commit]
  have hmem : MemoryOk exact [txn]
      ((s.beforeCommitMarkers pid epoch txn offsets).persistTxnMarkers .commitMarkers) :=
    ⟨hmid.mem.logs, hmid.mem.settled, hmid.mem.ledger, hmid.mem.keys⟩
  refine ⟨⟨hmem.markCommitted fun hex tp o hc ha => hclean hex tp o hc ?_,
    fresh_persistTxnMarkers (s.beforeCommitMarkers pid epoch txn offsets) .commitMarkers,
    hk.preparedSynced hprepared⟩, fun hsteps e he => ?_⟩
  · exact hk.aborted ▸ ha
  · have hdrop : e ∈ (s.beforeCommitMarkers pid epoch txn offsets).trace := by
      simpa [markCommitted, State.persistTxnMarkers, durable] using he
    rw [← hk.nextSerial, ← hk.committed]
    exact hmid.trace hsteps e hdrop

/-- Committing a transaction that was prepared: the prepared file makes it. -/
theorem Mid.commitPrepared (h : Mid exact steps [prep.body] s) (hprepared : s.PreparedSynced [prep])
    (hids : ((s.preparedFile.getD []).map (·.transactionalId)).Nodup)
    (hclean : exact → ∀ tp o, Covered prep.body.written tp o → ¬ s.Aborted tp o) (pid epoch : Nat)
    (offsets : List DeferredOffset) : Ends exact steps s ((s.finalizeTxn pid epoch true prep.body
      offsets).2.persistPreparedTxns.markCommitted true prep.body.serial) := by
  obtain ⟨hmid, hk⟩ := h.beforeCommitMarkers pid epoch prep.body offsets
  rw [finalizeTxn_commit]
  have hmid' := Mid.persistTxnMarkers hmid.mem [prep] (fun _ => rfl)
    (fun _ => hk.preparedSynced hprepared) (fun _ => hk.preparedFile ▸ hids) hmid.trace
    .commitMarkers
  have hmem : MemoryOk exact [prep.body] ((s.beforeCommitMarkers pid epoch prep.body
      offsets).persistTxnMarkers .commitMarkers).persistPreparedTxns :=
    ⟨hmid.mem.logs, hmid.mem.settled, hmid.mem.ledger, hmid.mem.keys⟩
  refine ⟨⟨hmem.markCommitted fun hex tp o hc ha => hclean hex tp o hc ?_,
    fresh_persistTxnMarkers (s.beforeCommitMarkers pid epoch prep.body offsets) .commitMarkers,
    List.Perm.refl _⟩, fun hsteps e he => ?_⟩
  · exact hk.aborted ▸ ha
  · have hdrop : e ∈ ((s.beforeCommitMarkers pid epoch prep.body offsets).persistTxnMarkers
        .commitMarkers).trace := by
      simpa [markCommitted, persistPreparedTxns, durable] using he
    rw [← hk.nextSerial, ← hk.committed]
    exact hmid'.trace hsteps e hdrop

/-! ## Prepares -/

/-- Between its two files a prepare is on neither. -/
theorem Mid.prepareTxn (h : Mid exact steps [txn] s) (pid epoch : Nat) (committed : Bool)
    (hnone : s.preparedTxns.lookup id = none) :
    Goes exact steps s (s.prepareTxn pid epoch committed id txn) := by
  let prep : PreparedTxn := ⟨id, pid, epoch, committed, s.nowMs, txn⟩
  let s₁ := { s with preparedTxns := s.preparedTxns.insert id prep }.persistTxnMarkers
    .prepareMarkers
  have hmem : MemoryOk exact [] s₁ := by
    refine ⟨h.mem.logs, h.mem.settled, h.mem.ledger.perm ?_, Assoc.forall_mem_insert rfl h.mem.keys⟩
    show (Assoc.values s.openTxns ++
      (Assoc.values (s.preparedTxns.insert id prep)).map PreparedTxn.body).Perm
        ([txn] ++ (Assoc.values s.openTxns ++ (Assoc.values s.preparedTxns).map (·.body)))
    rw [Assoc.values_insert_of_none hnone]
    exact perm_middle
  have htrace (hsteps : steps) : TraceOk exact s₁ :=
    (h.trace hsteps).snoc rfl rfl rfl fun _ hne => absurd rfl hne
  obtain ⟨hinv, htrace'⟩ := Inv.persistPreparedTxns hmem (fresh_persistTxnMarkers _ _) htrace
  exact ⟨⟨hinv, htrace'⟩, rfl, rfl, rfl, rfl, fun _ => prefix_rfl, fun _ _ ha => ha⟩

/-! ## EndTxn -/

/-- The transaction that an EndTxn of this producer is about. -/
def endingTxn (s : State) (pid : Nat) : Option OpenTxn :=
  match s.producers.lookup pid with
  | none => none
  | some prod =>
    if prod.transactionalId.isEmpty then s.openTxns.lookup pid
    else
      match s.preparedTxns.lookup prod.transactionalId with
      | some prep => some prep.body
      | none => s.openTxns.lookup pid

section

variable {pid : Nat} {prod : Producer} (hprod : s.producers.lookup pid = some prod)

include hprod

theorem endingTxn_of_prepared {prep : PreparedTxn} (hne : prod.transactionalId ≠ "")
    (hlookup : s.preparedTxns.lookup prod.transactionalId = some prep) :
    s.endingTxn pid = some prep.body := by
  simp [endingTxn, hprod, hne, hlookup]

theorem endingTxn_of_open
    (hnone : prod.transactionalId ≠ "" → s.preparedTxns.lookup prod.transactionalId = none) :
    s.endingTxn pid = s.openTxns.lookup pid := by
  rcases eq_or_ne prod.transactionalId "" with hid | hid
  · simp [endingTxn, hprod, hid]
  · simp [endingTxn, hprod, hnone hid]

end

/-- A commit finds none of its records aborted; an abort hides nothing that counts. -/
def CleanEnd (s : State) (committed : Bool) (txn : OpenTxn) : Prop :=
  if committed then ∀ tp o, Covered txn.written tp o → ¬ s.Aborted tp o else s.CleanHull txn

theorem Settled.endTxn (h : Settled exact steps s) (hexpiry : exact → s.CleanExpiry) (pid epoch : Nat)
    (committed : Bool) (offsets : List DeferredOffset)
    (hclean : exact → ∀ txn, s.expireTimedOutTxns.endingTxn pid = some txn →
      s.expireTimedOutTxns.CleanEnd committed txn) :
    Ends exact (steps ∧ s.expiredOpenTxns.length ≤ 1) s
      (s.endTxn pid epoch committed offsets).2.2 := by
  obtain ⟨h₁, hlater⟩ := h.expireTimedOutTxns hexpiry
  refine .after ?_ hlater
  rcases endTxn_exits s pid epoch committed offsets with ⟨-, heq | heq⟩ |
    ⟨prod, hprod, -, ⟨prep, hne, hlookup, hends⟩ | ⟨hnone, txn, hlookup, hends⟩⟩
  · rw [heq]
    exact h₁.ends (.refl _)
  · rw [heq]
    exact (h₁.clearTxnAbortable pid).ends (.maps _)
  · have hending := endingTxn_of_prepared hprod hne hlookup
    obtain ⟨hmid, hprepared⟩ := h₁.takePrepared hlookup
    have hmid' := hmid.clearTxnAbortable pid
    rw [hends.result]
    cases committed with
    | true =>
      exact (hmid'.commitPrepared hprepared (h₁.prepared.nodup_ids h₁.mem.keys)
        (fun hex => hclean hex _ hending) pid epoch offsets).after (.maps _)
    | false =>
      obtain ⟨hsettled, hlater'⟩ := hmid'.abortPrepared hprepared
        (fun hex => hclean hex _ hending) pid epoch
      exact hsettled.ends ((Later.maps _).trans hlater')
  · have hending := (endingTxn_of_open hprod hnone).trans hlookup
    have hmid := (h₁.takeOpen hlookup).clearTxnAbortable pid
    unfold EndsOpen at hends
    split_ifs at hends with h2pc
    · rw [hends]
      obtain ⟨hsettled, hlater'⟩ := hmid.prepareTxn pid epoch committed (hnone h2pc.2)
      exact hsettled.ends ((Later.maps _).trans hlater')
    · rw [hends]
      cases committed with
      | true =>
        exact (hmid.commitOpen h₁.prepared (fun hex => hclean hex txn hending) pid epoch
          offsets).after (.maps _)
      | false =>
        obtain ⟨hsettled, hlater'⟩ := hmid.abortOpen h₁.prepared
          (fun hex => hclean hex txn hending) pid epoch
        exact hsettled.ends ((Later.maps _).trans hlater')

end Volant.Broker.State
