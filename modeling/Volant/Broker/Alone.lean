-- SUMMARY: A call with nothing between its critical sections is the sequential function.
import Volant.Broker.Concurrent
import Volant.Broker.StablePrefix

/-!
# Calls alone

The programs of critical sections are the functions of the broker: run with
nothing between their sections they give the same answers and leave the broker
in the same state.
-/

namespace Volant.Broker

open Sections List

namespace Program

variable {α β : Type} {t pid epoch : Nat} {sh : Shared} {s : State} {a : α} {txn : OpenTxn}
  {tp : TopicPartition} {baseSequence : Int} {messages : List Message} {r : Record}

/-- The answer of the program and the state it leaves the broker in, alone. -/
def Yields (x : Program α) (sh : Shared) (result : α × State) : Prop :=
  ((x.alone sh).1, (x.alone sh).2.state) = result

theorem Yields.bind {x : Program α} {y : α → Program β} {result : β × State}
    (hx : Yields x sh (a, s)) (hy : ∀ sh', sh'.state = s → Yields (y a) sh' result) :
    Yields (x >>= y) sh result := by
  obtain ⟨rfl, hstate⟩ := Prod.mk.inj hx
  have hy' := hy (x.alone sh).2 hstate
  unfold Yields at hy' ⊢
  rwa [Prog.alone_bind]

section

variable (h : sh.state = s)

include h

theorem yields_pure : Yields (pure a : Program α) sh (a, s) := h ▸ rfl

theorem yields_look {label : Label} (read : State → α) :
    Yields (.look label fun sh => read sh.state) sh (read s, s) := h ▸ rfl

theorem yields_modifies (update : State → State) :
    Yields (modifies update) sh ((), update s) := h ▸ rfl

theorem yields_runs (run : State → α × State) : Yields (runs run) sh (run s) := h ▸ rfl

/-- A program that goes on with what it has read. -/
theorem Yields.read {read : State → α} {y : α → Program β} {result : β × State}
    (hy : Yields (y (read s)) sh result) : Yields (reads read >>= y) sh result := by
  subst h
  exact hy

theorem yields_forEach {body : β → Program Unit} {f : State → β → State}
    (hbody : ∀ {sh s} b, sh.state = s → Yields (body b) sh ((), f s b)) (bs : List β) :
    Yields (Prog.forEach body bs) sh ((), bs.foldl f s) := by
  induction bs generalizing sh s with
  | nil => exact yields_pure h
  | cons b bs ih => exact (hbody b h).bind fun _ h₁ => ih h₁

theorem yields_persistTxnMarkers (step : DurableStep) :
    Yields (persistTxnMarkers step) sh ((), s.persistTxnMarkers step) := h ▸ rfl

theorem yields_persistPreparedTxns : Yields persistPreparedTxns sh ((), s.persistPreparedTxns) := h ▸ rfl

theorem yields_pushAbortedHull {written : List WrittenRange} :
    Yields (pushAbortedHull t pid written tp) sh ((), s.pushAbortedHull pid written tp) := h ▸ rfl

theorem yields_recordAbortedFromTxn :
    Yields (recordAbortedFromTxn t pid txn) sh ((), s.recordAbortedFromTxn pid txn) :=
  (yields_forEach h (fun _ h => yields_pushAbortedHull h) _).bind fun _ h₁ =>
    yields_persistTxnMarkers h₁ .markers

theorem yields_appendTxnControlMarkers {markerType : ControlMarkerType} :
    Yields (appendTxnControlMarkers pid epoch markerType txn) sh
      ((), s.appendTxnControlMarkers pid epoch markerType txn) :=
  yields_forEach h (fun _ h => yields_modifies h _) _

theorem yields_abortExpired :
    Yields (abortExpired t pid epoch txn) sh ((), s.abortExpired pid epoch txn) :=
  (yields_recordAbortedFromTxn h).bind fun _ h₁ =>
    (yields_appendTxnControlMarkers h₁).bind fun _ h₂ => yields_modifies h₂ _

end

/-- What was taken is aborted one by one, and the table is written if there was anything. -/
theorem yields_abortAll {take : Shared → List α × Shared} {abort : α → Program Unit}
    {persist : Program Unit} {f : State → α → State} {g : State → State} {expired : List α}
    (htake : Yields (.section_ .other take) sh (expired, s)) (hnone : expired = [] → s = sh.state)
    (habort : ∀ {sh s} e, sh.state = s → Yields (abort e) sh ((), f s e))
    (hpersist : ∀ {sh s}, sh.state = s → Yields persist sh ((), g s)) :
    Yields (do
      let expired ← .section_ .other take
      Prog.forEach abort expired
      if expired.isEmpty then pure () else persist) sh
      ((), if expired.isEmpty then sh.state else g (expired.foldl f s)) := by
  refine htake.bind fun sh₁ h₁ => (yields_forEach h₁ habort expired).bind fun sh₂ h₂ => ?_
  cases expired with
  | nil => exact yields_pure (h₂.trans (hnone rfl))
  | cons e rest => exact hpersist h₂

theorem yields_expireTimedOutOpenTxns :
    Yields (expireTimedOutOpenTxns t) sh ((), sh.state.expireTimedOutOpenTxns) := by
  have htake : Yields (.section_ .other (takeExpiredOpen t sh.state.nowMs)) sh
      (sh.state.expiredOpenTxns, { sh.state with openTxns := sh.state.unexpiredOpenTxns }) := rfl
  refine .read rfl (yields_abortAll htake (fun hnil => ?_) (fun _ h => yields_abortExpired h)
    fun h => yields_persistTxnMarkers h .markers)
  rw [State.unexpiredOpenTxns, hnil, foldl_nil]

theorem yields_expireTimedOutPreparedTxns (h : sh.state = s) :
    Yields (expireTimedOutPreparedTxns t) sh ((), s.expireTimedOutPreparedTxns) := by
  subst h
  have htake : Yields (.section_ .other (takeExpiredPrepared t sh.state.nowMs)) sh
      (sh.state.expiredPreparedTxns,
        { sh.state with preparedTxns := sh.state.unexpiredPreparedTxns }) := rfl
  refine .read rfl (yields_abortAll htake (fun hnil => ?_) (fun _ h => yields_abortExpired h)
    yields_persistPreparedTxns)
  rw [State.unexpiredPreparedTxns, hnil, foldl_nil]

theorem yields_expireTimedOutTxns :
    Yields (expireTimedOutTxns t) sh ((), sh.state.expireTimedOutTxns) :=
  yields_expireTimedOutOpenTxns.bind fun _ h => yields_expireTimedOutPreparedTxns h

theorem yields_appendBatch {serial : Nat} {result : Except Error (List Record)} {s' : State}
    (hstate : sh.state = s) (h : s.produce tp messages (.txn serial) .txnAppend = (result, s')) :
    Yields (.section_ (.append tp messages) (appendBatch t serial tp baseSequence messages)) sh
      (result.toOption.map fun records => (records.head?.map (·.offset)).getD 0, s') := by
  subst hstate
  cases result with
  | error e =>
    have hs : s' = sh.state := by
      unfold State.produce at h
      split at h
      · cases h
        rfl
      · split at h <;> cases h
        rfl
    simp [Yields, appendBatch, h, hs, Except.toOption]
  | ok records =>
    simp [Yields, appendBatch, h, Except.toOption]

theorem yields_writeThrough (h : sh.state = s) :
    Yields (writeThrough t pid txn.serial tp baseSequence messages) sh
      (s.writeThrough pid txn tp baseSequence messages) := by
  unfold State.writeThrough
  rcases hproduce : s.produce tp messages (.txn txn.serial) .txnAppend with ⟨result, s₁⟩
  refine (yields_appendBatch h hproduce).bind fun sh₁ h₁ => ?_
  cases result with
  | error e => exact yields_pure h₁
  | ok records =>
    dsimp only [Except.toOption, Option.map_some]
    cases hlookup : s₁.openTxns.lookup pid with
    | none =>
      refine .bind (a := false) (s := s₁) ?_ fun sh₂ h₂ => ?_
      · simp [Yields, register, h₁, hlookup]
      · subst h₂
        rfl
    | some txn' =>
      refine .bind (a := true) ?_ fun sh₂ h₂ =>
        (yields_persistTxnMarkers h₂ .markers).bind fun sh₃ h₃ => yields_pure h₃
      simp only [Yields, Prog.alone_section, register, h₁, hlookup]
      rfl

theorem yields_passSequence (h : sh.state = s) {count : Nat} :
    Yields (.section_ .other (passSequence t pid tp baseSequence count)) sh
      (checkTxnSequence pid tp baseSequence count s, s) := by
  subst h
  simp only [Yields, Prog.alone_section, passSequence]
  cases checkTxnSequence pid tp baseSequence count sh.state <;> rfl

/-- Alone, `buffer_txn_produce` is the sequential one. -/
theorem yields_bufferTxnProduce (pid epoch : Nat) (tp : TopicPartition) (baseSequence : Int)
    (messages : List Message) : Yields (bufferTxnProduce t pid epoch tp baseSequence messages) sh
      (sh.state.bufferTxnProduce pid epoch tp baseSequence messages) := by
  refine yields_expireTimedOutTxns.bind fun sh₁ h₁ => ?_
  unfold State.bufferTxnProduce
  generalize sh.state.expireTimedOutTxns = s at h₁ ⊢
  dsimp only
  split
  · exact yields_pure h₁
  refine .read h₁ ?_
  cases hcheck : s.checkTxnProducer pid epoch with
  | error code => exact yields_pure h₁
  | ok prod =>
    refine .read h₁ ?_
    dsimp only
    split
    · exact yields_pure h₁
    refine (yields_passSequence h₁).bind fun sh₂ h₂ => ?_
    unfold checkTxnSequence
    rw [(State.checkTxnProducer_ok hcheck).1]
    cases s.openTxns.lookup pid with
    | none => exact yields_pure h₂
    | some txn =>
      dsimp only [Option.bind_some]
      cases State.checkSequence ((txn.pending.lookup tp).or (prod.partitions.lookup tp))
          baseSequence (State.messageCount messages) with
      | accept o => exact yields_writeThrough h₂
      | duplicate o count => exact yields_pure h₂
      | reject code => exact yields_pure h₂

/-! ## Ending -/

theorem yields_recordIdempotentProduce (batch : WrittenRange) (h : sh.state = s) :
    Yields (recordIdempotentProduce pid epoch batch) sh ((), s.recordIdempotentProduce pid epoch
      batch.tp batch.baseSequence batch.count batch.firstOffset) := by
  unfold recordIdempotentProduce State.recordIdempotentProduce
  split
  · exact yields_pure h
  refine .bind (yields_runs h _) fun sh₁ h₁ => ?_
  cases hprod : s.producers.lookup pid with
  | none =>
    rw [hprod] at h₁
    exact yields_pure h₁
  | some prod =>
    simp only [hprod] at h₁ ⊢
    split at h₁
    next hepoch =>
      simp only [if_pos hepoch]
      exact yields_pure h₁
    next hepoch =>
      simp only [if_neg hepoch]
      exact yields_modifies h₁ _

variable {committed : Bool} {offsets : List DeferredOffset} {prod : Producer}

theorem yields_finalizeTxn (h : sh.state = s) : Yields (finalizeTxn t pid epoch committed txn offsets) sh
      (s.finalizeTxn pid epoch committed txn offsets) := by
  cases committed with
  | false =>
    refine (yields_recordAbortedFromTxn h).bind fun sh₁ h₁ => ?_
    refine (yields_appendTxnControlMarkers h₁).bind fun sh₂ h₂ => ?_
    exact yields_pure h₂
  | true =>
    refine (yields_forEach h yields_recordIdempotentProduce txn.written).bind fun sh₁ h₁ => ?_
    refine (yields_appendTxnControlMarkers h₁).bind fun sh₂ h₂ => ?_
    refine (yields_forEach h₂ (fun o h => yields_modifies h _)
      (txn.deferredOffsets ++ offsets)).bind fun sh₃ h₃ => ?_
    exact (yields_persistTxnMarkers h₃ .commitMarkers).bind fun sh₄ h₄ => yields_pure h₄

/-- The state up to the list of commits that have returned, which only the sequential
functions keep. -/
def EndsLike (x : Program (ErrorCode × List State.TxnCommitResult)) (sh : Shared)
    (result : ErrorCode × List State.TxnCommitResult × State) : Prop :=
  ∃ committed, Yields x sh ((result.1, result.2.1), { result.2.2 with committed })

theorem EndsLike.bind {x : Program α} {y : α → Program (ErrorCode × List State.TxnCommitResult)}
    {result : ErrorCode × List State.TxnCommitResult × State} (hx : Yields x sh (a, s))
    (hy : ∀ sh', sh'.state = s → EndsLike (y a) sh' result) : EndsLike (x >>= y) sh result := by
  obtain ⟨committed, h⟩ := hy (x.alone sh).2 (Prod.mk.inj hx).2
  refine ⟨committed, ?_⟩
  obtain ⟨rfl, -⟩ := Prod.mk.inj hx
  unfold Yields at h ⊢
  rwa [Prog.alone_bind]

variable {code : ErrorCode} {results : List State.TxnCommitResult}

theorem endsLike_pure (h : sh.state = s) : EndsLike (pure (code, results)) sh (code, results, s) :=
  ⟨s.committed, yields_pure h⟩

theorem endsLike_mark (h : sh.state = s) {serial : Nat} :
    EndsLike (pure (code, results)) sh (code, results, s.markCommitted committed serial) := by
  refine ⟨s.committed, yields_pure ?_⟩
  rw [h]
  cases committed <;> rfl

theorem endsLike_completeOpen (h : sh.state = s) :
    EndsLike (completeOpen t pid epoch committed offsets prod) sh
      (s.completeOpen pid epoch committed offsets prod) := by
  unfold State.completeOpen completeOpen
  generalize (prod.enable2pc && !prod.transactionalId.isEmpty) = twoPhase
  cases hlookup : s.openTxns.lookup pid with
  | none =>
    cases habortable : s.isTxnAbortable pid with
    | true =>
      refine .bind (a := Except.error .transactionAbortable) ?_ fun _ h₁ => endsLike_pure h₁
      simp [Yields, takeOpen, h, hlookup, habortable]
    | false =>
      refine .bind (a := Except.error .invalidTxnState) ?_ fun _ h₁ => endsLike_pure h₁
      simp [Yields, takeOpen, h, hlookup, habortable]
  | some txn =>
    have htake : Yields (.section_ .other (takeOpen t pid (committed && !twoPhase))) sh
        (.ok txn, { s with openTxns := s.openTxns.erase pid }) := by
      simp [Yields, takeOpen, h, hlookup]
    refine .bind htake fun sh₁ h₁ => ?_
    refine .bind (yields_modifies h₁ _) fun sh₂ h₂ => ?_
    cases twoPhase with
    | true =>
      refine .bind (yields_look h₂ (·.nowMs)) fun sh₃ h₃ => ?_
      refine .bind (a := ()) (s := { sh₃.state with
        preparedTxns := sh₃.state.preparedTxns.insert prod.transactionalId _ }) rfl fun sh₄ h₄ => ?_
      rw [h₃] at h₄
      refine .bind (yields_persistTxnMarkers h₄ .prepareMarkers) fun sh₅ h₅ => ?_
      exact .bind (yields_persistPreparedTxns h₅) fun sh₆ h₆ => endsLike_pure h₆
    | false =>
      refine .bind (yields_finalizeTxn h₂) fun sh₃ h₃ => ?_
      exact endsLike_mark h₃

/-- Alone, `end_txn` is the sequential one. -/
theorem endsLike_endTxn (pid epoch : Nat) (committed : Bool) (offsets : List DeferredOffset) :
    EndsLike (endTxn t pid epoch committed offsets) sh
      (sh.state.endTxn pid epoch committed offsets) := by
  refine .bind yields_expireTimedOutTxns fun sh₁ h₁ => ?_
  unfold State.endTxn
  generalize sh.state.expireTimedOutTxns = s at h₁ ⊢
  refine .bind (yields_look h₁ (·.producers.lookup pid)) fun sh₂ h₂ => ?_
  dsimp only
  cases s.producers.lookup pid with
  | none => exact endsLike_pure h₂
  | some prod =>
    dsimp only
    split
    · exact endsLike_pure h₂
    split
    · exact endsLike_completeOpen h₂
    cases hprep : s.preparedTxns.lookup prod.transactionalId with
    | none =>
      refine .bind (a := none) (s := s) ?_ fun sh₃ h₃ => endsLike_completeOpen h₃
      simp [Yields, takePrepared, h₂, hprep]
    | some prep =>
      dsimp only [State.completePrepared]
      split_ifs with hpid hepoch hcommit
      · refine .bind (a := some (Except.error .invalidTxnState)) ?_ fun _ h₃ => endsLike_pure h₃
        simp [Yields, takePrepared, h₂, hprep, hpid]
      · refine .bind (a := some (Except.error .invalidProducerEpoch)) ?_ fun _ h₃ =>
          endsLike_pure h₃
        simp [Yields, takePrepared, h₂, hprep, not_not.mp hpid, hepoch]
      · refine .bind (a := some (Except.error .invalidTxnState)) ?_ fun _ h₃ => endsLike_pure h₃
        simp [Yields, takePrepared, h₂, hprep, not_not.mp hepoch, hcommit]
      · have htake : Yields (.section_ .other
            (takePrepared t pid epoch committed prod.transactionalId)) sh₂ (some (.ok prep),
              { s with preparedTxns := s.preparedTxns.erase prod.transactionalId }) := by
          simp [Yields, takePrepared, h₂, hprep, not_not.mp hpid, not_not.mp hepoch,
            not_not.mp hcommit]
        refine .bind htake fun sh₃ h₃ => ?_
        refine .bind (yields_modifies h₃ _) fun sh₄ h₄ => ?_
        refine .bind (yields_finalizeTxn h₄) fun sh₅ h₅ => ?_
        refine .bind (yields_persistPreparedTxns h₅) fun sh₆ h₆ => ?_
        exact endsLike_mark h₆

/-! ## Fetching -/

theorem yields_filter {keep : Record → Program Bool} {f : Record → Bool} {records : List Record}
    (hkeep : ∀ sh, sh.state = s → ∀ r, Yields (keep r) sh (f r, s)) (hstate : sh.state = s) :
    Yields (Prog.filter keep records) sh (records.filter f, s) := by
  induction records generalizing sh with
  | nil => exact yields_pure hstate
  | cons r records ih =>
    refine .bind (hkeep sh hstate r) fun sh₁ h₁ => .bind (ih h₁) fun sh₂ h₂ => ?_
    rw [filter_cons]
    exact yields_pure h₂

theorem yields_lastStableOffset (read : List Nat) :
    Yields (lastStableOffset t tp read) sh (sh.state.lastStableOffset tp) := by
  refine yields_expireTimedOutTxns.bind fun sh₁ h₁ => .read h₁ ?_
  unfold State.lastStableOffset
  generalize sh.state.expireTimedOutTxns = s at h₁ ⊢
  refine Eq.trans ((yields_look h₁ fun s => heldBack tp (openRanges s) _).bind fun sh₂ h₂ =>
    yields_look h₂ fun s => heldBack tp (preparedRanges s) _) ?_
  simp [State.lsoAt, State.unstableRanges, heldBack, openRanges, preparedRanges]

theorem yields_readCommittedKeeps (lso : Nat) (hstate : sh.state = s) :
    Yields (readCommittedKeeps tp lso r) sh (s.readCommittedKeeps tp lso r, s) := by
  unfold readCommittedKeeps State.readCommittedKeeps
  split
  · exact yields_pure hstate
  split
  next hlt =>
    simp only [hlt, decide_true, Bool.true_and]
    exact .read hstate (yields_pure hstate)
  next hge =>
    simp only [hge, decide_false, Bool.false_and]
    exact yields_pure hstate

theorem yields_isUnstableOffset (offset : Nat) :
    Yields (isUnstableOffset t tp offset) sh
      (sh.state.expireTimedOutTxns.isUnstableOffset tp offset, sh.state.expireTimedOutTxns) := by
  refine yields_expireTimedOutTxns.bind fun sh₁ h₁ => ?_
  generalize sh.state.expireTimedOutTxns = s at h₁ ⊢
  refine (yields_look h₁ fun s => holdsOffset tp offset (openRanges s)).bind fun sh₂ h₂ => ?_
  have heither : s.isUnstableOffset tp offset = (holdsOffset tp offset (openRanges s) ||
      holdsOffset tp offset (preparedRanges s)) := by
    simp [State.isUnstableOffset, State.unstableRanges, holdsOffset, openRanges, preparedRanges]
  rw [heither]
  cases holdsOffset tp offset (openRanges s) with
  | true => exact yields_pure h₂
  | false => exact yields_look h₂ fun s => holdsOffset tp offset (preparedRanges s)

theorem yields_committedOnlyKeeps (hdata : isTxnControlRecord r = false) :
    Yields (committedOnlyKeeps t tp r) sh
      (sh.state.expireTimedOutTxns.committedOnlyKeeps tp r, sh.state.expireTimedOutTxns) := by
  simp only [committedOnlyKeeps, State.committedOnlyKeeps, hdata]
  refine (yields_isUnstableOffset r.offset).bind fun sh₁ h₁ => ?_
  cases sh.state.expireTimedOutTxns.isUnstableOffset tp r.offset with
  | true => exact yields_pure h₁
  | false => exact .read h₁ (yields_pure h₁)

/-- The native view expires what has timed out before each record that is no control marker. -/
theorem yields_filter_committedOnlyKeeps
    (hidem : sh.state.expireTimedOutTxns.expireTimedOutTxns = sh.state.expireTimedOutTxns)
    (records : List Record) :
    let s := if records.all isTxnControlRecord then sh.state else sh.state.expireTimedOutTxns
    Yields (Prog.filter (committedOnlyKeeps t tp) records) sh
      (records.filter (s.committedOnlyKeeps tp), s) := by
  intro s
  induction records generalizing sh with
  | nil => exact yields_pure rfl
  | cons r records ih =>
    cases hcontrol : isTxnControlRecord r with
    | true =>
      have hs : s = if records.all isTxnControlRecord then sh.state
          else sh.state.expireTimedOutTxns := by
        simp [s, hcontrol]
      have hkeep : Yields (committedOnlyKeeps t tp r) sh (s.committedOnlyKeeps tp r, sh.state) := by
        simp only [committedOnlyKeeps, State.committedOnlyKeeps, hcontrol]
        exact yields_pure rfl
      refine hkeep.bind fun sh₁ h₁ => ?_
      have hrest := ih (h₁ ▸ hidem)
      rw [h₁, ← hs] at hrest
      refine hrest.bind fun sh₂ h₂ => ?_
      rw [filter_cons]
      exact yields_pure h₂
    | false =>
      have hs : s = sh.state.expireTimedOutTxns := by simp [s, hcontrol]
      rw [hs]
      refine (yields_committedOnlyKeeps hcontrol).bind fun sh₁ h₁ => ?_
      have hrest := @ih sh₁ (by rw [h₁, hidem, hidem])
      rw [h₁, hidem, ite_self] at hrest
      refine hrest.bind fun sh₂ h₂ => ?_
      rw [filter_cons]
      exact yields_pure h₂

/-- Alone, `fetch_up_to` is the sequential one. -/
theorem yields_fetchUpTo (hkeys : sh.state.Keyed) (tp : TopicPartition) (start maxMessages : Nat)
    (isolation : State.FetchIsolation) : Yields (fetchUpTo t tp start maxMessages isolation) sh
      (sh.state.fetchUpTo tp start maxMessages isolation) := by
  refine .read rfl ?_
  unfold State.fetchUpTo
  cases sh.state.examined tp start maxMessages with
  | error e => exact yields_pure rfl
  | ok records =>
    cases isolation with
    | readUncommitted => exact yields_pure rfl
    | readCommitted =>
      refine (yields_lastStableOffset _).bind fun sh₁ h₁ => ?_
      exact .bind (yields_filter (fun sh hstate r => yields_readCommittedKeeps _ hstate) h₁)
        fun sh₂ h₂ => yields_pure h₂
    | committedOnly =>
      have hidem := State.expireTimedOutTxns_idem hkeys
      exact (yields_filter_committedOnlyKeeps hidem records).bind fun sh₁ h₁ => yields_pure h₁

theorem yields_fetchUpTo_earlier :
    let s := (State.fresh State.oneSecond).serve State.earlier
    Yields (fetchUpTo 0 State.orders 0 10 .committedOnly) ⟨s, ∅, fun _ => none, [], []⟩
      (s.fetchUpTo State.orders 0 10 .committedOnly) :=
  yields_fetchUpTo (by unfold State.Keyed; decide +kernel) _ _ _ _

end Program

end Volant.Broker
