-- SUMMARY: Aborting keeps the transaction invariant: hulls, the marker file, expiry of timed-out transactions.
import Volant.Broker.TxnInv

/-!
# Aborts

An abort pushes, for each partition, the hull of the transaction's ranges, and
writes the marker file. The hull covers the transaction, so nothing is left
unaccounted for; it is `CleanHull` that says that it covers nothing else that
counts.
-/

namespace Volant.Broker

open List

variable {tp : TopicPartition} {written : List WrittenRange} {o : Nat}

/-! ## Hulls -/

theorem mem_unseen {seen l : List TopicPartition} : tp ∈ unseen seen l ↔ tp ∈ l ∧ tp ∉ seen := by
  induction l generalizing seen with
  | nil => simp [unseen]
  | cons a l ih =>
    unfold unseen
    split
    next ha =>
      rw [ih, mem_cons]
      refine ⟨fun h => ⟨.inr h.1, h.2⟩, fun h => ⟨h.1.resolve_left ?_, h.2⟩⟩
      rintro rfl
      exact h.2 ha
    next ha =>
      rw [mem_cons, ih, mem_cons, mem_cons, not_or]
      constructor
      · rintro (rfl | ⟨hl, -, hs⟩)
        · exact ⟨.inl rfl, ha⟩
        · exact ⟨.inr hl, hs⟩
      · rintro ⟨rfl | hl, hs⟩
        · exact .inl rfl
        · exact or_iff_not_imp_left.mpr fun hne => ⟨hl, hne, hs⟩

/-- The offset lies in the hull of the ranges on its partition. -/
def InHull (written : List WrittenRange) (tp : TopicPartition) (o : Nat) : Prop :=
  ∃ first last, hullAt tp written = some (first, last) ∧ first ≤ o ∧ o < last

theorem InHull.of_covered (h : Covered written tp o) : InHull written tp o := by
  induction written with
  | nil => simp [Covered] at h
  | cons r rest ih =>
    rw [← singleton_append, covered_append, covered_singleton] at h
    unfold InHull
    unfold hullAt
    by_cases hr : r.tp = tp
    · rw [if_pos hr]
      cases hrest : hullAt tp rest with
      | none =>
        rcases h with h | h
        · exact ⟨_, _, rfl, h.2⟩
        · obtain ⟨_, _, hsome, _⟩ := ih h
          rw [hrest] at hsome
          cases hsome
      | some hull =>
        refine ⟨_, _, rfl, ?_⟩
        rcases h with h | h
        · exact ⟨(min_le_left _ _).trans h.2.1, h.2.2.trans_le (le_max_left _ _)⟩
        · obtain ⟨first, last, hsome, hle, hlt⟩ := ih h
          rw [hrest, Option.some.injEq] at hsome
          subst hsome
          exact ⟨(min_le_right _ _).trans hle, hlt.trans_le (le_max_right _ _)⟩
    · rw [if_neg hr]
      exact ih (h.resolve_left fun h => hr h.1)

theorem inHull_iff {hull : Nat × Nat} (h : hullAt tp written = some hull) :
    InHull written tp o ↔ hull.1 ≤ o ∧ o < hull.2 := by
  refine ⟨?_, fun hbounds => ⟨_, _, h, hbounds⟩⟩
  rintro ⟨_, _, hsome, hbounds⟩
  rw [h, Option.some.injEq] at hsome
  subst hsome
  exact hbounds

theorem InHull.mem_tps (h : InHull written tp o) : tp ∈ written.map (·.tp) := by
  obtain ⟨first, last, hsome, -⟩ := h
  induction written generalizing first last with
  | nil => simp [hullAt] at hsome
  | cons r rest ih =>
    rw [map_cons, mem_cons]
    by_cases hr : r.tp = tp
    · exact .inl hr.symm
    · rw [hullAt, if_neg hr] at hsome
      exact .inr (ih first last hsome)

namespace State

variable {exact steps : Prop} {lost : List OpenTxn} {s s' : State} {txn : OpenTxn}

/-- What is aborted with the transaction is its own, or of no account. -/
def CleanHull (s : State) (txn : OpenTxn) : Prop :=
  Exact s.origins (InHull txn.written) s.committed

theorem pushAbortedMarker_aborted (tp tp' : TopicPartition) (m : AbortedMarker) (o : Nat) :
    (s.pushAbortedMarker tp m).Aborted tp' o ↔
      s.Aborted tp' o ∨ (tp' = tp ∧ m.firstOffset ≤ o ∧ o < m.endOffset) := by
  rcases eq_or_ne tp' tp with rfl | hne
  · simp [Aborted, InMarkers, pushAbortedMarker]
  · simp [Aborted, pushAbortedMarker, hne]

section

variable (pid : Nat) (written : List WrittenRange)

theorem pushAbortedHull_aborted (tp tp' : TopicPartition)
    (o : Nat) : (s.pushAbortedHull pid written tp).Aborted tp' o ↔
      s.Aborted tp' o ∨ (tp' = tp ∧ InHull written tp' o) := by
  unfold pushAbortedHull
  split
  next hnone =>
    refine ⟨.inl, fun h => h.resolve_right ?_⟩
    rintro ⟨rfl, _, _, hsome, _⟩
    rw [hnone] at hsome
    cases hsome
  next first last hsome =>
    rw [pushAbortedMarker_aborted]
    refine or_congr_right (and_congr_right ?_)
    rintro rfl
    exact (inHull_iff hsome).symm

theorem pushAbortedHull_eq (s : State)
    (tp : TopicPartition) : ∃ abortedTxns, s.pushAbortedHull pid written tp =
      { s with abortedTxns } := by
  unfold pushAbortedHull
  split
  · exact ⟨s.abortedTxns, rfl⟩
  · exact ⟨_, rfl⟩

theorem foldl_pushAbortedHull (tps : List TopicPartition)
    (s : State) : ∃ abortedTxns, tps.foldl (pushAbortedHull pid written) s = { s with abortedTxns } ∧
      ∀ tp o, (tps.foldl (pushAbortedHull pid written) s).Aborted tp o ↔
        s.Aborted tp o ∨ (tp ∈ tps ∧ InHull written tp o) := by
  induction tps generalizing s with
  | nil => exact ⟨s.abortedTxns, rfl, by simp⟩
  | cons tp tps ih =>
    obtain ⟨abortedTxns, heq, haborted⟩ := ih (s.pushAbortedHull pid written tp)
    obtain ⟨_, hone⟩ := pushAbortedHull_eq pid written s tp
    refine ⟨abortedTxns, ?_, fun tp' o => (haborted tp' o).trans ?_⟩
    · rw [foldl_cons, heq, hone]
    · rw [pushAbortedHull_aborted, mem_cons, or_and_right, or_assoc]

end

/-- An abort adds the hulls, and changes nothing but the aborted ranges. -/
theorem pushAbortedHulls_spec (s : State) (pid : Nat) (written : List WrittenRange) :
    ∃ abortedTxns, s.pushAbortedHulls pid written = { s with abortedTxns } ∧
      ∀ tp o, (s.pushAbortedHulls pid written).Aborted tp o ↔
        s.Aborted tp o ∨ InHull written tp o := by
  obtain ⟨abortedTxns, heq, haborted⟩ :=
    foldl_pushAbortedHull pid written (unseen [] (written.map (·.tp))) s
  refine ⟨abortedTxns, heq, fun tp o => (haborted tp o).trans (or_congr_right ?_)⟩
  exact ⟨And.right, fun hin => ⟨mem_unseen.mpr ⟨hin.mem_tps, not_mem_nil⟩, hin⟩⟩

theorem MemoryOk.pushAbortedHulls (h : MemoryOk exact lost s) (pid : Nat) (txn : OpenTxn)
    (hclean : exact → s.CleanHull txn) :
    MemoryOk exact lost (s.pushAbortedHulls pid txn.written) := by
  obtain ⟨abortedTxns, heq, haborted⟩ := pushAbortedHulls_spec s pid txn.written
  rw [heq] at haborted ⊢
  refine ⟨h.logs, h.settled, ?_, h.keys⟩
  refine @Ledger.abort exact _ _ _ _ _ _ [] h.ledger (fun tp o ha => (haborted tp o).mpr (.inl ha))
    (fun t ht => absurd ht not_mem_nil) ?_
  intro hex tp o ha
  exact ((haborted tp o).mp ha).elim (h.ledger.exact hex tp o) (hclean hex tp o)

/-! ## The marker file -/

theorem fresh_persistTxnMarkers (s : State) (step : DurableStep) :
    (s.persistTxnMarkers step).Fresh := by
  intro tp o
  simp only [Hides, persistTxnMarkers, durable, Option.some.injEq, exists_eq_left', Aborted,
    InMarkers, promotedMarkers, markersSnapshot, mem_append, or_and_right, exists_or,
    Assoc.values, Covered]
  refine or_congr_right ⟨?_, ?_⟩
  · rintro ⟨m, hm, hbounds⟩
    simp only [mem_map, mem_filter, mem_flatMap, decide_eq_true_eq] at hm
    obtain ⟨_, ⟨⟨e, he, r, hr, rfl⟩, htp⟩, rfl⟩ := hm
    exact ⟨e.2, mem_map_of_mem he, r, hr, htp, hbounds⟩
  · rintro ⟨t, ht, r, hr, htp, hbounds⟩
    obtain ⟨e, he, rfl⟩ := mem_map.mp ht
    refine ⟨{ producerId := e.1, firstOffset := r.firstOffset, endOffset := r.endOffset }, ?_,
      hbounds⟩
    simp only [mem_map, mem_filter, mem_flatMap, decide_eq_true_eq]
    exact ⟨_, ⟨⟨e, he, r, hr, rfl⟩, htp⟩, rfl⟩

/-- Writing the marker file, with the transactions in `lostPrepared` still on the prepared file. -/
theorem Mid.persistTxnMarkers (h : MemoryOk exact lost s) (lostPrepared : List PreparedTxn)
    (hlost : steps → lost = lostPrepared.map (·.body))
    (hprepared : steps → s.PreparedSynced lostPrepared)
    (hids : steps → ((s.preparedFile.getD []).map (·.transactionalId)).Nodup)
    (htrace : steps → TraceOk exact s) (step : DurableStep) :
    Mid exact steps lost (s.persistTxnMarkers step) := by
  have hmem : MemoryOk exact lost (s.persistTxnMarkers step) := ⟨h.logs, h.settled, h.ledger, h.keys⟩
  have hdisk : steps → DiskOk exact s.nextSerial s.committed (s.persistTxnMarkers step).disk :=
    fun hsteps => diskOk_of_fresh lostPrepared (hlost hsteps ▸ hmem)
      (fresh_persistTxnMarkers s step) (hprepared hsteps) (hids hsteps)
  exact ⟨hmem, hdisk, fun hsteps => (htrace hsteps).snoc rfl rfl rfl fun _ _ => hdisk hsteps⟩

/-- Writing the marker file once memory accounts for everything. -/
theorem Inv.persistTxnMarkers (h : MemoryOk exact [] s) (hprepared : s.PreparedSynced [])
    (htrace : steps → TraceOk exact s) (step : DurableStep) :
    Inv exact (s.persistTxnMarkers step) ∧ (steps → TraceOk exact (s.persistTxnMarkers step)) := by
  have hmid := Mid.persistTxnMarkers h [] (fun _ => rfl) (fun _ => hprepared)
    (fun _ => hprepared.nodup_ids h.keys) htrace step
  exact ⟨⟨hmid.mem, fresh_persistTxnMarkers s step, hprepared⟩, hmid.trace⟩

/-! ## Recording an abort -/

/-- More may be aborted and written. -/
structure Later (s s' : State) : Prop where
  config : s'.config = s.config
  nowMs : s'.nowMs = s.nowMs
  nextSerial : s'.nextSerial = s.nextSerial
  committed : s'.committed = s.committed
  origins : ∀ tp, s.origins tp <+: s'.origins tp
  aborted : ∀ tp o, s.Aborted tp o → s'.Aborted tp o

theorem Later.refl (s : State) : Later s s :=
  ⟨rfl, rfl, rfl, rfl, fun _ => prefix_rfl, fun _ _ ha => ha⟩

theorem Later.trans {s'' : State} (h : Later s s') (h' : Later s' s'') : Later s s'' :=
  ⟨h'.1.trans h.1, h'.2.trans h.2, h'.3.trans h.3, h'.4.trans h.4,
    fun tp => (h.5 tp).trans (h'.5 tp), fun tp o ha => h'.6 tp o (h.6 tp o ha)⟩

/-- More may be aborted and written; the transactions are the same. -/
structure Grows (s s' : State) : Prop extends Later s s' where
  openTxns : s'.openTxns = s.openTxns
  preparedTxns : s'.preparedTxns = s.preparedTxns
  preparedFile : s'.preparedFile = s.preparedFile

theorem Keeps.grows (h : Keeps s s') : Grows s s' :=
  ⟨⟨h.config, h.nowMs, h.nextSerial, h.committed, h.origins,
    fun tp o ha => by rw [h.aborted]; exact ha⟩, h.openTxns, h.preparedTxns, h.preparedFile⟩

theorem Grows.refl (s : State) : Grows s s := (Keeps.refl s).grows

theorem Grows.trans {s'' : State} (h : Grows s s') (h' : Grows s' s'') : Grows s s'' :=
  ⟨h.toLater.trans h'.toLater, h'.2.trans h.2, h'.3.trans h.3, h'.4.trans h.4⟩

theorem Grows.preparedSynced (h : Grows s s') {lostPrepared : List PreparedTxn}
    (hprepared : s.PreparedSynced lostPrepared) : s'.PreparedSynced lostPrepared := by
  unfold PreparedSynced
  rw [h.preparedFile, h.preparedTxns]
  exact hprepared

theorem CleanHull.grow (h : s.CleanHull txn) (hg : Later s s') : s'.CleanHull txn := by
  intro tp o hin
  obtain ⟨g, hget, hdisc⟩ := h tp o hin
  rw [hg.committed]
  refine ⟨g, ?_, hdisc⟩
  obtain ⟨rest, hrest⟩ := hg.origins tp
  rw [← hrest, getElem?_append_left (List.getElem?_eq_some_iff.mp hget).1]
  exact hget

section

variable (done : List OpenTxn) (h : Mid exact steps (done ++ lost) s) (hdone : ∀ t ∈ done, t = txn)
  (lostPrepared : List PreparedTxn) (hlost : steps → lost = lostPrepared.map (·.body))
  (hprepared : steps → s.PreparedSynced lostPrepared) (hclean : exact → s.CleanHull txn) (pid : Nat)

include h hdone hlost hprepared hclean

/-- Recording the abort of a transaction. Afterwards those in `done` are lost no more. -/
theorem Mid.recordAbortedFromTxn :
    let s' := s.recordAbortedFromTxn pid txn
    Mid exact steps lost s' ∧ Grows s s' ∧ s'.Fresh ∧
      ∀ tp o, Covered txn.written tp o → s'.Aborted tp o := by
  obtain ⟨abortedTxns, heq, haborted⟩ := pushAbortedHulls_spec s pid txn.written
  have hcovered : ∀ tp o, Covered txn.written tp o →
      (s.pushAbortedHulls pid txn.written).Aborted tp o :=
    fun tp o hc => (haborted tp o).mpr (.inr (.of_covered hc))
  have hmem : MemoryOk exact lost (s.pushAbortedHulls pid txn.written) := by
    refine (h.mem.pushAbortedHulls pid txn hclean).recorded done fun t ht => ?_
    rw [hdone t ht]
    exact hcovered
  have hgrows : Grows s (s.recordAbortedFromTxn pid txn) := by
    unfold State.recordAbortedFromTxn
    refine ⟨⟨?_, ?_, ?_, ?_, ?_, fun tp o ha => (haborted tp o).mpr (.inl ha)⟩, ?_, ?_, ?_⟩ <;>
      simp [heq, State.persistTxnMarkers, durable]
  refine ⟨?_, hgrows, fresh_persistTxnMarkers _ _, hcovered⟩
  refine .persistTxnMarkers hmem lostPrepared hlost ?_ ?_ ?_ .markers
  · rw [heq]
    exact hprepared
  · rw [heq]
    exact fun hsteps => (h.disk hsteps).ids
  · rw [heq]
    exact h.trace

theorem Mid.abortExpired (epoch : Nat) :
    let s' := s.abortExpired pid epoch txn
    Mid exact steps lost s' ∧ Grows s s' ∧ s'.Fresh ∧
      ∀ tp o, Covered txn.written tp o → s'.Aborted tp o := by
  obtain ⟨hmid, hgrows, hfresh, hcovered⟩ :=
    Mid.recordAbortedFromTxn done h hdone lostPrepared hlost hprepared hclean pid
  obtain ⟨hmid', hkeeps⟩ := hmid.appendTxnControlMarkers pid epoch .abort txn
  have hmark : Keeps (s.recordAbortedFromTxn pid txn) (s.abortExpired pid epoch txn) :=
    hkeeps.trans (.others _)
  refine ⟨hmid'.keep (.others _) (.inl rfl) rfl rfl, hgrows.trans hmark.grows,
    hmark.fresh hfresh, fun tp o hc => ?_⟩
  exact hmark.grows.aborted tp o (hcovered tp o hc)

end

/-! ## Expiry -/

/-- The first marker file of the loop leaves the later transactions out, so the trace is accounted
for if there is only one. -/
theorem Mid.abortExpiredOpen (expired : List (Nat × Nat × OpenTxn))
    (h : Mid exact steps (expired.map (·.2.2)) s) (hone : steps → expired.length ≤ 1)
    (hprepared : steps → s.PreparedSynced []) (hclean : exact → ∀ e ∈ expired, s.CleanHull e.2.2) :
    Mid exact steps [] (expired.foldl (fun s e => s.abortExpired e.1 e.2.1 e.2.2) s) ∧
      Grows s (expired.foldl (fun s e => s.abortExpired e.1 e.2.1 e.2.2) s) := by
  induction expired generalizing s with
  | nil => exact ⟨h, .refl s⟩
  | cons e expired ih =>
    have hnil : steps → expired = [] := fun hsteps =>
      length_eq_zero_iff.mp (Nat.le_zero.mp (Nat.le_of_succ_le_succ (hone hsteps)))
    obtain ⟨hmid, hgrows, -, -⟩ := Mid.abortExpired [e.2.2] h
      (fun t ht => mem_singleton.mp ht) []
      (fun hsteps => by rw [hnil hsteps]; rfl) hprepared
      (fun hex => hclean hex e mem_cons_self) e.1 e.2.1
    obtain ⟨hmid', hgrows'⟩ := ih hmid (fun hsteps => by simp [hnil hsteps])
      (fun hsteps => hgrows.preparedSynced (hprepared hsteps))
      (fun hex e' he' => (hclean hex e' (mem_cons_of_mem _ he')).grow hgrows.toLater)
    exact ⟨hmid', hgrows.trans hgrows'⟩

/-- The prepared file still lists them all. -/
theorem Mid.abortExpiredPrepared (lostPrepared expired : List PreparedTxn)
    (h : Mid exact steps (lostPrepared.map (·.body)) s)
    (hprepared : steps → s.PreparedSynced lostPrepared) (hfresh : s.Fresh)
    (hclean : exact → ∀ p ∈ expired, s.CleanHull p.body) :
    let s' := expired.foldl (fun s p => s.abortExpired p.producerId p.producerEpoch p.body) s
    Mid exact steps (lostPrepared.map (·.body)) s' ∧ Grows s s' ∧ s'.Fresh ∧
      ∀ p ∈ expired, ∀ tp o, Covered p.body.written tp o → s'.Aborted tp o := by
  induction expired generalizing s with
  | nil => exact ⟨h, .refl s, hfresh, fun p hp => absurd hp not_mem_nil⟩
  | cons p expired ih =>
    obtain ⟨hmid, hgrows, hfresh', hcovered⟩ := Mid.abortExpired [] h
      (fun t ht => absurd ht not_mem_nil) lostPrepared (fun _ => rfl) hprepared
      (fun hex => hclean hex p mem_cons_self) p.producerId p.producerEpoch
    obtain ⟨hmid', hgrows', hfresh'', hcovered'⟩ := ih hmid
      (fun hsteps => hgrows.preparedSynced (hprepared hsteps)) hfresh'
      (fun hex p' hp' => (hclean hex p' (mem_cons_of_mem _ hp')).grow hgrows.toLater)
    refine ⟨hmid', hgrows.trans hgrows', hfresh'', fun p' hp' tp o hc => ?_⟩
    rcases mem_cons.mp hp' with rfl | hin
    · exact hgrows'.aborted tp o (hcovered tp o hc)
    · exact hcovered' p' hin tp o hc

/-- Open transactions taken out of their map are lost. -/
theorem MemoryOk.takeOpen (h : MemoryOk exact [] s) {openTxns : AList fun _ : Nat => OpenTxn}
    (hperm : (Assoc.values s.openTxns).Perm (lost ++ Assoc.values openTxns)) :
    MemoryOk exact lost { s with openTxns } := by
  exact ⟨h.logs, h.settled, h.ledger.perm (live_takeOpen hperm).symm, h.keys⟩

/-- Prepared transactions taken out of their map are lost. -/
theorem MemoryOk.takePrepared (h : MemoryOk exact [] s)
    {preparedTxns : AList fun _ : String => PreparedTxn} (lostPrepared : List PreparedTxn)
    (hperm : (Assoc.values s.preparedTxns).Perm (lostPrepared ++ Assoc.values preparedTxns))
    (hsub : ∀ e ∈ preparedTxns.entries, e ∈ s.preparedTxns.entries) :
    MemoryOk exact (lostPrepared.map (·.body)) { s with preparedTxns } := by
  exact ⟨h.logs, h.settled, h.ledger.perm (live_takePrepared hperm).symm,
    fun e he => h.keys e (hsub e he)⟩

theorem values_perm_expiredOpenTxns (s : State) : (Assoc.values s.openTxns).Perm
    (s.expiredOpenTxns.map (·.2.2) ++ Assoc.values s.unexpiredOpenTxns) := by
  have h := Assoc.values_perm_foldl_erase
    (s.openTxns.entries.filter fun e => s.openTxnTimedOut e.1 e.2) s.openTxns
    (s.openTxns.nodupKeys.sublist filter_sublist) (fun e he => mem_of_mem_filter he)
  rw [unexpiredOpenTxns, expiredOpenTxns, foldl_map, map_map]
  exact h

theorem values_perm_expiredPreparedTxns
    (hkeys : ∀ e ∈ s.preparedTxns.entries, e.2.transactionalId = e.1) :
    (Assoc.values s.preparedTxns).Perm
      (s.expiredPreparedTxns ++ Assoc.values s.unexpiredPreparedTxns) := by
  have h := Assoc.values_perm_foldl_erase
    (s.preparedTxns.entries.filter fun e =>
      s.timedOut (s.clampTxnTimeoutMs s.config.preparedTxnTimeoutMs) e.2.preparedAtMs)
    s.preparedTxns (s.preparedTxns.nodupKeys.sublist filter_sublist)
    (fun e he => mem_of_mem_filter he)
  rw [unexpiredPreparedTxns, expiredPreparedTxns, foldl_map]
  rw [foldl_ext _ (fun prepared e => prepared.erase e.2.transactionalId) _
    fun _ e he => by rw [hkeys e (mem_of_mem_filter he)]] at h
  exact h

/-- Expiry of open transactions. -/
theorem Inv.expireTimedOutOpenTxns (h : Inv exact s) (htrace : steps → TraceOk exact s)
    (hclean : exact → ∀ e ∈ s.expiredOpenTxns, s.CleanHull e.2.2) :
    Inv exact s.expireTimedOutOpenTxns ∧
      (steps ∧ s.expiredOpenTxns.length ≤ 1 → TraceOk exact s.expireTimedOutOpenTxns) ∧
      Later s s.expireTimedOutOpenTxns ∧
      s.expireTimedOutOpenTxns.preparedTxns = s.preparedTxns := by
  unfold State.expireTimedOutOpenTxns
  simp only
  split
  · exact ⟨h, fun hsteps => htrace hsteps.1, .refl s, rfl⟩
  · have hmem := h.mem.takeOpen (values_perm_expiredOpenTxns s)
    have hstart : Mid exact (steps ∧ s.expiredOpenTxns.length ≤ 1) _ _ :=
      ⟨hmem, fun _ => h.diskOk, fun hsteps => htrace hsteps.1⟩
    obtain ⟨hmid, hgrows⟩ := Mid.abortExpiredOpen s.expiredOpenTxns hstart
      (fun hsteps => hsteps.2) (fun _ => h.prepared) hclean
    obtain ⟨hinv, htrace'⟩ := Inv.persistTxnMarkers hmid.mem (hgrows.preparedSynced h.prepared)
      hmid.trace .markers
    refine ⟨hinv, htrace', ?_, hgrows.preparedTxns⟩
    exact ⟨hgrows.config, hgrows.nowMs, hgrows.nextSerial, hgrows.committed, hgrows.origins,
      hgrows.aborted⟩

/-- Writing the prepared file once memory accounts for everything. -/
theorem Inv.persistPreparedTxns (hmem : MemoryOk exact [] s) (hfresh : s.Fresh)
    (htrace : steps → TraceOk exact s) :
    Inv exact s.persistPreparedTxns ∧ (steps → TraceOk exact s.persistPreparedTxns) := by
  have hinv : Inv exact s.persistPreparedTxns :=
    ⟨⟨hmem.logs, hmem.settled, hmem.ledger, hmem.keys⟩, hfresh, List.Perm.refl _⟩
  exact ⟨hinv, fun hsteps => (htrace hsteps).snoc rfl rfl rfl fun _ _ => hinv.diskOk⟩

/-- Expiry of prepared transactions. -/
theorem Inv.expireTimedOutPreparedTxns (h : Inv exact s) (htrace : steps → TraceOk exact s)
    (hclean : exact → ∀ p ∈ s.expiredPreparedTxns, s.CleanHull p.body) :
    Inv exact s.expireTimedOutPreparedTxns ∧ (steps → TraceOk exact s.expireTimedOutPreparedTxns) ∧
      Later s s.expireTimedOutPreparedTxns := by
  unfold State.expireTimedOutPreparedTxns
  simp only
  split
  · exact ⟨h, htrace, .refl s⟩
  · have hperm := values_perm_expiredPreparedTxns h.mem.keys
    have hmem := h.mem.takePrepared _ hperm fun e he => Assoc.mem_of_mem_foldl_erase _ _ _ he
    obtain ⟨hmid, hgrows, hfresh, hcovered⟩ := Mid.abortExpiredPrepared s.expiredPreparedTxns
      s.expiredPreparedTxns ⟨hmem, fun _ => h.diskOk, htrace⟩
      (fun _ => h.prepared.trans (hperm.map _)) h.fresh hclean
    rw [← append_nil (s.expiredPreparedTxns.map _)] at hmid
    have hmem' := hmid.mem.recorded _ fun t ht tp o hc => by
      obtain ⟨p, hp, rfl⟩ := mem_map.mp ht
      exact hcovered p hp tp o hc
    obtain ⟨hinv, htrace'⟩ := Inv.persistPreparedTxns hmem' hfresh hmid.trace
    exact ⟨hinv, htrace', hgrows.config, hgrows.nowMs, hgrows.nextSerial, hgrows.committed,
      hgrows.origins, hgrows.aborted⟩

/-- What expiry aborts on the way, at any operation, is clean. -/
def CleanExpiry (s : State) : Prop :=
  (∀ e ∈ s.expiredOpenTxns, s.CleanHull e.2.2) ∧ ∀ p ∈ s.expiredPreparedTxns, s.CleanHull p.body

theorem Inv.expireTimedOutTxns (h : Inv exact s) (htrace : steps → TraceOk exact s)
    (hclean : exact → s.CleanExpiry) : Inv exact s.expireTimedOutTxns ∧
      (steps ∧ s.expiredOpenTxns.length ≤ 1 → TraceOk exact s.expireTimedOutTxns) ∧
      Later s s.expireTimedOutTxns := by
  obtain ⟨hinv, htrace', hlater, hprep⟩ :=
    h.expireTimedOutOpenTxns htrace fun hex => (hclean hex).1
  have hsame : s.expireTimedOutOpenTxns.expiredPreparedTxns = s.expiredPreparedTxns := by
    simp [expiredPreparedTxns, timedOut, clampTxnTimeoutMs, hprep, hlater.config, hlater.nowMs]
  obtain ⟨hinv', htrace'', hlater'⟩ := hinv.expireTimedOutPreparedTxns htrace' fun hex p hp =>
    ((hclean hex).2 p (hsame ▸ hp)).grow hlater
  exact ⟨hinv', htrace'', hlater.trans hlater'⟩

end State

end Volant.Broker
