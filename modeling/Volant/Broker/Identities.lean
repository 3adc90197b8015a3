-- SUMMARY: The tables of producers and transactional ids agree, whatever the broker does.
import Volant.Broker.Moves

/-!
# The identity tables

A transactional id owns one producer id, whose epoch goes up each time the id
is initialised. Only InitProducerId touches these tables; they are written to
a file at once and read back by a restart.
-/

namespace Volant.Broker.State

open Function AList

variable {s s' : State} {id : String} {pid : Nat}

/-! ## The identity tables -/

/-- The tables of producers, transactional ids and prepared transactions name the same owners. -/
structure Identities (s : State) : Prop where
  owner : ∀ id pid, s.transactionalIds.lookup id = some pid →
    id ≠ "" ∧ ∃ epoch, s.identityOf pid = some (epoch, id)
  owned : ∀ pid epoch id, s.identityOf pid = some (epoch, id) → id ≠ "" →
    s.transactionalIds.lookup id = some pid
  below : ∀ pid i, s.identityOf pid = some i → pid < s.nextProducerId
  next_pos : 0 < s.nextProducerId
  keyed : s.Keyed
  prepared : ∀ e ∈ s.preparedTxns.entries, s.transactionalIds.lookup e.1 = some e.2.producerId
  preparedFile : ∀ p ∈ s.preparedFile.getD [],
    s.transactionalIds.lookup p.transactionalId = some p.producerId

/-- The producer file is up to date. -/
def Filed (s : State) : Prop := s.FileHolds s.producerFile

/-- The identity that a transactional id stands for. -/
def pairOf (s : State) (id : String) : Option (Nat × Nat) :=
  (s.transactionalIds.lookup id).bind fun pid => (s.identityOf pid).map fun i => (pid, i.1)

theorem Identities.keep (h : Identities s) (hk : KeepsIds s s') : Identities s' := by
  constructor
  · rw [hk.transactionalIds, hk.identities]
    exact h.owner
  · rw [hk.transactionalIds, hk.identities]
    exact h.owned
  · rw [hk.nextProducerId, hk.identities]
    exact h.below
  · rw [hk.nextProducerId]
    exact h.next_pos
  · exact fun e he => h.keyed e (hk.prepared e he)
  · rw [hk.transactionalIds]
    exact fun e he => h.prepared e (hk.prepared e he)
  · rw [hk.transactionalIds]
    intro p hp
    rcases hk.preparedFile p hp with hp | ⟨e, he, rfl⟩
    · exact h.preparedFile p hp
    · rw [h.keyed e he]
      exact h.prepared e he

theorem Filed.keep (h : Filed s) (hk : KeepsIds s s') : Filed s' := by
  rcases hk.file with heq | hholds
  · have hfile : s'.producerFile = s.producerFile := by rw [producerFile, heq, producerFile]
    unfold Filed
    rw [hfile]
    exact .congr h hk.identities hk.nextProducerId
  · exact hholds

theorem pairOf_keep (hk : KeepsIds s s') : s'.pairOf = s.pairOf := by
  unfold pairOf
  rw [hk.transactionalIds, hk.identities]

theorem Identities.pairOf_eq (h : Identities s) (hpid : s.transactionalIds.lookup id = some pid) :
    ∃ epoch, s.identityOf pid = some (epoch, id) ∧ s.pairOf id = some (pid, epoch) := by
  obtain ⟨-, epoch, hident⟩ := h.owner id pid hpid
  exact ⟨epoch, hident, by simp [pairOf, hpid, hident]⟩

theorem identityOf_insert {producer : Producer} (h : s'.producers = s.producers.insert pid producer)
    : s'.identityOf = update s.identityOf pid (some producer.identity) := by
  funext pid'
  unfold identityOf
  rw [h]
  rcases eq_or_ne pid' pid with rfl | hne
  · simp
  · simp [hne]

/-- A transactional id, or none, gets a producer id that no other transactional id has. -/
theorem Identities.assign (h : Identities s) {producer : Producer} {nextProducerId : Nat}
    {transactionalIds : AList fun _ : String => Nat} (hid : producer.transactionalId = id)
    (hmine : ∀ pid', s.transactionalIds.lookup id = some pid' → pid' = pid)
    (hfree : ∀ id', s.transactionalIds.lookup id' = some pid → id' = id)
    (htxn : ∀ id', transactionalIds.lookup id' =
      if id' = id ∧ id ≠ "" then some pid else s.transactionalIds.lookup id')
    (hbelow : pid < nextProducerId) (hnext : s.nextProducerId ≤ nextProducerId)
    (hk : KeepsIds { s with
      producers := s.producers.insert pid producer, transactionalIds, nextProducerId } s') :
    Identities s' ∧ (id ≠ "" → s'.pairOf id = some (pid, producer.epoch)) ∧
      ∀ id' ≠ id, s'.pairOf id' = s.pairOf id' := by
  let s₁ : State := { s with
    producers := s.producers.insert pid producer, transactionalIds, nextProducerId }
  have hids : s₁.identityOf = update s.identityOf pid (some (producer.epoch, id)) :=
    hid ▸ identityOf_insert rfl
  have htxn : ∀ id', s₁.transactionalIds.lookup id' = _ := htxn
  have hkept : ∀ id' pid', s.transactionalIds.lookup id' = some pid' →
      s₁.transactionalIds.lookup id' = some pid' := by
    intro id' pid' hlookup
    rw [htxn]
    split_ifs with hnew
    · obtain ⟨rfl, -⟩ := hnew
      rw [hmine pid' hlookup]
    · exact hlookup
  have hids₁ : Identities s₁ := by
    refine ⟨fun id' pid' hlookup => ?_, fun pid' e id' hident hid' => ?_, fun pid' i hident => ?_,
      hbelow.pos, h.keyed, fun e he => hkept _ _ (h.prepared e he),
      fun p hp => hkept _ _ (h.preparedFile p hp)⟩
    · rw [htxn] at hlookup
      rw [hids]
      split_ifs at hlookup with hnew
      · obtain ⟨rfl, hne⟩ := hnew
        obtain rfl := Option.some.inj hlookup
        exact ⟨hne, producer.epoch, update_self ..⟩
      · obtain ⟨hne, e, he⟩ := h.owner id' pid' hlookup
        have hpid' : pid' ≠ pid := by
          rintro rfl
          obtain rfl := hfree id' hlookup
          exact hnew ⟨rfl, hne⟩
        exact ⟨hne, e, (update_of_ne hpid' ..).trans he⟩
    · rw [hids] at hident
      rcases Assoc.of_update hident with ⟨rfl, ⟨⟩⟩ | ⟨-, hident⟩
      · rw [htxn, if_pos ⟨rfl, hid'⟩]
      · exact hkept _ _ (h.owned pid' e id' hident hid')
    · rw [hids] at hident
      rcases Assoc.of_update hident with ⟨rfl, -⟩ | ⟨-, hident⟩
      · exact hbelow
      · exact (h.below pid' i hident).trans_le hnext
  refine ⟨hids₁.keep hk, fun hne => ?_, fun id' hid' => ?_⟩
  · rw [pairOf_keep hk]
    change s₁.pairOf id = _
    simp [pairOf, htxn, hids, hne]
  · rw [pairOf_keep hk]
    unfold pairOf
    rw [htxn, if_neg fun hnew => hid' hnew.1, hids]
    cases hlookup : s.transactionalIds.lookup id' with
    | none => rfl
    | some pid' =>
      have hpid' : pid' ≠ pid := fun heq => hid' (hfree id' (heq ▸ hlookup))
      simp [hpid']

/-- Fencing the owner of a transactional id. -/
theorem Identities.fenceProducer (h : Identities s) (hpid : s.transactionalIds.lookup id = some pid)
    (producer : Producer) (hid : producer.transactionalId = id)
    (transactionalIds : AList fun _ : String => Nat)
    (htxn : ∀ id', transactionalIds.lookup id' = s.transactionalIds.lookup id') (epoch : Nat) :
    let s' := (({ s with producers := s.producers.insert pid producer, transactionalIds }.fenceOpenTxn
      pid epoch).clearTxnAbortable pid).persistProducerState
    Identities s' ∧ Filed s' ∧ s'.pairOf id = some (pid, producer.epoch) ∧
      ∀ id' ≠ id, s'.pairOf id' = s.pairOf id' := by
  obtain ⟨hne, old, hold⟩ := h.owner id pid hpid
  have hfree : ∀ id', s.transactionalIds.lookup id' = some pid → id' = id := by
    intro id' hid'
    obtain ⟨-, e, he⟩ := h.owner id' pid hid'
    rw [hold] at he
    exact (Prod.mk.inj (Option.some.inj he)).2.symm
  have htxn' : ∀ id', transactionalIds.lookup id' =
      if id' = id ∧ id ≠ "" then some pid else s.transactionalIds.lookup id' := by
    intro id'
    rw [htxn]
    split_ifs with hid'
    · rw [hid'.1, hpid]
    · rfl
  obtain ⟨hids, hpair, hothers⟩ := h.assign hid
    (fun pid' hpid' => Option.some.inj (hpid'.symm.trans hpid)) hfree htxn' (h.below pid _ hold)
    le_rfl (@moves_fence False [] _ pid epoch).keepsIds
  exact ⟨hids, ⟨rfl, fun _ => rfl⟩, hpair hne, hothers⟩

/-- A new producer id, for a transactional id that has none or for no transactional id. -/
theorem Identities.allocate (h : Identities s) (hnext : s.nextProducerId + 1 < 2 ^ 64)
    (hnone : s.transactionalIds.lookup id = none) (producer : Producer)
    (hid : producer.transactionalId = id) (transactionalIds : AList fun _ : String => Nat)
    (htxn : ∀ id', transactionalIds.lookup id' =
      if id' = id ∧ id ≠ "" then some s.nextProducerId else s.transactionalIds.lookup id') :
    let s' := { (s.allocateProducer producer).2 with transactionalIds }.persistProducerState
    Identities s' ∧ Filed s' ∧ (id ≠ "" → s'.pairOf id = some (s.nextProducerId, producer.epoch)) ∧
      ∀ id' ≠ id, s'.pairOf id' = s.pairOf id' := by
  have hlt : s.nextProducerId < (s.nextProducerId + 1) % 2 ^ 64 := by
    rw [Nat.mod_eq_of_lt hnext]
    exact Nat.lt_succ_self _
  have hfree : ∀ id', s.transactionalIds.lookup id' = some s.nextProducerId → id' = id := by
    intro id' hid'
    obtain ⟨-, e, he⟩ := h.owner id' _ hid'
    exact absurd (h.below _ _ he) (lt_irrefl _)
  obtain ⟨hids, hpair, hothers⟩ := h.assign hid
    (fun pid' hpid' => by rw [hnone] at hpid'; cases hpid') hfree htxn hlt hlt.le
    (keepsIds_persistProducerState _)
  exact ⟨hids, ⟨rfl, fun _ => rfl⟩, hpair, hothers⟩

/-- What an InitProducerId does to the identities: it hands out the pair of its id, which has the
next epoch if there was one. -/
structure HandsOut (id : String) (s : State) (r : InitProducerIdResult) (s' : State) : Prop where
  ok : r.errorCode = .ok
  pair : s'.pairOf id = some (r.producerId, r.epoch)
  bumped : ∀ pid epoch, s.pairOf id = some (pid, epoch) →
    r.producerId = pid ∧ r.epoch = bumpEpoch epoch

theorem Identities.fenceOrAllocate (h : Identities s) (hnext : s.nextProducerId + 1 < 2 ^ 64)
    (hne : id ≠ "") (enable2pc : Bool) (clientTimeout : Nat) :
    let r := s.fenceOrAllocate id enable2pc clientTimeout
    Identities r.2 ∧ Filed r.2 ∧ HandsOut id s r.1 r.2 ∧
      ∀ id' ≠ id, r.2.pairOf id' = s.pairOf id' := by
  intro r
  cases hpid : s.transactionalIds.lookup id with
  | some pid =>
    obtain ⟨epoch, hident, hpair⟩ := h.pairOf_eq hpid
    obtain ⟨prod, hprod, heq⟩ := Option.map_eq_some_iff.mp hident
    have hr : r = s.fenceOrAllocate id enable2pc clientTimeout := rfl
    simp only [State.fenceOrAllocate, hpid, hprod, Option.bind_some, Option.map_some] at hr
    rw [hr]
    obtain ⟨hids, hfiled, hpair', hothers⟩ := h.fenceProducer hpid { prod with
      epoch := bumpEpoch prod.epoch, partitions := ∅, transactional := true, transactionalId := id
      enable2pc := enable2pc || prod.enable2pc, transactionTimeoutMs := clientTimeout } rfl
      s.transactionalIds (fun _ => rfl) prod.epoch
    refine ⟨hids, hfiled, ⟨rfl, hpair', fun pid' epoch' hold => ?_⟩, hothers⟩
    rw [hpair] at hold
    cases hold
    exact ⟨rfl, congrArg bumpEpoch (congrArg Prod.fst heq)⟩
  | none =>
    have hr : r = s.fenceOrAllocate id enable2pc clientTimeout := rfl
    simp only [State.fenceOrAllocate, hpid, Option.bind_none, allocateProducer] at hr
    rw [hr]
    have htxn : ∀ id', (s.transactionalIds.insert id s.nextProducerId).lookup id' =
        if id' = id ∧ id ≠ "" then some s.nextProducerId else s.transactionalIds.lookup id' := by
      intro id'
      rcases eq_or_ne id' id with rfl | hid'
      · simp [hne]
      · simp [hid']
    obtain ⟨hids, hfiled, hpair, hothers⟩ := h.allocate hnext hpid
      { epoch := 0, transactional := true, transactionalId := id, enable2pc,
        transactionTimeoutMs := clientTimeout, partitions := ∅ } rfl _ htxn
    refine ⟨hids, hfiled, ⟨rfl, hpair hne, fun pid epoch hold => ?_⟩, hothers⟩
    simp [pairOf, hpid] at hold

/-- The exits of InitProducerId, after expiry. -/
theorem initProducerIdWithOpts_cases (s : State) (id : String) (enable2pc keepPrepared : Bool)
    (timeoutMs : Int) :
    let r := s.initProducerIdWithOpts id enable2pc keepPrepared timeoutMs
    let s₁ := s.expireTimedOutTxns
    (r.1.errorCode = .invalidTransactionTimeout ∧ r.2 = s₁) ∨
      (id = "" ∧ r.1.errorCode = .ok ∧ r.1.producerId = s₁.nextProducerId ∧
        r.2 = (s₁.allocateProducer ⟨0, false, "", false, timeoutMs.toNat, ∅⟩).2.persistProducerState) ∨
      (id ≠ "" ∧ keepPrepared = true ∧ ∃ prep, s₁.preparedTxns.lookup id = some prep ∧
        r = s₁.keepPreparedTxn id enable2pc timeoutMs.toNat prep) ∨
      (id ≠ "" ∧ keepPrepared = true ∧ r = s₁.fenceOrAllocate id enable2pc timeoutMs.toNat) ∨
      (id ≠ "" ∧ keepPrepared = false ∧
        r = (s₁.dropPreparedTxn id).fenceOrAllocate id enable2pc timeoutMs.toNat) := by
  intro r s₁
  have hr : r = s.initProducerIdWithOpts id enable2pc keepPrepared timeoutMs := rfl
  have hne : ¬ id.isEmpty = true → id ≠ "" := by
    rintro hempty rfl
    exact hempty rfl
  unfold initProducerIdWithOpts at hr
  simp only at hr
  split_ifs at hr with htimeout hempty hkeep
  · exact .inl (by rw [hr]; exact ⟨rfl, rfl⟩)
  · exact .inr (.inl ⟨String.isEmpty_iff.mp hempty, by rw [hr], by rw [hr]; rfl, by rw [hr]⟩)
  · split at hr
    next prep hprep => exact .inr (.inr (.inl ⟨hne hempty, hkeep, prep, hprep, hr⟩))
    next => exact .inr (.inr (.inr (.inl ⟨hne hempty, hkeep, hr⟩)))
  · exact .inr (.inr (.inr (.inr ⟨hne hempty, Bool.not_eq_true _ ▸ hkeep, hr⟩)))

/-- KeepPreparedTxn gives the owner the epoch of its prepared transaction. -/
theorem Identities.keepPreparedTxn (h : Identities s) {prep : PreparedTxn}
    (hprep : s.preparedTxns.lookup id = some prep) (enable2pc : Bool) (clientTimeout : Nat) :
    let r := s.keepPreparedTxn id enable2pc clientTimeout prep
    Identities r.2 ∧ Filed r.2 ∧ ∀ id' ≠ id, r.2.pairOf id' = s.pairOf id' := by
  intro r
  have hpid : s.transactionalIds.lookup id = some prep.producerId :=
    h.prepared ⟨id, prep⟩ (mem_lookup_iff.mp hprep)
  have htxn : ∀ id', (s.transactionalIds.insert id prep.producerId).lookup id' =
      s.transactionalIds.lookup id' := by
    intro id'
    rcases eq_or_ne id' id with rfl | hid'
    · rw [lookup_insert, hpid]
    · exact lookup_insert_ne hid'
  obtain ⟨epoch, hident, -⟩ := h.pairOf_eq hpid
  obtain ⟨prod, hprod, -⟩ := Option.map_eq_some_iff.mp hident
  have hr : r = s.keepPreparedTxn id enable2pc clientTimeout prep := rfl
  simp only [State.keepPreparedTxn, hprod] at hr
  rw [hr]
  obtain ⟨hids, hfiled, -, hothers⟩ := h.fenceProducer hpid { prod with
    transactional := true, transactionalId := id, epoch := prep.producerEpoch
    enable2pc := enable2pc || prod.enable2pc, transactionTimeoutMs := clientTimeout } rfl
    (s.transactionalIds.insert id prep.producerId) htxn prep.producerEpoch
  exact ⟨hids, hfiled, hothers⟩

theorem Identities.initProducerIdWithOpts (h : Identities s) (hfiled : Filed s)
    (hnext : s.nextProducerId + 1 < 2 ^ 64) (id : String) (enable2pc keepPrepared : Bool)
    (timeoutMs : Int) :
    let r := s.initProducerIdWithOpts id enable2pc keepPrepared timeoutMs
    Identities r.2 ∧ Filed r.2 ∧ (∀ id' ≠ id, r.2.pairOf id' = s.pairOf id') ∧
      (id ≠ "" → keepPrepared = false →
        (r.1.errorCode ≠ .ok ∧ r.2.pairOf id = s.pairOf id) ∨ HandsOut id s r.1 r.2) := by
  have hexpire := keepsIds_expireTimedOutTxns s
  have h₁ := h.keep hexpire
  have hnext₁ := hexpire.nextProducerId ▸ hnext
  intro r
  rcases initProducerIdWithOpts_cases s id enable2pc keepPrepared timeoutMs with
    ⟨herror, hr⟩ | ⟨rfl, -, -, hr⟩ | ⟨hne, rfl, prep, hprep, hr⟩ | ⟨hne, rfl, hr⟩ | ⟨hne, rfl, hr⟩
  · have hpair : r.2.pairOf = s.pairOf := by rw [hr, pairOf_keep hexpire]
    refine ⟨hr ▸ h₁, hr ▸ hfiled.keep hexpire, fun id' _ => congrFun hpair id',
      fun _ _ => .inl ⟨?_, congrFun hpair id⟩⟩
    rw [herror]
    simp
  · have hnone : s.expireTimedOutTxns.transactionalIds.lookup "" = none :=
      Option.eq_none_iff_forall_ne_some.mpr fun pid hpid => (h₁.owner "" pid hpid).1 rfl
    obtain ⟨hids, hfiled', -, hothers⟩ := h₁.allocate hnext₁ hnone
      ⟨0, false, "", false, timeoutMs.toNat, ∅⟩ rfl _ fun id' => (if_neg fun h => h.2 rfl).symm
    rw [pairOf_keep hexpire] at hothers
    rw [hr]
    exact ⟨hids, hfiled', hothers, absurd rfl⟩
  · obtain ⟨hids, hfiled', hothers⟩ := h₁.keepPreparedTxn hprep enable2pc timeoutMs.toNat
    rw [pairOf_keep hexpire] at hothers
    rw [show r = _ from hr]
    exact ⟨hids, hfiled', hothers, nofun⟩
  · obtain ⟨hids, hfiled', -, hothers⟩ := h₁.fenceOrAllocate hnext₁ hne enable2pc timeoutMs.toNat
    rw [pairOf_keep hexpire] at hothers
    rw [show r = _ from hr]
    exact ⟨hids, hfiled', hothers, nofun⟩
  · have hdrop := hexpire.trans (@moves_dropPreparedTxn False [] s.expireTimedOutTxns id).keepsIds
    obtain ⟨hids, hfiled', hout, hothers⟩ := (h.keep hdrop).fenceOrAllocate
      (hdrop.nextProducerId ▸ hnext) hne enable2pc timeoutMs.toNat
    rw [pairOf_keep hdrop] at hothers
    rw [show r = _ from hr]
    refine ⟨hids, hfiled', hothers, fun _ _ => .inr ⟨hout.ok, hout.pair, fun pid epoch hold => ?_⟩⟩
    exact hout.bumped pid epoch (by rw [pairOf_keep hdrop]; exact hold)

/-! ## Ending a transaction, and restarting -/

/-- The tables agree again, and every id stands for the pair it stood for. -/
structure SameIds (s s' : State) : Prop where
  identities : Identities s'
  filed : Filed s'
  pairOf : s'.pairOf = s.pairOf

theorem KeepsIds.same (hk : KeepsIds s s') (h : Identities s) (hfiled : Filed s) : SameIds s s' :=
  ⟨h.keep hk, hfiled.keep hk, pairOf_keep hk⟩

theorem SameIds.keep {s'' : State} (h : SameIds s s') (hk : KeepsIds s' s'') : SameIds s s'' :=
  ⟨h.identities.keep hk, h.filed.keep hk, (pairOf_keep hk).trans h.pairOf⟩

theorem sameIds_prepareTxn (h : Identities s) (hfiled : Filed s)
    (hpid : s.transactionalIds.lookup id = some pid) (epoch : Nat) (committed : Bool)
    (txn : OpenTxn) : SameIds s (s.prepareTxn pid epoch committed id txn) := by
  let prep : PreparedTxn := ⟨id, pid, epoch, committed, s.nowMs, txn⟩
  have hsame : SameIds s { s with preparedTxns := s.preparedTxns.insert id prep } :=
    ⟨⟨h.owner, h.owned, h.below, h.next_pos, Assoc.forall_mem_insert rfl h.keyed,
      Assoc.forall_mem_insert hpid h.prepared, h.preparedFile⟩, hfiled, rfl⟩
  exact hsame.keep (.trans (.others _) (keepsIds_persistPreparedTxns _))

theorem sameIds_endTxn (h : Identities s) (hfiled : Filed s) (pid epoch : Nat) (committed : Bool)
    (offsets : List DeferredOffset) : SameIds s (s.endTxn pid epoch committed offsets).2.2 := by
  rcases endTxn_cases h.keyed pid epoch committed offsets with
    hkeep | ⟨s₁, prod, txn, hkeep, hprod, hne, heq⟩
  · exact hkeep.same h hfiled
  · have hsame := hkeep.same h hfiled
    have hpid : s₁.transactionalIds.lookup prod.transactionalId = some pid :=
      hsame.identities.owned pid prod.epoch _ (by rw [identityOf, hprod]; rfl) hne
    have hprepare := sameIds_prepareTxn hsame.identities hsame.filed hpid epoch committed txn
    rw [heq]
    exact ⟨hprepare.identities, hprepare.filed, hprepare.pairOf.trans hsame.pairOf⟩

section Restart

variable (config : Config) (nowMs : Int) (nextSerial : Nat) (committed : List Nat)

theorem identityOf_opened (pid : Nat) :
    (opened s.disk config nowMs nextSerial committed).identityOf pid =
      (s.producerFile.producers.lookup pid).map (·.identity) := by
  let entries := s.producerFile.producers.entries
  let val (e : Sigma fun _ : Nat => Producer) : Producer :=
    { e.2 with transactional := !e.2.transactionalId.isEmpty }
  show Option.map _ (lookup pid (entries.foldl
    (fun (m : AList fun _ : Nat => Producer) e => m.insert e.1 (val e)) ∅)) = _
  cases hlookup : s.producerFile.producers.lookup pid with
  | none =>
    have hne : ∀ e ∈ entries, e.1 ≠ pid := by
      rintro e he rfl
      exact lookup_eq_none.mp hlookup (List.mem_keys_of_mem he)
    rw [Assoc.lookup_foldl_insert_of_ne Sigma.fst val _ _ hne]
    rfl
  | some prod =>
    have hmem : (⟨pid, prod⟩ : Sigma fun _ : Nat => Producer) ∈ entries :=
      mem_lookup_iff.mp hlookup
    have hval : ∀ e ∈ entries, e.1 = pid → val e = val ⟨pid, prod⟩ := by
      rintro ⟨pid', prod'⟩ he rfl
      have hprod' := mem_lookup_iff.mpr he
      rw [hlookup] at hprod'
      cases hprod'
      rfl
    rw [Assoc.lookup_foldl_insert_of_mem Sigma.fst val ∅ hmem hval]
    rfl

/-- The producers of the file that have a transactional id. -/
def named (s : State) : List (Sigma fun _ : Nat => Producer) :=
  s.producerFile.producers.entries.filter fun e => !e.2.transactionalId.isEmpty

theorem mem_named {e : Sigma fun _ : Nat => Producer} : e ∈ s.named ↔
    s.producerFile.producers.lookup e.1 = some e.2 ∧ e.2.transactionalId ≠ "" := by
  rw [named, List.mem_filter, ← mem_lookup_iff]
  simp

theorem transactionalIds_opened_eq :
    (opened s.disk config nowMs nextSerial committed).transactionalIds =
      s.named.foldl (fun (m : AList fun _ : String => Nat) e =>
        m.insert e.2.transactionalId e.1) ∅ := by
  rw [named, List.foldl_filter]
  refine congrArg (fun f => List.foldl f ∅ s.producerFile.producers.entries) ?_
  funext m e
  cases e.2.transactionalId.isEmpty <;> rfl

/-- A transactional id goes to a producer of the file that names it. -/
theorem named_of_transactionalIds_opened {id : String} {pid : Nat}
    (h : (opened s.disk config nowMs nextSerial committed).transactionalIds.lookup id = some pid) :
    ∃ prod, s.producerFile.producers.lookup pid = some prod ∧ prod.transactionalId = id ∧
      id ≠ "" := by
  rw [transactionalIds_opened_eq] at h
  exact Assoc.forall_mem_foldl_insert (P := fun e => ∃ prod, s.producerFile.producers.lookup e.2 =
    some prod ∧ prod.transactionalId = e.1 ∧ e.1 ≠ "") _ _ (m := ∅) nofun
    (fun e he => ⟨e.2, (mem_named.mp he).1, rfl, (mem_named.mp he).2⟩) _ (mem_lookup_iff.mp h)

/-- Reading the file back gives every transactional id to its owner. -/
theorem transactionalIds_opened (h : Identities s) (hfiled : Filed s) (id : String) :
    (opened s.disk config nowMs nextSerial committed).transactionalIds.lookup id =
      s.transactionalIds.lookup id := by
  have howned {pid : Nat} {prod : Producer} (hne : prod.transactionalId ≠ "")
      (hprod : s.producerFile.producers.lookup pid = some prod) :
      s.transactionalIds.lookup prod.transactionalId = some pid := by
    refine h.owned pid prod.epoch _ ?_ hne
    rw [← hfiled.2 pid, hprod]
    rfl
  ext pid
  constructor
  · intro hopened
    obtain ⟨prod, hprod, rfl, hne⟩ := named_of_transactionalIds_opened _ _ _ _ hopened
    exact howned hne hprod
  · intro hlookup
    obtain ⟨hid, epoch, hident⟩ := h.owner id pid hlookup
    rw [← hfiled.2 pid] at hident
    obtain ⟨prod, hprod, heq⟩ := Option.map_eq_some_iff.mp hident
    obtain rfl : prod.transactionalId = id := congrArg Prod.snd heq
    rw [transactionalIds_opened_eq]
    let key (e : Sigma fun _ : Nat => Producer) : String := e.2.transactionalId
    refine Assoc.lookup_foldl_insert_of_mem key Sigma.fst ∅
      (mem_named.mpr ⟨hprod, hid⟩ : ⟨pid, prod⟩ ∈ s.named) fun e he hkey => ?_
    have hother := howned (mem_named.mp he).2 (mem_named.mp he).1
    rw [show e.2.transactionalId = prod.transactionalId from hkey, hlookup] at hother
    exact (Option.some.inj hother).symm

theorem nextProducerId_opened (hfile : s.producerFile.nextId = s.nextProducerId)
    (hpos : 0 < s.nextProducerId) :
    (opened s.disk config nowMs nextSerial committed).nextProducerId = s.nextProducerId := by
  show (if s.producerFile.nextId = 0 then 1 else s.producerFile.nextId) = _
  rw [hfile, if_neg hpos.ne']

theorem sameIds_opened (h : Identities s) (hfiled : Filed s) :
    SameIds s (opened s.disk config nowMs nextSerial committed) := by
  have hids : (opened s.disk config nowMs nextSerial committed).identityOf = s.identityOf :=
    funext fun pid => (identityOf_opened config nowMs nextSerial committed pid).trans (hfiled.2 pid)
  have htxn := transactionalIds_opened config nowMs nextSerial committed h hfiled
  have hnext := nextProducerId_opened config nowMs nextSerial committed hfiled.1 h.next_pos
  refine ⟨⟨?_, ?_, ?_, ?_, nofun, nofun, ?_⟩, ?_, ?_⟩
  · simp only [htxn, hids]
    exact h.owner
  · simp only [htxn, hids]
    exact h.owned
  · rw [hnext, hids]
    exact h.below
  · rw [hnext]
    exact h.next_pos
  · simp only [htxn]
    exact h.preparedFile
  · exact .congr hfiled hids hnext
  · funext id
    unfold pairOf
    rw [htxn, hids]

theorem sameIds_loadPreparedTxns (h : Identities s) (hfiled : Filed s) :
    SameIds s s.loadPreparedTxns := by
  rw [loadPreparedTxns_eq]
  exact ⟨⟨h.owner, h.owned, h.below, h.next_pos,
    Assoc.forall_mem_foldl_insert _ _ h.keyed fun _ _ => rfl,
    Assoc.forall_mem_foldl_insert _ _ h.prepared h.preparedFile, h.preparedFile⟩, hfiled, rfl⟩

theorem sameIds_restart (h : Identities s) (hfiled : Filed s) :
    SameIds s (restart s.disk config nowMs nextSerial committed) := by
  have hopened := (sameIds_opened config nowMs nextSerial committed h hfiled).keep
    (frame_keepsIds.loadTxnMarkers _)
  have hloaded := sameIds_loadPreparedTxns hopened.identities hopened.filed
  refine .keep ?_ (keepsIds_expireTimedOutTxns _)
  exact ⟨hloaded.identities, hloaded.filed, hloaded.pairOf.trans hopened.pairOf⟩

end Restart

end Volant.Broker.State
