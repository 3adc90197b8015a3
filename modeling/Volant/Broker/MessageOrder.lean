-- SUMMARY: A Complete ends only its own transaction at a peer that hears of one transaction after the other.
import Volant.Broker.TwoPhase

/-!
# The order of the messages to a peer

A peer checks a `Complete` against the epoch of what it has prepared. What it
has only open it does not check, and an epoch does not tell the transactions of
a producer apart. So a `Complete` that comes late or again can end a later
transaction. It cannot if the messages keep their order: those of a transaction
carry one epoch and none but a `Complete` follows its `Complete`, and nothing
is heard of another transaction of the producer before that.
-/

namespace Volant.Broker

open List

/-! ## Messages in order -/

namespace Fanout

def txn : Fanout → Nat
  | .opens txn _ | .prepare txn _ | .complete txn _ => txn

def transactionalId : Fanout → String
  | .opens _ m => m.transactionalId
  | .prepare _ m | .complete _ m => m.transactionalId

def producerId : Fanout → Nat
  | .opens _ m => m.producerId
  | .prepare _ m | .complete _ m => m.producerId

def producerEpoch : Fanout → Nat
  | .opens _ m => m.producerEpoch
  | .prepare _ m | .complete _ m => m.producerEpoch

def completes : Fanout → Bool
  | .complete _ _ => true
  | _ => false

/-- Each message before this one is of the same transaction and epoch, and not its `Complete`
unless this is one too, or it is of another transaction, whose `Complete` was heard. -/
def InTurn (heard : List Fanout) (f : Fanout) : Prop :=
  ∀ g ∈ heard,
    (g.txn = f.txn ∧ g.producerEpoch = f.producerEpoch ∧ (g.completes → f.completes)) ∨
      (g.txn ≠ f.txn ∧ ∃ h ∈ heard, h.txn = g.txn ∧ h.completes)

instance (heard : List Fanout) (f : Fanout) : Decidable (f.InTurn heard) :=
  inferInstanceAs (Decidable (∀ g ∈ heard, _))

end Fanout

/-- The transaction was heard of in this epoch, and no `Complete` of it. -/
def UnderWay (heard : List Fanout) (txn epoch : Nat) : Prop :=
  (∃ g ∈ heard, g.txn = txn ∧ g.producerEpoch = epoch) ∧
    ∀ g ∈ heard, g.txn = txn → g.completes = false

variable {heard : List Fanout} {f : Fanout} {txn epoch : Nat}

theorem UnderWay.eq_of_inTurn (h : UnderWay heard txn epoch) (hf : f.InTurn heard) :
    f.txn = txn ∧ f.producerEpoch = epoch := by
  obtain ⟨⟨g, hg, rfl, rfl⟩, hnone⟩ := h
  rcases hf g hg with ⟨htxn, hepoch, -⟩ | ⟨-, g', hg', htxn, hcompletes⟩
  · exact ⟨htxn.symm, hepoch.symm⟩
  · exact absurd hcompletes (by simp [hnone g' hg' htxn])

theorem UnderWay.cons (h : UnderWay heard txn epoch) (hf : f.completes = false) :
    UnderWay (f :: heard) txn epoch := by
  obtain ⟨⟨g, hg, hgtxn⟩, hnone⟩ := h
  exact ⟨⟨g, mem_cons_of_mem f hg, hgtxn⟩, forall_mem_cons.mpr ⟨fun _ => hf, hnone⟩⟩

/-- A transaction that is heard of in turn is under way, until its `Complete`. -/
theorem underWay_of_inTurn (hf : f.InTurn heard) (hcompletes : f.completes = false) :
    UnderWay (f :: heard) f.txn f.producerEpoch := by
  refine ⟨⟨f, mem_cons_self, rfl, rfl⟩,
    forall_mem_cons.mpr ⟨fun _ => hcompletes, fun g hg htxn => ?_⟩⟩
  rcases hf g hg with ⟨-, -, himp⟩ | ⟨hne, -⟩
  · exact Bool.eq_false_of_not_eq_true fun hg => by simp [himp hg] at hcompletes
  · exact absurd htxn hne

/-! ## The tables of a peer -/

namespace TxnTables

/-- What the tables have for the producer and the transactional id was there before. -/
structure Retains (pid : Nat) (id : String) (t t' : TxnTables) : Prop where
  opened : ∀ x, t'.openTxns.lookup pid = some x → t.openTxns.lookup pid = some x
  prepared : ∀ prep, t'.preparedTxns.lookup id = some prep → t.preparedTxns.lookup id = some prep
  nextSerial : t.nextSerial ≤ t'.nextSerial

variable {pid pid' : Nat} {id id' : String} {t t' : TxnTables}

theorem Retains.refl (pid : Nat) (id : String) (t : TxnTables) : Retains pid id t t :=
  ⟨fun _ h => h, fun _ h => h, le_rfl⟩

theorem retains_insert {x : OpenTxn} {next : Nat} (hpid : pid ≠ pid')
    (hnext : t.nextSerial ≤ next) :
    Retains pid id t { t with openTxns := t.openTxns.insert pid' x, nextSerial := next } :=
  ⟨fun _ h => (AList.lookup_insert_ne hpid) ▸ h, fun _ h => h, hnext⟩

theorem Ends.retains {o : Bool} (h : t.Ends pid' id' o t') (hpid : pid ≠ pid') (hid : id ≠ id') :
    Retains pid id t t' := by
  cases h with
  | same => exact .refl pid id t
  | prepare =>
    exact ⟨fun _ h => (AList.lookup_erase_ne hpid) ▸ h,
      fun _ h => (AList.lookup_insert_ne hid) ▸ h, le_rfl⟩
  | finishOpen =>
    unfold TxnTables.finishOpen mark
    split_ifs <;> exact ⟨fun _ h => (AList.lookup_erase_ne hpid) ▸ h, fun _ h => h, le_rfl⟩
  | finishPrepared =>
    unfold TxnTables.finishPrepared mark
    split_ifs <;> exact ⟨fun _ h => h, fun _ h => (AList.lookup_erase_ne hid) ▸ h, le_rfl⟩

/-- What the peer holds for the producer is a part of the transaction under way. `partOf` says
which transaction a number of the peer's own stands for. -/
structure Tidy (decision : Nat → Bool) (partOf : Nat → Nat) (pid : Nat) (id : String)
    (heard : List Fanout) (t : TxnTables) : Prop where
  opened : ∀ x, t.openTxns.lookup pid = some x →
    x.serial < t.nextSerial ∧ UnderWay heard (partOf x.serial) x.producerEpoch
  prepared : ∀ prep, t.preparedTxns.lookup id = some prep →
    prep.body.serial < t.nextSerial ∧ UnderWay heard (partOf prep.body.serial) prep.producerEpoch ∧
      prep.producerId = pid ∧ prep.commit = decision (partOf prep.body.serial)
  either : t.openTxns.lookup pid = none ∨ t.preparedTxns.lookup id = none

variable {decision : Nat → Bool} {partOf partOf' : Nat → Nat} {heard' : List Fanout}

/-- Only numbers that are taken have a label that matters, and nothing is lost when more is heard
of the transaction under way. -/
theorem Tidy.map (h : Tidy decision partOf pid id heard t) (hretains : Retains pid id t t')
    (hsame : ∀ k < t.nextSerial, partOf' k = partOf k)
    (hheard : ∀ k e, UnderWay heard k e → UnderWay heard' k e) :
    Tidy decision partOf' pid id heard' t' := by
  refine ⟨fun x hx => ?_, fun prep hprep => ?_, ?_⟩
  · obtain ⟨hlt, hunder⟩ := h.opened x (hretains.opened x hx)
    rw [hsame _ hlt]
    exact ⟨hlt.trans_le hretains.nextSerial, hheard _ _ hunder⟩
  · obtain ⟨hlt, hunder, hrest⟩ := h.prepared prep (hretains.prepared prep hprep)
    rw [hsame _ hlt]
    exact ⟨hlt.trans_le hretains.nextSerial, hheard _ _ hunder, hrest⟩
  · refine h.either.imp (fun hnone => ?_) fun hnone => ?_
    · exact Option.eq_none_iff_forall_ne_some.mpr fun x hx => by
        cases hnone.symm.trans (hretains.opened x hx)
    · exact Option.eq_none_iff_forall_ne_some.mpr fun prep hprep => by
        cases hnone.symm.trans (hretains.prepared prep hprep)

theorem Tidy.retains (h : Tidy decision partOf pid id heard t) (hretains : Retains pid id t t') :
    Tidy decision partOf pid id heard t' :=
  h.map hretains (fun _ _ => rfl) fun _ _ hunder => hunder

theorem Tidy.relabel (h : Tidy decision partOf pid id heard t)
    (hsame : ∀ k < t.nextSerial, partOf' k = partOf k) : Tidy decision partOf' pid id heard t :=
  h.map (.refl pid id t) hsame fun _ _ hunder => hunder

theorem Tidy.hear (h : Tidy decision partOf pid id heard t) (hf : f.completes = false) :
    Tidy decision partOf pid id (f :: heard) t :=
  h.map (.refl pid id t) (fun _ _ => rfl) fun _ _ hunder => hunder.cons hf

theorem Tidy.of_none (hopen : t.openTxns.lookup pid = none)
    (hprepared : t.preparedTxns.lookup id = none) : Tidy decision partOf pid id heard t :=
  ⟨fun _ hx => absurd (hopen.symm.trans hx) nofun,
    fun _ hprep => absurd (hprepared.symm.trans hprep) nofun, .inl hopen⟩

/-- The open transaction of a producer changes in place, and keeps its epoch or has that of the
transaction under way. -/
theorem Tidy.touches {new : Option Nat} (h : Tidy decision partOf pid id heard t)
    (htouches : t.Touches pid' new t') (hnew : pid' = pid → ∀ epoch ∈ new,
      ∀ k e, UnderWay heard k e → epoch = e) : Tidy decision partOf pid id heard t' := by
  cases htouches with
  | same => exact h
  | @changed x x' hlookup hserial hepoch =>
    by_cases hpid : pid = pid'
    · subst hpid
      obtain ⟨hlt, hunder⟩ := h.opened x hlookup
      have hsame : x'.producerEpoch = x.producerEpoch := by
        cases new with
        | none => exact hepoch
        | some e => exact hepoch.trans (hnew rfl e rfl _ _ hunder)
      refine ⟨fun y hy => ?_, h.prepared, .inr (h.either.resolve_left ?_)⟩
      · rw [AList.lookup_insert] at hy
        cases hy
        rw [hserial, hsame]
        exact ⟨hlt, hunder⟩
      · rw [hlookup]
        exact Option.some_ne_none x
    · exact h.retains (retains_insert hpid le_rfl)

/-- A transaction becomes prepared, in turn. -/
theorem Tidy.prepare (h : Tidy decision partOf pid id heard t) {prep : PreparedTxn}
    (hf : f.InTurn heard) (hcompletes : f.completes = false)
    (hopen : t.openTxns.lookup pid = some prep.body) (hpid : prep.producerId = pid)
    (hepoch : prep.producerEpoch = f.producerEpoch) (hcommit : prep.commit = decision f.txn) :
    Tidy decision partOf pid id (f :: heard) (t.prepare pid id prep) := by
  obtain ⟨hlt, hunder⟩ := h.opened _ hopen
  obtain ⟨htxn, -⟩ := hunder.eq_of_inTurn hf
  refine ⟨fun x hx => ?_, fun prep' hprep' => ?_, .inl (AList.lookup_erase pid _)⟩
  · cases (AList.lookup_erase pid _).symm.trans hx
  · obtain rfl : prep = prep' := Option.some.inj ((AList.lookup_insert _).symm.trans hprep')
    rw [← htxn, hepoch]
    exact ⟨hlt, underWay_of_inTurn hf hcompletes, hpid, hcommit⟩

end TxnTables

/-! ## Runs -/

namespace TwoPhase

open TxnTables

/-- The condition on the steps, for what broker `b` hears about a producer: it coordinates no
transaction of the producer itself, the producer has one transactional id, and the messages come in
turn. -/
def Orderly (b pid : Nat) (id : String) (c : TwoPhase) (heard : List Fanout) : Event → Prop
  | .deliver b' f => b' = b →
      (f.transactionalId = id ∧ f.producerId = pid ∧ f.InTurn heard) ∨
        (id ≠ f.transactionalId ∧ pid ≠ f.producerId)
  | .beginTxn b' pid' _ => b' = b → pid ≠ pid'
  | .endTxn b' _ pid' _ _ => b' = b → pid ≠ pid' ∧
      ∀ prod ∈ (c.brokers b).producers.lookup pid', id ≠ prod.transactionalId
  | .rollback b' id' => b' = b → id ≠ id' ∧
      ∀ prep ∈ (c.brokers b).preparedTxns.lookup id', pid ≠ prep.producerId
  | _ => True

/-- What broker `b` has heard of the transactional id after an event. -/
def hear (b : Nat) (id : String) (heard : List Fanout) : Event → List Fanout
  | .deliver b' f => if b' = b ∧ f.transactionalId = id then f :: heard else heard
  | _ => heard

/-- Every event of the list can happen, and meets the condition. -/
def Hears (decision : Nat → Bool) (b pid : Nat) (id : String) :
    TwoPhase → List Fanout → List Event → Prop
  | _, _, [] => True
  | c, heard, e :: es => (c.Enabled e ∧ c.Orderly b pid id heard e) ∧
      Hears decision b pid id (c.step decision e) (hear b id heard e) es

variable {decision : Nat → Bool} {b pid : Nat} {id : String} {c : TwoPhase}

structure Ordered (decision : Nat → Bool) (b pid : Nat) (id : String) (c : TwoPhase)
    (heard : List Fanout) : Prop where
  tidy : (c.brokers b).txnTables.Tidy decision (c.txnOf b) pid id heard
  decided : ∀ m ∈ c.messages, m.Decided decision

theorem decided_step (h : ∀ m ∈ c.messages, m.Decided decision) (e : Event) :
    ∀ m ∈ (c.step decision e).messages, m.Decided decision := by
  cases e with
  | beginTxn b pid epoch =>
    unfold step
    simp only
    split_ifs
    · refine forall_mem_append.mpr ⟨fun m hm => ?_, h⟩
      obtain ⟨_, -, heq⟩ := Option.map_eq_some_iff.mp (Option.mem_toList.mp hm)
      exact heq ▸ trivial
    · exact h
  | endTxn b txn pid epoch offsets =>
    have hdecides := State.decides_endTxnFanout (c.brokers b) pid epoch (decision txn)
    intro m hm
    change m ∈ (c.send b txn ((c.brokers b).endTxnFanout pid epoch (decision txn))).messages at hm
    generalize (c.brokers b).endTxnFanout pid epoch (decision txn) = fanout at hdecides hm
    cases fanout with
    | none => exact h m hm
    | prepare _ | complete _ =>
      rcases mem_cons.mp hm with rfl | hm
      · exact hdecides
      · exact h m hm
  | deliver b f => cases f <;> exact h
  | _ => exact h

/-! ## The steps -/

/-- Where an event happens. -/
def Event.broker : Event → Nat
  | .clock b _ | .sweep b | .beginTxn b _ _ | .produce b _ _ _ _ _ _ | .endTxn b _ _ _ _
  | .rollback b _ | .deliver b _ => b

theorem step_elsewhere {e : Event} (h : b ≠ e.broker) :
    (c.step decision e).brokers b = c.brokers b ∧ (c.step decision e).txnOf b = c.txnOf b := by
  cases e with
  | beginTxn b' pid' epoch =>
    unfold step
    simp only
    split_ifs
    · exact ⟨Function.update_of_ne h _ _, Function.update_of_ne h _ _⟩
    · exact ⟨Function.update_of_ne h _ _, rfl⟩
  | endTxn b' txn pid' epoch offsets =>
    unfold step
    simp only
    generalize (c.brokers b').endTxnFanout pid' epoch (decision txn) = fanout
    refine ⟨(Function.update_of_ne h _ _).trans ?_, congrFun (txnOf_send c b' txn fanout) b⟩
    cases fanout <;> rfl
  | deliver b' f =>
    cases f with
    | opens => exact ⟨Function.update_of_ne h _ _, Function.update_of_ne h _ _⟩
    | prepare | complete => exact ⟨Function.update_of_ne h _ _, rfl⟩
  | clock | sweep | produce | rollback => exact ⟨Function.update_of_ne h _ _, rfl⟩

theorem brokers_setBroker (c : TwoPhase) (b : Nat) (s : State) : (c.setBroker b s).brokers b = s :=
  Function.update_self ..

theorem label_self {k : Nat} (txn : Nat) (hk : k < (c.brokers b).nextSerial) :
    c.label b txn b k = c.txnOf b k := by
  unfold label
  rw [Function.update_self, Function.update_of_ne hk.ne]

section Steps

variable (h : (c.brokers b).txnTables.Tidy decision (c.txnOf b) pid id heard)

include h

theorem tidy_expire :
    (c.brokers b).expireTimedOutTxns.txnTables.Tidy decision (c.txnOf b) pid id heard :=
  h.retains ⟨fun _ h => State.lookup_openTxns_expire h,
    fun _ h => State.lookup_preparedTxns_expire h, (nextSerial_expire _).ge⟩

/-- A message about another producer. -/
theorem tidy_deliver_other {f : Fanout} (hid : id ≠ f.transactionalId) (hpid : pid ≠ f.producerId) :
    let c' := c.step decision (.deliver b f)
    (c'.brokers b).txnTables.Tidy decision (c'.txnOf b) pid id heard := by
  cases f with
  | opens txn m =>
    have hlabel := h.relabel fun k hk => label_self txn hk
    simp only [step, brokers_setBroker]
    rcases State.handleTxnParticipantOpen_tables (c.brokers b) m with
      htouches | ⟨-, -, x, -, -, heq⟩
    · exact hlabel.touches htouches fun heq => absurd heq.symm hpid
    · rw [heq]
      exact hlabel.retains (retains_insert hpid (Nat.le_succ _))
  | prepare txn m =>
    simp only [step, brokers_setBroker]
    rcases State.handleTxnParticipantPrepare_tables (c.brokers b) m with
      heq | ⟨prep, hopen, hnone, hprepId, -, -, hcommit, heq⟩
    · rw [heq]
      exact h
    · rw [heq]
      exact h.retains ((Ends.prepare prep hopen hnone hprepId hcommit).retains hpid hid)
  | complete txn m =>
    simp only [step, brokers_setBroker]
    exact h.retains ((State.handleTxnParticipantComplete_ends _ m).retains hpid hid)

/-- What a `Complete` in turn finds is a part of its own transaction. -/
theorem tidy_found {f : Fanout} (hf : f.InTurn heard) :
    (∀ x, (c.brokers b).openTxns.lookup pid = some x →
      x.producerEpoch = f.producerEpoch ∧ c.txnOf b x.serial = f.txn) ∧
    ∀ prep, (c.brokers b).preparedTxns.lookup id = some prep → prep.producerId = pid ∧
      prep.producerEpoch = f.producerEpoch ∧ prep.commit = decision f.txn ∧
        c.txnOf b prep.body.serial = f.txn := by
  refine ⟨fun x hx => ?_, fun prep hprep => ?_⟩
  · obtain ⟨htxn, hepoch⟩ := (h.opened x hx).2.eq_of_inTurn hf
    exact ⟨hepoch.symm, htxn.symm⟩
  · obtain ⟨-, hunder, hpid, hcommit⟩ := h.prepared prep hprep
    obtain ⟨htxn, hepoch⟩ := hunder.eq_of_inTurn hf
    exact ⟨hpid, hepoch.symm, htxn ▸ hcommit, htxn.symm⟩

/-- A message about the producer, in turn. -/
theorem tidy_deliver_own {f : Fanout} (hne : id ≠ "") (hid : f.transactionalId = id)
    (hpid : f.producerId = pid) (hf : f.InTurn heard) (hdecided : f.Decided decision) :
    let c' := c.step decision (.deliver b f)
    (c'.brokers b).txnTables.Tidy decision (c'.txnOf b) pid id (f :: heard) := by
  have hsome : id.isEmpty = false := by simpa using hne
  cases f with
  | opens txn m =>
    obtain rfl : m.transactionalId = id := hid
    obtain rfl : m.producerId = pid := hpid
    have hlabel := h.relabel fun k hk => label_self txn hk
    simp only [step, brokers_setBroker]
    rcases State.handleTxnParticipantOpen_tables (c.brokers b) m with
      htouches | ⟨-, hprepared, x, hserial, hepoch, heq⟩
    · refine (hlabel.touches htouches fun _ epoch hepoch k e hunder => ?_).hear rfl
      rw [← Option.some.inj hepoch]
      exact (hunder.eq_of_inTurn hf).2
    · have hnone : (c.brokers b).preparedTxns.lookup m.transactionalId = none := by
        simpa [State.isPrepared, hsome] using hprepared
      rw [heq]
      refine ⟨fun y hy => ?_, fun prep hprep => absurd (hnone.symm.trans hprep) nofun, .inr hnone⟩
      obtain rfl : x = y := Option.some.inj ((AList.lookup_insert _).symm.trans hy)
      rw [hserial, hepoch]
      refine ⟨Nat.lt_succ_self _, ?_⟩
      have htxn : c.label b txn b (c.brokers b).nextSerial = txn := by simp [label]
      rw [htxn]
      exact underWay_of_inTurn hf rfl
  | prepare txn m =>
    obtain rfl : m.transactionalId = id := hid
    obtain rfl : m.producerId = pid := hpid
    simp only [step, brokers_setBroker]
    rcases State.handleTxnParticipantPrepare_tables (c.brokers b) m with
      heq | ⟨prep, hopen, -, -, hprepPid, hepoch, hcommit, heq⟩
    · rw [heq]
      exact h.hear rfl
    · rw [heq]
      exact h.prepare hf rfl hopen hprepPid hepoch (hcommit.trans hdecided)
  | complete txn m =>
    obtain rfl : m.transactionalId = id := hid
    obtain rfl : m.producerId = pid := hpid
    obtain ⟨-, hprepared⟩ := tidy_found h hf
    have hfor : (c.brokers b).preparedFor m =
        (c.brokers b).preparedTxns.lookup m.transactionalId := by
      simp [State.preparedFor, hsome]
    simp only [step, brokers_setBroker]
    rw [State.handleTxnParticipantComplete_tables, hfor]
    cases hprep : (c.brokers b).preparedTxns.lookup m.transactionalId with
    | some prep =>
      obtain ⟨hprepPid, hepoch, hcommit, -⟩ := hprepared prep hprep
      have hfits : prep.producerId = m.producerId ∧ prep.producerEpoch = m.producerEpoch ∧
          (m.commit = true → prep.commit = true) :=
        ⟨hprepPid, hepoch, fun hc => hcommit.trans (hdecided.symm.trans hc)⟩
      have hopen : (c.brokers b).openTxns.lookup m.producerId = none :=
        h.either.resolve_right fun hnone => by cases hprep.symm.trans hnone
      simp only [if_pos hfits]
      unfold TxnTables.finishPrepared mark
      split_ifs <;> exact .of_none hopen (AList.lookup_erase _ _)
    | none =>
      cases hopen : (c.brokers b).openTxns.lookup m.producerId with
      | none => exact .of_none hopen hprep
      | some x =>
        simp only
        unfold TxnTables.finishOpen mark
        split_ifs <;> exact .of_none (AList.lookup_erase _ _) hprep

end Steps

theorem Ordered.step {e : Event} (h : Ordered decision b pid id c heard) (hid : id ≠ "")
    (henabled : c.Enabled e) (horderly : c.Orderly b pid id heard e) :
    Ordered decision b pid id (c.step decision e) (hear b id heard e) := by
  refine ⟨?_, decided_step h.decided e⟩
  by_cases hb : b = e.broker
  swap
  · obtain ⟨hbroker, hlabels⟩ := @step_elsewhere decision b c e hb
    have hheard : hear b id heard e = heard := by
      cases e with
      | deliver b' f => exact if_neg fun hand => hb hand.1.symm
      | _ => rfl
    rw [hbroker, hlabels, hheard]
    exact h.tidy
  cases e with
  | clock b' nowMs =>
    obtain rfl : b = b' := hb
    simp only [TwoPhase.step, brokers_setBroker]
    exact h.tidy
  | sweep b' =>
    obtain rfl : b = b' := hb
    simp only [TwoPhase.step, brokers_setBroker]
    exact tidy_expire h.tidy
  | beginTxn b' pid' epoch =>
    obtain rfl : b = b' := hb
    unfold TwoPhase.step
    simp only
    rcases State.beginTxn_cases (c.brokers b) pid' epoch with
      ⟨code, hcode, heq⟩ | ⟨prod, -, -, -, -, heq⟩
    · rw [heq, if_neg hcode, brokers_setBroker]
      exact tidy_expire h.tidy
    · rw [heq, if_pos rfl]
      simp only [brokers_setBroker]
      refine ((tidy_expire h.tidy).relabel fun k hk => label_self c.begun ?_).retains
        (retains_insert (horderly rfl) (Nat.le_succ _))
      exact nextSerial_expire (c.brokers b) ▸ hk
  | produce b' txn pid' epoch tp baseSequence messages =>
    obtain rfl : b = b' := hb
    simp only [TwoPhase.step, brokers_setBroker]
    exact (tidy_expire h.tidy).touches (State.bufferTxnProduce_tables (c.brokers b) pid' epoch tp
      baseSequence messages) nofun
  | endTxn b' txn pid' epoch offsets =>
    obtain rfl : b = b' := hb
    obtain ⟨hpid, hother⟩ := horderly rfl
    unfold TwoPhase.step
    simp only [brokers_setBroker]
    change TxnTables.Tidy decision ((c.send b txn _).txnOf b) pid id heard _
    rw [txnOf_send]
    rcases State.endTxn_tables (c.brokers b) pid' epoch (decision txn) offsets with
      heq | ⟨prod, hprod, hends⟩
    · rw [heq]
      exact tidy_expire h.tidy
    · rw [State.producers_expire] at hprod
      exact (tidy_expire h.tidy).retains (hends.retains hpid (hother prod hprod))
  | rollback b' id' =>
    obtain rfl : b = b' := hb
    obtain ⟨hne, hother⟩ := horderly rfl
    simp only [TwoPhase.step, brokers_setBroker]
    rcases State.rollbackLocalPrepare_tables (c.brokers b) id' with heq | ⟨prep, hprep, heq⟩
    · rw [heq]
      exact h.tidy
    · rw [heq]
      exact h.tidy.retains ⟨fun _ hx => (AList.lookup_insert_ne (hother prep hprep)) ▸ hx,
        fun _ hp => (AList.lookup_erase_ne hne) ▸ hp, le_rfl⟩
  | deliver b' f =>
    obtain rfl : b = b' := hb
    rcases horderly rfl with ⟨hown, hpid, hf⟩ | ⟨hne, hpid⟩
    · rw [hear, if_pos ⟨rfl, hown⟩]
      exact tidy_deliver_own h.tidy hid hown hpid hf (h.decided f henabled)
    · rw [hear, if_neg fun hand => hne hand.2.symm]
      exact tidy_deliver_other h.tidy hne hpid

theorem ordered_start (h : Start c) : Ordered decision b pid id c [] := by
  refine ⟨.of_none ?_ ?_, by simp [h.messages]⟩
  · simp [State.txnTables, h.openTxns]
  · simp [State.txnTables, h.preparedTxns]

theorem Ordered.follow {es : List Event} (h : Ordered decision b pid id c heard) (hid : id ≠ "")
    (hhears : Hears decision b pid id c heard es) :
    Ordered decision b pid id (c.follow decision es) (es.foldl (hear b id) heard) := by
  induction es generalizing c heard with
  | nil => exact h
  | cons e es ih => exact ih (h.step hid hhears.1.1 hhears.1.2) hhears.2

/-- What leaves the tables has the producer id and the epoch, and is a part of `txn`. -/
structure Exact (partOf : Nat → Nat) (pid epoch txn : Nat) (t t' : TxnTables) : Prop where
  opened : Assoc.Loses (fun k x => k = pid ∧ x.producerEpoch = epoch ∧ partOf x.serial = txn)
    t.openTxns t'.openTxns
  prepared : Assoc.Loses (fun _ prep => prep.producerId = pid ∧ prep.producerEpoch = epoch ∧
    partOf prep.body.serial = txn) t.preparedTxns t'.preparedTxns

/-- In every run in which the peer hears of the producer's transactions in order, a `Complete` ends
nothing but the part of its own transaction, in its own epoch. -/
theorem complete_ends_own_part (hid : id ≠ "") (hstart : Start c) {es : List Event}
    (hhears : Hears decision b pid id c [] es) {txn : Nat} {m : ParticipantEnd}
    (hm : m.transactionalId = id) (horderly : (c.follow decision es).Orderly b pid id
      (es.foldl (hear b id) []) (.deliver b (.complete txn m))) :
    let c := c.follow decision es
    Exact (c.txnOf b) m.producerId m.producerEpoch txn (c.brokers b).txnTables
      ((c.step decision (.deliver b (.complete txn m))).brokers b).txnTables := by
  have hordered := (ordered_start hstart).follow hid hhears
  generalize c.follow decision es = c at hordered horderly ⊢
  obtain ⟨-, rfl, hf⟩ := (horderly rfl).resolve_right fun hother => hother.1 hm.symm
  obtain ⟨hopen, hprepared⟩ := tidy_found hordered.tidy hf
  simp only [step, brokers_setBroker]
  rw [State.handleTxnParticipantComplete_tables]
  cases hprep : (c.brokers b).preparedFor m with
  | some prep =>
    have hlookup := State.lookup_of_preparedFor hprep
    obtain ⟨hpid, hepoch, -, htxn⟩ := hprepared prep (hm ▸ hlookup)
    simp only
    split_ifs
    · unfold TxnTables.finishPrepared mark
      split_ifs <;> exact ⟨.refl _, (Assoc.loses_erase hlookup).mpr ⟨hpid, hepoch, htxn⟩⟩
    · exact ⟨.refl _, .refl _⟩
  | none =>
    simp only
    cases hx : (c.brokers b).openTxns.lookup m.producerId with
    | none => exact ⟨.refl _, .refl _⟩
    | some x =>
      obtain ⟨hepoch, htxn⟩ := hopen x hx
      simp only
      unfold TxnTables.finishOpen mark
      split_ifs <;> exact ⟨(Assoc.loses_erase hx).mpr ⟨rfl, hepoch, htxn⟩, .refl _⟩

/-! ## Two transactions on two brokers -/

instance (b pid : Nat) (id : String) (c : TwoPhase) (heard : List Fanout) (e : Event) :
    Decidable (c.Orderly b pid id heard e) := by
  apply @Event.casesOn _ e <;> unfold Orderly <;> infer_instance

instance (decision : Nat → Bool) (b pid : Nat) (id : String) :
    ∀ (c : TwoPhase) (heard : List Fanout) (es : List Event),
      Decidable (Hears decision b pid id c heard es)
  | _, _, [] => .isTrue trivial
  | c, heard, e :: es =>
    have := instDecidableHears decision b pid id (c.step decision e) (hear b id heard e) es
    instDecidableAnd

/-- The producer begins its next transaction, and both phases of its commit are under way. -/
def nextCommitting : List Event :=
  [.beginTxn 0 1 0, .deliver 1 (.opens 1 ⟨"a", 1, 0, true, true⟩), .endTxn 0 1 1 0 [],
    .deliver 1 (.prepare 1 ⟨"a", 1, 0, true⟩), .endTxn 0 1 1 0 []]

/-- With its messages in order, the next transaction is ended by its own `Complete`. -/
theorem next_complete_ends_next :
    let c := twoBrokers.follow (fun _ => true) (completedOnBoth ++ nextCommitting)
    let c' := c.step (fun _ => true) (.deliver 1 (.complete 1 ⟨"a", 1, 0, true⟩))
    (c.brokers 1).txnTables.outcome 1 = none ∧ (c'.brokers 1).txnTables.outcome 1 = some true ∧
      Exact (c.txnOf 1) 1 0 1 (c.brokers 1).txnTables (c'.brokers 1).txnTables := by
  intro c c'
  have hhears : Hears (fun _ => true) 1 1 "a" twoBrokers []
      (completedOnBoth ++ nextCommitting) := by decide +kernel
  have horderly : c.Orderly 1 1 "a" ((completedOnBoth ++ nextCommitting).foldl (hear 1 "a") [])
      (.deliver 1 (.complete 1 ⟨"a", 1, 0, true⟩)) := by decide +kernel
  exact ⟨by decide +kernel, by decide +kernel,
    complete_ends_own_part (by decide) start_twoBrokers hhears rfl horderly⟩

/-- The completed transaction's `Complete` comes again when the producer has the next one open at
the peer, and commits it. With two opens of different epochs, the older `Complete` does so too. -/
theorem repeated_complete_commits_next :
    let c := twoBrokers.follow (fun _ => true) (completedOnBoth ++
      [.beginTxn 0 1 0, .deliver 1 (.opens 1 ⟨"a", 1, 0, true, true⟩)])
    let again := c.step (fun _ => true) (.deliver 1 (.complete 0 ⟨"a", 1, 0, true⟩))
    let newer := ((c.brokers 1).handleTxnParticipantOpen ⟨"a", 1, 1, true, true⟩).2
    Follows (fun _ _ => True) (fun _ => true) twoBrokers (completedOnBoth ++
        [.beginTxn 0 1 0, .deliver 1 (.opens 1 ⟨"a", 1, 0, true, true⟩),
          .deliver 1 (.complete 0 ⟨"a", 1, 0, true⟩)]) ∧
      c.txnOf 1 1 = 1 ∧ (c.brokers 1).txnTables.outcome 1 = none ∧
      (again.brokers 1).txnTables.outcome 1 = some true ∧
      (newer.openTxns.lookup 1).map (·.producerEpoch) = some 1 ∧
      (newer.handleTxnParticipantComplete ⟨"a", 1, 0, true⟩).2.txnTables.outcome 1 = some true := by
  decide +kernel

end TwoPhase
end Volant.Broker
