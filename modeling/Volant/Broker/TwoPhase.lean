-- SUMMARY: Two-phase commit across brokers: when all of them finalize a transaction the same way.
import Volant.Broker.CrashAbort
import Volant.Broker.TxnTables

/-!
# Two-phase commit across brokers

The broker that a client talks to prepares and finalizes its own part of a
transaction and tells the live peers, once. A peer that has timed out, or that
hears of one transaction while it holds another of the same producer, decides
for itself. If neither happens, every broker that has finalized its part of a
transaction has done what the client decided.
-/

namespace Volant.Broker

open List Function

namespace TxnTables

variable (t : TxnTables) (committed : Bool) (serial : Nat)

/-- The transactions that are open or prepared. -/
def live : List OpenTxn :=
  Assoc.values t.openTxns ++ (Assoc.values t.preparedTxns).map (·.body)

/-- How the transaction with this number ended: `false` if it is over and was not committed. -/
def outcome (serial : Nat) : Option Bool :=
  if serial ∈ t.committed then some true
  else if serial < t.nextSerial ∧ ∀ txn ∈ t.live, txn.serial ≠ serial then some false
  else none

/-- Transactions are prepared and finalized in the right way. -/
structure Agrees (right : Nat → Bool → Prop) (t : TxnTables) : Prop where
  below : ∀ txn ∈ t.live, txn.serial < t.nextSerial
  prepared : ∀ e ∈ t.preparedTxns.entries,
    e.2.transactionalId = e.1 ∧ right e.2.body.serial e.2.commit
  committed : ∀ k ∈ t.committed, k < t.nextSerial ∧ right k true
  aborted : ∀ k < t.nextSerial, k ∉ t.committed → (∀ txn ∈ t.live, txn.serial ≠ k) → right k false

variable {right right' : Nat → Bool → Prop} {t t' : TxnTables} {o : Bool} {pid : Nat}
  {txn : OpenTxn} {id : String} {prep : PreparedTxn}

theorem Agrees.outcome (h : Agrees right t) {k : Nat} (ho : t.outcome k = some o) : right k o := by
  unfold TxnTables.outcome at ho
  split_ifs at ho with hcommitted hover
  · cases ho
    exact (h.committed k hcommitted).2
  · cases ho
    exact h.aborted k hover.1 hcommitted hover.2

theorem Agrees.congr (h : Agrees right t) (hright : ∀ k < t.nextSerial, ∀ o, right k o → right' k o) :
    Agrees right' t := by
  refine ⟨h.below, fun e he => ⟨(h.prepared e he).1, ?_⟩, fun k hk => ?_,
    fun k hk hnot hlive => ?_⟩
  · have hlive : e.2.body ∈ t.live :=
      mem_append_right _ (mem_map_of_mem (mem_map_of_mem he))
    exact hright _ (h.below _ hlive) _ (h.prepared e he).2
  · exact ⟨(h.committed k hk).1, hright k (h.committed k hk).1 _ (h.committed k hk).2⟩
  · exact hright k hk _ (h.aborted k hk hnot hlive)

/-- A step that begins nothing: what is no longer live has ended in the right way. -/
theorem Agrees.step (h : Agrees right t) (hnext : t'.nextSerial = t.nextSerial)
    (hlive : ∀ txn ∈ t'.live, ∃ old ∈ t.live, old.serial = txn.serial)
    (hprepared : ∀ e ∈ t'.preparedTxns.entries,
      e.2.transactionalId = e.1 ∧ right e.2.body.serial e.2.commit)
    (hcommitted : ∀ k ∈ t'.committed, k ∈ t.committed ∨
      (∃ txn ∈ t.live, txn.serial = k) ∧ right k true) (hsub : ∀ k ∈ t.committed, k ∈ t'.committed)
    (hgone : ∀ txn ∈ t.live, (∃ new ∈ t'.live, new.serial = txn.serial) ∨
      txn.serial ∈ t'.committed ∨ right txn.serial false) : Agrees right t' := by
  refine ⟨fun txn htxn => ?_, hprepared, fun k hk => ?_, fun k hk hnot hdead => ?_⟩
  · obtain ⟨old, hold, heq⟩ := hlive txn htxn
    rw [hnext, ← heq]
    exact h.below old hold
  · rw [hnext]
    rcases hcommitted k hk with hold | ⟨⟨txn, htxn, rfl⟩, hright⟩
    · exact h.committed k hold
    · exact ⟨h.below txn htxn, hright⟩
  · rw [hnext] at hk
    by_cases hold : ∃ txn ∈ t.live, txn.serial = k
    · obtain ⟨txn, htxn, rfl⟩ := hold
      rcases hgone txn htxn with ⟨new, hnew, heq⟩ | hin | hright
      · exact absurd heq (hdead new hnew)
      · exact absurd hin hnot
      · exact hright
    · refine h.aborted k hk (fun hin => hnot (hsub k hin)) fun txn htxn heq => ?_
      exact hold ⟨txn, htxn, heq⟩

/-! ## The steps of the tables -/

theorem mark_committed (t : TxnTables) (committed : Bool) (serial : Nat) :
    (t.mark committed serial).committed =
      if committed then serial :: t.committed else t.committed := by
  unfold mark
  split_ifs <;> rfl

/-- Apart from that, nothing happens to the tables. -/
theorem mark_eq :
    t.mark committed serial = { t with committed := (t.mark committed serial).committed } := by
  unfold mark
  split_ifs <;> rfl

@[simp] theorem mark_openTxns : (t.mark committed serial).openTxns = t.openTxns := by rw [mark_eq]

@[simp] theorem mark_preparedTxns :
    (t.mark committed serial).preparedTxns = t.preparedTxns := by rw [mark_eq]

@[simp] theorem mark_nextSerial :
    (t.mark committed serial).nextSerial = t.nextSerial := by rw [mark_eq]

theorem live_mark : (t.mark committed serial).live = t.live := by simp [live]

theorem perm_finishOpen (hlookup : t.openTxns.lookup pid = some txn) (committed : Bool) :
    t.live.Perm (txn :: (t.finishOpen pid committed txn).live) := by
  rw [finishOpen, live_mark]
  exact (Assoc.values_perm_of_lookup hlookup).append_right _

theorem perm_finishPrepared (hlookup : t.preparedTxns.lookup id = some prep) (committed : Bool) :
    t.live.Perm (prep.body :: (t.finishPrepared id committed prep).live) := by
  rw [finishPrepared, live_mark]
  have hperm := ((Assoc.values_perm_of_lookup hlookup).map (·.body)).append_left
    (Assoc.values t.openTxns)
  exact hperm.trans perm_middle

section

variable (h : Agrees right t)

include h

/-- One transaction is over, in the right way. -/
theorem Agrees.over (hright : right txn.serial o)
    (hperm : t.live.Perm (txn :: t'.live)) (hnext : t'.nextSerial = t.nextSerial)
    (hprepared : ∀ e ∈ t'.preparedTxns.entries, e ∈ t.preparedTxns.entries)
    (hcommitted : t'.committed = if o then txn.serial :: t.committed else t.committed) :
    Agrees right t' := by
  have hmem {x : OpenTxn} : x ∈ t.live ↔ x = txn ∨ x ∈ t'.live := by
    rw [hperm.mem_iff, mem_cons]
  refine h.step hnext (fun x hx => ⟨x, hmem.mpr (.inr hx), rfl⟩)
    (fun e he => h.prepared e (hprepared e he)) (fun k hk => ?_) (fun k hk => ?_) fun x hx => ?_
  · rw [hcommitted] at hk
    split_ifs at hk with ho
    · rcases mem_cons.mp hk with rfl | hk
      · exact .inr ⟨⟨txn, hmem.mpr (.inl rfl), rfl⟩, ho ▸ hright⟩
      · exact .inl hk
    · exact .inl hk
  · rw [hcommitted]
    split_ifs
    · exact mem_cons_of_mem _ hk
    · exact hk
  · rcases hmem.mp hx with rfl | hx
    · refine .inr ?_
      cases o with
      | true => exact .inl (by rw [hcommitted]; exact mem_cons_self)
      | false => exact .inr hright
    · exact .inl ⟨x, hx, rfl⟩

theorem Agrees.finishOpen (hlookup : t.openTxns.lookup pid = some txn)
    (hright : right txn.serial o) : Agrees right (t.finishOpen pid o txn) := by
  refine h.over hright (perm_finishOpen hlookup o) (mark_nextSerial ..) (fun e he => ?_)
    (mark_committed _ o _)
  simpa [TxnTables.finishOpen] using he

theorem Agrees.finishPrepared (hlookup : t.preparedTxns.lookup id = some prep)
    (hright : right prep.body.serial o) : Agrees right (t.finishPrepared id o prep) := by
  refine h.over hright (perm_finishPrepared hlookup o) (mark_nextSerial ..) (fun e he => ?_)
    (mark_committed _ o _)
  rw [TxnTables.finishPrepared, mark_preparedTxns] at he
  exact Assoc.mem_of_mem_erase he

/-- The live transactions are the same by number. -/
theorem Agrees.same (hnext : t'.nextSerial = t.nextSerial) (hcommitted : t'.committed = t.committed)
    (hserials : (t.live.map (·.serial)).Perm (t'.live.map (·.serial)))
    (hprepared : ∀ e ∈ t'.preparedTxns.entries,
      e.2.transactionalId = e.1 ∧ right e.2.body.serial e.2.commit) : Agrees right t' := by
  refine h.step hnext (fun x hx => ?_) hprepared (fun k hk => .inl (hcommitted ▸ hk))
    (fun k hk => hcommitted ▸ hk) fun x hx => .inl ?_
  · exact mem_map.mp (hserials.mem_iff.mpr (mem_map_of_mem hx))
  · exact mem_map.mp (hserials.mem_iff.mp (mem_map_of_mem hx))

theorem Agrees.touches {epoch : Option Nat} (htouches : t.Touches pid epoch t') : Agrees right t' := by
  cases htouches with
  | same => exact h
  | changed hlookup hserial _ =>
    refine h.same rfl rfl ?_ h.prepared
    have hvalues := (Assoc.values_perm_of_lookup hlookup).map (·.serial)
    rw [map_cons, ← hserial] at hvalues
    unfold live
    rw [map_append, map_append]
    exact hvalues.append_right _

theorem Agrees.prepare (hopen : t.openTxns.lookup pid = some prep.body)
    (hnone : t.preparedTxns.lookup id = none) (hid : prep.transactionalId = id)
    (hright : right prep.body.serial prep.commit) : Agrees right (t.prepare pid id prep) := by
  have hvalues : Assoc.values (t.preparedTxns.insert id prep) =
      prep :: Assoc.values t.preparedTxns :=
    Assoc.values_insert_of_none hnone
  refine h.same rfl rfl (List.Perm.map _ ?_) (Assoc.forall_mem_insert ⟨hid, hright⟩ h.prepared)
  show t.live.Perm (Assoc.values (t.openTxns.erase pid) ++
    (Assoc.values (t.preparedTxns.insert id prep)).map (·.body))
  rw [hvalues]
  exact ((Assoc.values_perm_of_lookup hopen).append_right _).trans perm_middle.symm

theorem Agrees.ends (hends : t.Ends pid id o t')
    (hopen : ∀ txn ∈ t.openTxns.lookup pid, right txn.serial o)
    (hprepared : ∀ prep ∈ t.preparedTxns.lookup id, right prep.body.serial o) :
    Agrees right t' := by
  cases hends with
  | same => exact h
  | prepare prep hlookup hnone hid hcommit =>
    exact h.prepare hlookup hnone hid (hcommit ▸ hopen _ hlookup)
  | finishOpen hlookup => exact h.finishOpen hlookup (hopen _ hlookup)
  | finishPrepared hlookup => exact h.finishPrepared hlookup (hprepared _ hlookup)

/-- A prepared transaction goes back to open. -/
theorem Agrees.rollback (hprep : t.preparedTxns.lookup id = some prep)
    (hnone : t.openTxns.lookup prep.producerId = none) : Agrees right { t with
      preparedTxns := t.preparedTxns.erase id
      openTxns := t.openTxns.insert prep.producerId prep.body } := by
  have hvalues : Assoc.values (t.openTxns.insert prep.producerId prep.body) =
      prep.body :: Assoc.values t.openTxns :=
    Assoc.values_insert_of_none hnone
  have hperm := Assoc.values_perm_of_lookup hprep
  refine h.same rfl rfl (List.Perm.map _ ?_) fun e he => h.prepared e (Assoc.mem_of_mem_erase he)
  unfold live
  rw [hvalues]
  exact ((hperm.map (·.body)).append_left _).trans perm_middle

/-- A transaction begins, with the next number. -/
theorem Agrees.begin_ (hnone : t.openTxns.lookup pid = none)
    (hserial : txn.serial = t.nextSerial) (hright : ∀ k < t.nextSerial, ∀ o, right k o → right' k o)
    : Agrees right' { t with
      openTxns := t.openTxns.insert pid txn, nextSerial := t.nextSerial + 1 } := by
  have h' := h.congr hright
  have hlive : ({ t with openTxns := t.openTxns.insert pid txn
                         nextSerial := t.nextSerial + 1 } : TxnTables).live = txn :: t.live := by
    unfold live
    rw [Assoc.values_insert_of_none hnone]
    rfl
  refine ⟨fun x hx => ?_, h'.prepared, fun k hk => ?_, fun k hk hnot hdead => ?_⟩
  · rw [hlive] at hx
    rcases mem_cons.mp hx with rfl | hx
    · exact hserial ▸ Nat.lt_succ_self _
    · exact Nat.lt_succ_of_lt (h.below x hx)
  · exact ⟨Nat.lt_succ_of_lt (h'.committed k hk).1, (h'.committed k hk).2⟩
  · rw [hlive] at hdead
    have hne : t.nextSerial ≠ k := hserial ▸ hdead txn mem_cons_self
    have hk : k < t.nextSerial + 1 := hk
    exact h'.aborted k (by omega) hnot fun x hx => hdead x (mem_cons_of_mem _ hx)

end

end TxnTables

namespace State

variable {right right' : Nat → Bool → Prop} {s : State}

/-- The transactions that expiry aborts. -/
def expired (s : State) : List OpenTxn :=
  s.expiredOpenTxns.map (·.2.2) ++ s.expiredPreparedTxns.map (·.body)

theorem agrees_expire (h : s.txnTables.Agrees right)
    (hexpired : ∀ txn ∈ s.expired, right txn.serial false) :
    s.expireTimedOutTxns.txnTables.Agrees right := by
  have hopen := values_perm_expiredOpenTxns s
  have hprepared := values_perm_expiredPreparedTxns fun e he => (h.prepared e he).1
  rw [txnTables_expireTimedOutTxns]
  have hlive {txn : OpenTxn} (htxn : txn ∈ s.txnTables.live) : txn ∈ s.expired ∨
      txn ∈ ({ s.txnTables with openTxns := s.unexpiredOpenTxns
                                preparedTxns := s.unexpiredPreparedTxns } : TxnTables).live := by
    rcases mem_append.mp htxn with hin | hin
    · exact (mem_append.mp (hopen.subset hin)).imp (mem_append_left _)
        (mem_append_left _)
    · have hin := (hprepared.map (·.body)).subset hin
      rw [map_append] at hin
      exact (mem_append.mp hin).imp (mem_append_right _) (mem_append_right _)
  refine h.step rfl (fun txn htxn => ⟨txn, ?_, rfl⟩) (fun e he => ?_) (fun _ hk => .inl hk)
    (fun _ hk => hk) fun txn htxn => ?_
  · rcases mem_append.mp htxn with hin | hin
    · exact mem_append_left _ (hopen.symm.subset (mem_append_right _ hin))
    · refine mem_append_right _ ((hprepared.map (·.body)).symm.subset ?_)
      rw [map_append]
      exact mem_append_right _ hin
  · exact h.prepared e (Assoc.mem_of_mem_foldl_erase _ _ _ he)
  · exact (hlive htxn).elim (fun hin => .inr (.inr (hexpired txn hin)))
      fun hin => .inl ⟨txn, hin, rfl⟩

/-- The messages carry the decision. -/
def Decides (committed : Bool) : Txn2pcFanout → Prop
  | .none => True
  | .prepare m => m.commit = committed
  | .complete m => m.commit = committed

theorem decides_endTxnFanout (s : State) (pid epoch : Nat) (committed : Bool) :
    Decides committed (s.endTxnFanout pid epoch committed) := by
  unfold endTxnFanout
  simp only
  split
  · trivial
  · split
    · trivial
    · split
      · split
        · trivial
        · rfl
      · split
        · trivial
        · split
          · rfl
          · rfl

end State

/-! ## Brokers, clients and messages -/

/-- A message among brokers, about the transaction with this number. -/
inductive Fanout where
  | opens (txn : Nat) (m : ParticipantOpen)
  | prepare (txn : Nat) (m : ParticipantEnd)
  | complete (txn : Nat) (m : ParticipantEnd)
deriving DecidableEq

variable (decision : Nat → Bool)

/-- The message carries the client's decision. -/
def Fanout.Decided : Fanout → Prop
  | .opens _ _ => True
  | .prepare txn m | .complete txn m => m.commit = decision txn

structure TwoPhase where
  brokers : Nat → State
  /-- Messages stay: they can be delivered late, again, or never. -/
  messages : List Fanout
  /-- EndTxn handlers that wait for the votes on a prepare. -/
  preparing : List (Nat × String)
  /-- History: the transactions that clients have begun, and the one that a broker's own
  transaction is a part of. -/
  begun : Nat
  txnOf : Nat → Nat → Nat

namespace TwoPhase

inductive Event where
  | clock (b : Nat) (nowMs : Int)
  | sweep (b : Nat)
  | beginTxn (b producerId producerEpoch : Nat)
  /-- The client writes in its transaction `txn`. -/
  | produce (b txn producerId producerEpoch : Nat) (tp : TopicPartition) (baseSequence : Int)
      (messages : List Message)
  /-- The client ends its transaction `txn`. -/
  | endTxn (b txn producerId producerEpoch : Nat) (offsets : List DeferredOffset)
  | rollback (b : Nat) (transactionalId : String)
  | deliver (b : Nat) (m : Fanout)

variable (c : TwoPhase) {b txn : Nat}

def setBroker (b : Nat) (s : State) : TwoPhase := { c with brokers := update c.brokers b s }

/-- The next transaction of broker `b` is a part of `txn`. -/
def label (b txn : Nat) : Nat → Nat → Nat :=
  update c.txnOf b
    (update (c.txnOf b) (c.brokers b).nextSerial txn)

/-- The messages of an EndTxn, and whether its handler waits for votes. -/
def send (b txn : Nat) : Txn2pcFanout → TwoPhase
  | .none => c
  | .prepare m => { c with
      messages := .prepare txn m :: c.messages
      preparing := (b, m.transactionalId) :: c.preparing }
  | .complete m => { c with messages := .complete txn m :: c.messages }

/-- A step. `decision` is what the client decides for each of its transactions. -/
def step : Event → TwoPhase
  | .clock b nowMs => c.setBroker b { c.brokers b with nowMs }
  | .sweep b => c.setBroker b (c.brokers b).expireTimedOutTxns
  | .beginTxn b pid epoch =>
    let (code, s) := (c.brokers b).beginTxn pid epoch
    if code = .ok then
      { c.setBroker b s with
        messages := ((s.txn2pcOpenFanout pid).map (.opens c.begun)).toList ++ c.messages
        begun := c.begun + 1
        txnOf := c.label b c.begun }
    else c.setBroker b s
  | .produce b _ pid epoch tp baseSequence messages =>
    c.setBroker b ((c.brokers b).bufferTxnProduce pid epoch tp baseSequence messages).2
  | .endTxn b txn pid epoch offsets =>
    let s := c.brokers b
    (c.send b txn (s.endTxnFanout pid epoch (decision txn))).setBroker b
      (s.endTxn pid epoch (decision txn) offsets).2.2
  | .rollback b id => c.setBroker b ((c.brokers b).rollbackLocalPrepare id)
  | .deliver b (.opens txn m) =>
    { c.setBroker b ((c.brokers b).handleTxnParticipantOpen m).2 with txnOf := c.label b txn }
  | .deliver b (.prepare _ m) => c.setBroker b ((c.brokers b).handleTxnParticipantPrepare m).2
  | .deliver b (.complete _ m) => c.setBroker b ((c.brokers b).handleTxnParticipantComplete m).2

def Enabled (c : TwoPhase) : Event → Prop
  | .produce _ txn _ _ _ _ _ => txn < c.begun
  | .endTxn _ txn _ _ _ => txn < c.begun
  | .rollback b id => (b, id) ∈ c.preparing
  | .deliver _ m => m ∈ c.messages
  | _ => True

/-- Whatever has timed out on the broker, the client aborts. -/
def OnTime (b : Nat) : Prop :=
  ∀ txn ∈ (c.brokers b).expired, decision (c.txnOf b txn.serial) = false

/-- What the broker has open for the producer is a part of `txn`. -/
def OpenIs (b txn pid : Nat) : Prop :=
  ∀ open_ ∈ (c.brokers b).openTxns.lookup pid, c.txnOf b open_.serial = txn

/-- What the broker has prepared for the transactional id is a part of `txn`. -/
def PreparedIs (b txn : Nat) (id : String) : Prop :=
  ∀ prep ∈ (c.brokers b).preparedTxns.lookup id, c.txnOf b prep.body.serial = txn

/-- No transaction that the client commits times out, and what reaches a broker about a
transaction finds no part of another one of the same producer. -/
def Undisturbed (decision : Nat → Bool) (c : TwoPhase) : Event → Prop
  | .clock _ _ => True
  | .sweep b => c.OnTime decision b
  | .beginTxn b _ _ => c.OnTime decision b
  | .produce b txn pid _ _ _ _ => c.OnTime decision b ∧ c.OpenIs b txn pid
  | .endTxn b txn pid _ _ => c.OnTime decision b ∧ c.OpenIs b txn pid ∧
    ∀ prod ∈ (c.brokers b).producers.lookup pid, c.PreparedIs b txn prod.transactionalId
  | .rollback b id => ∀ prep ∈ (c.brokers b).preparedTxns.lookup id,
    (c.brokers b).openTxns.lookup prep.producerId = none
  | .deliver b (.opens txn m) => c.OpenIs b txn m.producerId
  | .deliver b (.prepare txn m) => c.OpenIs b txn m.producerId
  | .deliver b (.complete txn m) =>
    c.OpenIs b txn m.producerId ∧ c.PreparedIs b txn m.transactionalId

/-- Brokers that know any producers but have had no transaction yet. -/
structure Start (c : TwoPhase) : Prop where
  openTxns : ∀ b, (c.brokers b).openTxns = ∅
  preparedTxns : ∀ b, (c.brokers b).preparedTxns = ∅
  committed : ∀ b, (c.brokers b).committed = []
  nextSerial : ∀ b, (c.brokers b).nextSerial = 0
  messages : c.messages = []

/-- The runs in which every step meets the condition. -/
inductive Reachable (decision : Nat → Bool) : TwoPhase → Prop
  | start {c : TwoPhase} (h : Start c) : Reachable decision c
  | step {c : TwoPhase} (h : Reachable decision c) (e : Event) (henabled : c.Enabled e)
      (hundisturbed : c.Undisturbed decision e) : Reachable decision (c.step decision e)

/-! ## The invariant -/

variable {c} {decision : Nat → Bool}

/-- The client has decided that way on the transaction which the broker's own is a part of. -/
def Right (decision : Nat → Bool) (txnOf : Nat → Nat) (serial : Nat) (o : Bool) : Prop :=
  decision (txnOf serial) = o

structure Inv (decision : Nat → Bool) (c : TwoPhase) : Prop where
  agrees : ∀ b, (c.brokers b).txnTables.Agrees (Right decision (c.txnOf b))
  messages : ∀ m ∈ c.messages, m.Decided decision

theorem Start.inv (h : Start c) : Inv decision c := by
  refine ⟨fun b => ?_, fun m hm => ?_⟩
  · have htables : (c.brokers b).txnTables = ⟨∅, ∅, [], 0⟩ := by
      rw [State.txnTables, h.openTxns, h.preparedTxns, h.committed, h.nextSerial]
    rw [htables]
    exact ⟨nofun, nofun, nofun, fun k hk => absurd hk (Nat.not_lt_zero k)⟩
  · rw [h.messages] at hm
    cases hm

/-- One broker changes and the labels stay. -/
theorem Inv.setBroker (h : Inv decision c) {s : State}
    (hs : s.txnTables.Agrees (Right decision (c.txnOf b))) : Inv decision (c.setBroker b s) := by
  refine ⟨fun b' => ?_, h.messages⟩
  rcases eq_or_ne b' b with rfl | hne
  · simpa [setBroker] using hs
  · simpa [TwoPhase.setBroker, hne] using h.agrees b'

/-- One broker changes and its next transaction is labelled. -/
theorem Inv.labelled (h : Inv decision c) {s : State}
    (hs : s.txnTables.Agrees (Right decision (c.label b txn b))) :
    Inv decision { c.setBroker b s with txnOf := c.label b txn } := by
  refine ⟨fun b' => ?_, h.messages⟩
  rcases eq_or_ne b' b with rfl | hne
  · simpa [TwoPhase.setBroker] using hs
  · have hlabel : c.label b txn b' = c.txnOf b' := update_of_ne hne _ _
    simpa [TwoPhase.setBroker, hne, hlabel] using h.agrees b'

/-- The label of a number that is taken does not change. -/
theorem right_label {k : Nat} (hk : k < (c.brokers b).nextSerial) {o : Bool}
    (h : Right decision (c.txnOf b) k o) : Right decision (c.label b txn b) k o := by
  unfold Right label
  rw [update_self, update_of_ne hk.ne]
  exact h

theorem Inv.expire (h : Inv decision c) (hontime : c.OnTime decision b) :
    (c.brokers b).expireTimedOutTxns.txnTables.Agrees (Right decision (c.txnOf b)) :=
  State.agrees_expire (h.agrees b) hontime

theorem nextSerial_expire (s : State) : s.expireTimedOutTxns.nextSerial = s.nextSerial :=
  congrArg TxnTables.nextSerial (State.txnTables_expireTimedOutTxns s)

theorem Inv.beginTxn (h : Inv decision c) (hontime : c.OnTime decision b) (pid epoch : Nat) :
    Inv decision (c.step decision (.beginTxn b pid epoch)) := by
  have hexpire := h.expire hontime
  unfold step
  simp only
  rcases State.beginTxn_cases (c.brokers b) pid epoch with
    ⟨code, hcode, heq⟩ | ⟨prod, -, -, -, hnone, heq⟩
  · rw [heq, if_neg hcode]
    exact h.setBroker hexpire
  · rw [heq]
    let s₁ := (c.brokers b).expireTimedOutTxns
    have hbegin : ({ s₁ with openTxns := s₁.openTxns.insert pid (s₁.newTxn epoch)
                             nextSerial := s₁.nextSerial + 1 } : State).txnTables.Agrees
        (Right decision (c.label b c.begun b)) := by
      refine hexpire.begin_ hnone rfl fun k hk o hright => right_label ?_ hright
      rw [← nextSerial_expire]
      exact hk
    refine ⟨(h.labelled hbegin).agrees, fun m hm => ?_⟩
    rcases mem_append.mp hm with hm | hm
    · obtain ⟨_, -, heq⟩ := Option.map_eq_some_iff.mp (Option.mem_toList.mp hm)
      exact heq ▸ trivial
    · exact h.messages m hm

theorem Inv.produce (h : Inv decision c) (hontime : c.OnTime decision b) (txn pid epoch : Nat)
    (tp : TopicPartition) (baseSequence : Int) (messages : List Message) :
    Inv decision (c.step decision (.produce b txn pid epoch tp baseSequence messages)) := by
  have hexpire := h.expire hontime
  exact h.setBroker (hexpire.touches
    (State.bufferTxnProduce_tables (c.brokers b) pid epoch tp baseSequence messages))

theorem Inv.send (h : Inv decision c) {fanout : Txn2pcFanout}
    (hdecides : State.Decides (decision txn) fanout) : Inv decision (c.send b txn fanout) := by
  cases fanout with
  | none => exact h
  | prepare m => exact ⟨h.agrees, forall_mem_cons.mpr ⟨hdecides, h.messages⟩⟩
  | complete m => exact ⟨h.agrees, forall_mem_cons.mpr ⟨hdecides, h.messages⟩⟩

theorem txnOf_send (c : TwoPhase) (b txn : Nat) (fanout : Txn2pcFanout) :
    (c.send b txn fanout).txnOf = c.txnOf := by
  cases fanout <;> rfl

theorem Inv.endTxn (h : Inv decision c) {pid : Nat} (hontime : c.OnTime decision b)
    (hopen : c.OpenIs b txn pid) (hprepared : ∀ prod ∈ (c.brokers b).producers.lookup pid,
      c.PreparedIs b txn prod.transactionalId) (epoch : Nat) (offsets : List DeferredOffset) :
    Inv decision (c.step decision (.endTxn b txn pid epoch offsets)) := by
  have hexpire := h.expire hontime
  refine (h.send (State.decides_endTxnFanout (c.brokers b) pid epoch (decision txn))).setBroker ?_
  rw [txnOf_send]
  rcases State.endTxn_tables (c.brokers b) pid epoch (decision txn) offsets with
    heq | ⟨prod, hprod, hends⟩
  · rw [heq]
    exact hexpire
  · rw [State.producers_expire] at hprod
    refine hexpire.ends hends (fun open_ hlookup => congrArg decision ?_)
      fun prep hlookup => congrArg decision ?_
    · exact hopen open_ (State.lookup_openTxns_expire hlookup)
    · exact hprepared prod hprod prep (State.lookup_preparedTxns_expire hlookup)

theorem Inv.deliver (h : Inv decision c) {m : Fanout} (hm : m ∈ c.messages)
    (hundisturbed : c.Undisturbed decision (.deliver b m)) :
    Inv decision (c.step decision (.deliver b m)) := by
  have hagrees := h.agrees b
  cases m with
  | opens txn m =>
    refine h.labelled ?_
    have hlabel : (c.brokers b).txnTables.Agrees (Right decision (c.label b txn b)) :=
      hagrees.congr fun k hk o => right_label hk
    rcases State.handleTxnParticipantOpen_tables (c.brokers b) m with
      htouches | ⟨hnone, -, open_, hserial, -, heq⟩
    · exact hlabel.touches htouches
    · rw [heq]
      exact hagrees.begin_ hnone hserial fun k hk o => right_label hk
  | prepare txn m =>
    refine h.setBroker ?_
    rcases State.handleTxnParticipantPrepare_tables (c.brokers b) m with
      heq | ⟨prep, hlookup, hnone, hid, -, -, hcommit, heq⟩
    · rw [heq]
      exact hagrees
    · rw [heq]
      refine hagrees.prepare hlookup hnone hid ?_
      rw [hcommit, h.messages _ hm]
      exact congrArg decision (hundisturbed prep.body hlookup)
  | complete txn m =>
    obtain ⟨hopen, hprepared⟩ := hundisturbed
    have hcommit : m.commit = decision txn := h.messages _ hm
    refine h.setBroker (hagrees.ends (State.handleTxnParticipantComplete_ends (c.brokers b) m)
      (fun open_ hlookup => ?_) fun prep hlookup => ?_)
    · exact (congrArg decision (hopen open_ hlookup)).trans hcommit.symm
    · exact (congrArg decision (hprepared prep hlookup)).trans hcommit.symm

theorem Inv.step (h : Inv decision c) {e : Event} (henabled : c.Enabled e)
    (hundisturbed : c.Undisturbed decision e) : Inv decision (c.step decision e) := by
  cases e with
  | clock b nowMs => exact h.setBroker (h.agrees b)
  | sweep b => exact h.setBroker (h.expire hundisturbed)
  | beginTxn b pid epoch => exact h.beginTxn hundisturbed pid epoch
  | produce b txn pid epoch tp baseSequence messages =>
    exact h.produce hundisturbed.1 txn pid epoch tp baseSequence messages
  | endTxn b txn pid epoch offsets =>
    obtain ⟨hontime, hopen, hprepared⟩ := hundisturbed
    exact h.endTxn hontime hopen hprepared epoch offsets
  | rollback b id =>
    refine h.setBroker ?_
    rcases State.rollbackLocalPrepare_tables (c.brokers b) id with heq | ⟨prep, hprep, heq⟩
    · rw [heq]
      exact h.agrees b
    · rw [heq]
      exact (h.agrees b).rollback hprep (hundisturbed prep hprep)
  | deliver b m => exact h.deliver henabled hundisturbed

theorem Reachable.inv (h : Reachable decision c) : Inv decision c := by
  induction h with
  | start h => exact h.inv
  | step _ e henabled hundisturbed ih => exact ih.step henabled hundisturbed

/-- Two brokers that have finalized their parts of one transaction have done it the same way. -/
theorem finalized_alike (h : Reachable decision c) {b b' k k' : Nat} {o o' : Bool}
    (hsame : c.txnOf b k = c.txnOf b' k') (ho : (c.brokers b).txnTables.outcome k = some o)
    (ho' : (c.brokers b').txnTables.outcome k' = some o') : o = o' := by
  have hright : decision (c.txnOf b k) = o := (h.inv.agrees b).outcome ho
  have hright' : decision (c.txnOf b' k') = o' := (h.inv.agrees b').outcome ho'
  rw [← hright, ← hright', hsame]

/-! ## A commit on two brokers, and a timeout between the phases -/

instance (c : TwoPhase) (e : Event) : Decidable (c.Enabled e) := by
  cases e <;> unfold Enabled <;> infer_instance

instance (c : TwoPhase) (b txn pid : Nat) : Decidable (c.OpenIs b txn pid) := by
  unfold OpenIs
  infer_instance

instance (c : TwoPhase) (b txn : Nat) (id : String) : Decidable (c.PreparedIs b txn id) := by
  unfold PreparedIs
  infer_instance

instance (decision : Nat → Bool) (c : TwoPhase) (b : Nat) : Decidable (OnTime decision c b) := by
  unfold OnTime
  infer_instance

instance (decision : Nat → Bool) (c : TwoPhase) (e : Event) :
    Decidable (c.Undisturbed decision e) := by
  cases e with
  | deliver b m => cases m <;> (unfold Undisturbed; infer_instance)
  | _ => unfold Undisturbed; infer_instance

/-- The state after some events. -/
def follow (decision : Nat → Bool) (c : TwoPhase) (es : List Event) : TwoPhase :=
  es.foldl (step decision) c

/-- Every event of the list can happen, and meets the condition. -/
def Follows (allowed : TwoPhase → Event → Prop) (decision : Nat → Bool) :
    TwoPhase → List Event → Prop
  | _, [] => True
  | c, e :: es => (c.Enabled e ∧ allowed c e) ∧ Follows allowed decision (c.step decision e) es

instance (allowed : TwoPhase → Event → Prop) [∀ c e, Decidable (allowed c e)]
    (decision : Nat → Bool) : ∀ (c : TwoPhase) (es : List Event),
      Decidable (Follows allowed decision c es)
  | _, [] => .isTrue trivial
  | c, e :: es =>
    have := instDecidableFollows allowed decision (c.step decision e) es
    inferInstanceAs (Decidable (_ ∧ _))

theorem Reachable.follow (h : Reachable decision c) {es : List Event}
    (hes : Follows (Undisturbed decision) decision c es) :
    Reachable decision (c.follow decision es) := by
  induction es generalizing c with
  | nil => exact h
  | cons e es ih =>
    obtain ⟨⟨henabled, hundisturbed⟩, hrest⟩ := hes
    exact ih (h.step e henabled hundisturbed) hrest

/-- A prepared transaction may wait for a second. -/
def preparedOneSecond : Config :=
  { openTxnTimeoutMs := 0, preparedTxnTimeoutMs := 1000, transactionMaxTimeoutMs := 0 }

/-- Broker 0 has handed the producer id 1 to the two-phase producer `a`, and the others have
learned it. -/
def twoBrokers : TwoPhase where
  brokers b :=
    let s := (State.fresh preparedOneSecond).createPartition State.orders
    if b = 0 then (s.initProducerIdWithOpts "a" true false 0).2
    else (s.handleTxnParticipantOpen ⟨"a", 1, 0, true, false⟩).2
  messages := []
  preparing := []
  begun := 0
  txnOf _ _ := 0

theorem start_twoBrokers : twoBrokers.Start := by
  have hcases (P : State → Prop)
      (hzero : P (twoBrokers.brokers 0)) (hother : P (twoBrokers.brokers 1)) (b : Nat) :
      P (twoBrokers.brokers b) := by
    by_cases hb : b = 0
    · subst hb; exact hzero
    · have hsame : twoBrokers.brokers b = twoBrokers.brokers 1 := by simp [twoBrokers, hb]
      rw [hsame]; exact hother
  exact {
    openTxns b := AList.ext (isEmpty_iff.mp
      (hcases (·.openTxns.entries.isEmpty) (by decide +kernel) (by decide +kernel) b))
    preparedTxns b := AList.ext (isEmpty_iff.mp
      (hcases (·.preparedTxns.entries.isEmpty) (by decide +kernel) (by decide +kernel) b))
    committed := hcases (·.committed = []) (by decide +kernel) (by decide +kernel)
    nextSerial := hcases (·.nextSerial = 0) (by decide +kernel) (by decide +kernel)
    messages := rfl }

/-- The producer begins on broker 0, writes to both brokers, and the commit is prepared on both. -/
def preparedOnBoth : List Event :=
  [.beginTxn 0 1 0, .deliver 1 (.opens 0 ⟨"a", 1, 0, true, true⟩),
   .produce 0 0 1 0 State.orders 0 [State.order 7], .produce 1 0 1 0 State.orders 0 [State.order 8],
   .endTxn 0 0 1 0 [], .deliver 1 (.prepare 0 ⟨"a", 1, 0, true⟩)]

/-- The second `EndTxn` completes on broker 0 and sends `Complete` to broker 1. -/
def completedOnBoth : List Event :=
  preparedOnBoth ++ [.endTxn 0 0 1 0 [], .deliver 1 (.complete 0 ⟨"a", 1, 0, true⟩)]

theorem reachable_completedOnBoth :
    Reachable (fun _ => true) (twoBrokers.follow (fun _ => true) completedOnBoth) :=
  (Reachable.start start_twoBrokers).follow (by decide +kernel)

/-- Broker 0 has committed, so broker 1, which has finalized too, cannot have aborted. -/
theorem committed_on_both :
    let c := twoBrokers.follow (fun _ => true) completedOnBoth
    (c.brokers 0).txnTables.outcome 0 = some true ∧
      ((c.brokers 1).txnTables.outcome 0).isSome ∧
      ∀ o, (c.brokers 1).txnTables.outcome 0 = some o → o = true := by
  intro c
  have hsame : c.txnOf 1 0 = c.txnOf 0 0 := by decide +kernel
  have hzero : (c.brokers 0).txnTables.outcome 0 = some true := by decide +kernel
  refine ⟨hzero, by decide +kernel, fun o ho => ?_⟩
  exact finalized_alike reachable_completedOnBoth hsame ho hzero

/-- Broker 1 aborts its prepared part when the timeout has passed there, and broker 0 commits
its own when the client completes. -/
theorem prepared_timeout_splits :
    let c := twoBrokers.follow (fun _ => true)
      (preparedOnBoth ++ [.clock 1 5000, .sweep 1, .endTxn 0 0 1 0 []])
    Follows (fun _ _ => True) (fun _ => true) twoBrokers
        (preparedOnBoth ++ [.clock 1 5000, .sweep 1, .endTxn 0 0 1 0 []]) ∧
      c.txnOf 0 0 = c.txnOf 1 0 ∧ (c.brokers 0).txnTables.outcome 0 = some true ∧
      (c.brokers 1).txnTables.outcome 0 = some false := by
  decide +kernel

end TwoPhase
end Volant.Broker
