-- SUMMARY: Histories of a standalone broker with crashes, and the invariant along every history.
import Volant.Broker.Restart

/-!
# Histories

The operations of a broker as one type, their effect, and histories of them.
A crash cuts an operation short after one of its durable steps and restarts
the broker over the disk as it then is. A crash before the first or after the
last durable step of an operation is a restart between two operations.
-/

namespace Volant.Broker

open Function

inductive Op where
  | clock (nowMs : Int)
  | createPartition (tp : TopicPartition)
  | produce (tp : TopicPartition) (messages : List Message)
  | initProducerId (transactionalId : String) (enable2pc keepPrepared : Bool) (timeoutMs : Int)
  | beginTxn (producerId producerEpoch : Nat)
  | ensureTxnOpen (producerId producerEpoch : Nat)
  | recordTxnAddedPartitions (producerId : Nat) (partitions : List TopicPartition)
  | bufferTxnProduce (producerId producerEpoch : Nat) (tp : TopicPartition) (baseSequence : Int)
      (messages : List Message)
  | bufferTxnOffsets (producerId producerEpoch : Nat) (offsets : List DeferredOffset)
  | endTxn (producerId producerEpoch : Nat) (committed : Bool) (offsets : List DeferredOffset)
  | sweepTimedOutTxns
  | fetch (tp : TopicPartition) (start maxMessages : Nat) (isolation : State.FetchIsolation)
  | restart (nowMs : Int)

def Op.isRestart : Op → Bool
  | .restart _ => true
  | _ => false

namespace State

/-- The state before an operation, which has taken no durable step yet. -/
def idle (s : State) : State := { s with trace := [] }

def createPartition (s : State) (tp : TopicPartition) : State :=
  match s.partitions tp with
  | some _ => s
  | none => { s with
      partitions := update s.partitions tp (some (Partition.openSingle [] 0)) }.durable
        .createPartition

/-- The state in which an operation leaves the broker. -/
def exec (s : State) (op : Op) : State :=
  match op with
  | .clock nowMs => { s.idle with nowMs }
  | .createPartition tp => s.idle.createPartition tp
  | .produce tp messages => (s.idle.produce tp messages .plain .plainAppend).2
  | .initProducerId id enable2pc keepPrepared timeoutMs =>
    (s.idle.initProducerIdWithOpts id enable2pc keepPrepared timeoutMs).2
  | .beginTxn pid epoch => (s.idle.beginTxn pid epoch).2
  | .ensureTxnOpen pid epoch => (s.idle.ensureTxnOpen pid epoch).2
  | .recordTxnAddedPartitions pid partitions => (s.idle.recordTxnAddedPartitions pid partitions).2
  | .bufferTxnProduce pid epoch tp baseSequence messages =>
    (s.idle.bufferTxnProduce pid epoch tp baseSequence messages).2
  | .bufferTxnOffsets pid epoch offsets => (s.idle.bufferTxnOffsets pid epoch offsets).2
  | .endTxn pid epoch committed offsets => (s.idle.endTxn pid epoch committed offsets).2.2
  | .sweepTimedOutTxns => s.idle.expireTimedOutTxns
  | .fetch tp start maxMessages isolation => (s.idle.fetchUpTo tp start maxMessages isolation).2
  | .restart nowMs => State.restart s.disk s.config nowMs s.nextSerial s.committed

/-- The state after a list of operations. -/
def serve (s : State) (ops : List Op) : State := ops.foldl exec s

/-! ## Conditions on an operation, in the state before it -/

/-- A transactional batch fits the integers that count it. -/
def Fits (s : State) : Op → Prop
  | .bufferTxnProduce _ _ tp _ messages => s.idle.expireTimedOutTxns.BatchFits tp messages
  | _ => True

/-- No abort of the operation covers a record that counts, no commit finds its records covered by
an earlier abort, and no transactional batch looks like a control marker. -/
def Clean (s : State) : Op → Prop
  | .clock _ | .createPartition _ | .produce _ _ | .recordTxnAddedPartitions _ _ => True
  | .initProducerId id _ keepPrepared _ => s.idle.CleanExpiry ∧
    ∀ txn ∈ s.idle.expireTimedOutTxns.fencedTxns id keepPrepared,
      s.idle.expireTimedOutTxns.CleanHull txn
  | .beginTxn _ _ | .ensureTxnOpen _ _ | .bufferTxnOffsets _ _ _ | .sweepTimedOutTxns =>
    s.idle.CleanExpiry
  | .bufferTxnProduce _ _ _ _ messages => s.idle.CleanExpiry ∧
    ∀ m ∈ messages, isTxnControl m.headers = false
  | .endTxn pid _ committed _ => s.idle.CleanExpiry ∧
    ∀ txn ∈ s.idle.expireTimedOutTxns.endingTxn pid,
      s.idle.expireTimedOutTxns.CleanEnd committed txn
  | .fetch _ _ _ isolation => isolation ≠ .readUncommitted → s.idle.CleanExpiry
  | .restart nowMs => (loaded s.disk s.config nowMs s.nextSerial s.committed).CleanExpiry

/-! ## The conditions can be decided -/

instance (committed : List Nat) : ∀ g : Origin, Decidable (g.Discardable committed)
  | .plain => .isFalse (by simp [Origin.Discardable])
  | .control => .isTrue (.inl rfl)
  | .txn n => decidable_of_iff (n ∉ committed) (by simp [Origin.Discardable])

theorem cleanHull_iff {s : State} {txn : OpenTxn} : s.CleanHull txn ↔
    ∀ tp ∈ txn.written.map (·.tp), ∀ hull ∈ hullAt tp txn.written, ∀ o < hull.2, hull.1 ≤ o →
      ∃ g ∈ (s.origins tp)[o]?, g.Discardable s.committed := by
  constructor
  · intro h tp _ hull hhull o hlt hle
    exact h tp o ((inHull_iff hhull).mpr ⟨hle, hlt⟩)
  · rintro h tp o hin
    have htp := hin.mem_tps
    obtain ⟨first, last, hhull, hle, hlt⟩ := hin
    exact h tp htp (first, last) hhull o hlt hle

instance (s : State) (txn : OpenTxn) : Decidable (s.CleanHull txn) :=
  decidable_of_iff _ cleanHull_iff.symm

instance (s : State) : Decidable s.CleanExpiry :=
  inferInstanceAs (Decidable ((∀ e ∈ s.expiredOpenTxns, s.CleanHull e.2.2) ∧
    ∀ p ∈ s.expiredPreparedTxns, s.CleanHull p.body))

theorem notAborted_iff {s : State} {txn : OpenTxn} :
    (∀ tp o, Covered txn.written tp o → ¬ s.Aborted tp o) ↔
      ∀ r ∈ txn.written, ∀ o < r.endOffset, r.firstOffset ≤ o → s.isAbortedOffset r.tp o = false := by
  simp only [← isAbortedOffset_iff, Bool.not_eq_true]
  constructor
  · exact fun h r hr o hlt hle => h r.tp o ⟨r, hr, rfl, hle, hlt⟩
  · rintro h tp o ⟨r, hr, rfl, hle, hlt⟩
    exact h r hr o hlt hle

instance (s : State) : ∀ (committed : Bool) (txn : OpenTxn), Decidable (s.CleanEnd committed txn)
  | true, _ => decidable_of_iff _ (notAborted_iff (s := s)).symm
  | false, txn => inferInstanceAs (Decidable (s.CleanHull txn))

instance (s : State) : ∀ op : Op, Decidable (s.Clean op)
  | .clock _ | .createPartition _ | .produce _ _ | .recordTxnAddedPartitions _ _ => .isTrue trivial
  | .initProducerId _ _ _ _ => inferInstanceAs (Decidable (_ ∧ _))
  | .beginTxn _ _ | .ensureTxnOpen _ _ | .bufferTxnOffsets _ _ _ | .sweepTimedOutTxns =>
    inferInstanceAs (Decidable s.idle.CleanExpiry)
  | .bufferTxnProduce _ _ _ _ _ => inferInstanceAs (Decidable (_ ∧ _))
  | .endTxn _ _ _ _ => inferInstanceAs (Decidable (_ ∧ _))
  | .fetch _ _ _ _ => inferInstanceAs (Decidable (_ → _))
  | .restart _ => inferInstanceAs (Decidable (loaded _ _ _ _ _).CleanExpiry)

instance (s : State) (tp : TopicPartition) (messages : List Message) :
    Decidable (s.BatchFits tp messages) :=
  inferInstanceAs (Decidable (_ ∧ ∀ p ∈ s.partitions tp, p.leo + messages.length ≤ u64Max))

instance (s : State) : ∀ op : Op, Decidable (s.Fits op)
  | .bufferTxnProduce _ _ _ _ _ => inferInstanceAs (Decidable (BatchFits _ _ _))
  | .clock _ | .createPartition _ | .produce _ _ | .initProducerId _ _ _ _ | .beginTxn _ _
  | .ensureTxnOpen _ _ | .recordTxnAddedPartitions _ _ | .bufferTxnOffsets _ _ _
  | .endTxn _ _ _ _ | .sweepTimedOutTxns | .fetch _ _ _ _ | .restart _ => .isTrue trivial

variable {exact : Prop} {s s' : State}

theorem Inv.idle (h : Inv exact s) : Settled exact True s.idle :=
  ⟨⟨⟨h.mem.logs, h.mem.settled, h.mem.ledger, h.mem.keys⟩, h.fresh, h.prepared⟩,
    fun _ _ he => absurd he List.not_mem_nil⟩

theorem Settled.createPartition {steps : Prop} (h : Settled exact steps s) (tp : TopicPartition) :
    Goes exact steps s (s.createPartition tp) := by
  unfold State.createPartition
  split
  · exact ⟨h, .refl s⟩
  next hnone =>
    set s₁ : State := { s with
      partitions := update s.partitions tp (some (Partition.openSingle [] 0)) }
    have hlogs : s₁.disk.logs = update s.disk.logs tp (some []) := by
      funext tp'
      rcases eq_or_ne tp' tp with rfl | hne
      · simp [s₁, disk, Partition.openSingle]
      · simp [s₁, disk, hne]
    have hok : LogsOk exact s₁.disk.logs s.origins := by
      rw [hlogs]
      refine ⟨fun tp' => ?_, fun tp' log hlog => ?_, fun tp' log o r g hlog hr => ?_⟩
      · rcases eq_or_ne tp' tp with rfl | hne
        · rw [h.mem.logs.length tp']
          simp [disk, hnone]
        · rw [update_of_ne hne]
          exact h.mem.logs.length tp'
      · rcases Assoc.of_update hlog with ⟨rfl, ⟨⟩⟩ | ⟨-, hlog⟩
        · trivial
        · exact h.mem.logs.gapFree tp' log hlog
      · rcases Assoc.of_update hlog with ⟨rfl, ⟨⟩⟩ | ⟨-, hlog⟩
        · simp at hr
        · exact h.mem.logs.marked tp' log o r g hlog hr
    have hmem : MemoryOk exact [] (s₁.durable .createPartition) := by
      refine ⟨hok, fun tp' p hp => ?_, h.mem.ledger, h.mem.keys⟩
      rcases Assoc.of_update hp with ⟨rfl, ⟨⟩⟩ | ⟨-, hp⟩
      · exact ⟨rfl, rfl⟩
      · exact h.mem.settled tp' p hp
    have hinv : Inv exact (s₁.durable .createPartition) := ⟨hmem, h.fresh, h.prepared⟩
    refine ⟨⟨hinv, fun hsteps => ?_⟩, rfl, rfl, rfl, rfl, fun _ => List.prefix_rfl,
      fun _ _ ha => ha⟩
    exact (h.trace hsteps).grow (.inr ⟨.createPartition, rfl⟩) (.others s) hinv.diskOk

theorem Goes.ends {steps : Prop} (h : Goes exact steps s s') : Ends exact steps s s' :=
  h.settled.ends h.later

/-- An operation starts in the idle state. -/
theorem Ends.of_idle {steps steps' : Prop} (h : Ends exact steps s.idle s')
    (hw : steps' → steps) : Ends exact steps' s s' :=
  ⟨h.inv, fun hsteps => h.trace (hw hsteps)⟩

/-- Every operation keeps the invariant, and leaves accounted-for disks on the way if it does not
expire two open transactions at once. -/
theorem Inv.exec (h : Inv exact s) (op : Op) (hfits : s.Fits op) (hclean : exact → s.Clean op) :
    Ends exact (s.expiredOpenTxns.length ≤ 1) s (s.exec op) := by
  have hidle := h.idle
  have hone : s.expiredOpenTxns.length ≤ 1 → True ∧ s.idle.expiredOpenTxns.length ≤ 1 :=
    fun hle => ⟨trivial, hle⟩
  cases op with
  | clock nowMs =>
    refine ⟨⟨⟨h.mem.logs, h.mem.settled, h.mem.ledger, h.mem.keys⟩, h.fresh, h.prepared⟩, ?_⟩
    exact fun _ _ he => absurd he List.not_mem_nil
  | createPartition tp => exact (hidle.createPartition tp).ends.of_idle fun _ => trivial
  | produce tp messages =>
    obtain ⟨hmid, hk⟩ := hidle.mid.produce tp messages (g := .plain)
      (fun n => by simp) (fun _ _ => trivial) .plainAppend
    exact ((hmid.settled (hk.fresh hidle.fresh) (hk.preparedSynced hidle.prepared)).ends
      hk.grows.toLater).of_idle fun _ => trivial
  | initProducerId id enable2pc keepPrepared timeoutMs =>
    exact (hidle.initProducerIdWithOpts (fun hex => (hclean hex).1) id enable2pc keepPrepared
      timeoutMs fun hex => (hclean hex).2).ends.of_idle hone
  | beginTxn pid epoch => exact (hidle.beginTxn hclean pid epoch).of_idle hone
  | ensureTxnOpen pid epoch => exact (hidle.ensureTxnOpen hclean pid epoch).of_idle hone
  | recordTxnAddedPartitions pid partitions =>
    exact (hidle.recordTxnAddedPartitions pid partitions).of_idle fun _ => trivial
  | bufferTxnProduce pid epoch tp baseSequence messages =>
    exact (hidle.bufferTxnProduce (fun hex => (hclean hex).1) pid epoch tp baseSequence hfits
      fun hex => (hclean hex).2).of_idle hone
  | bufferTxnOffsets pid epoch offsets =>
    exact (hidle.bufferTxnOffsets hclean pid epoch offsets).of_idle hone
  | endTxn pid epoch committed offsets =>
    exact (hidle.endTxn (fun hex => (hclean hex).1) pid epoch committed offsets
      fun hex => (hclean hex).2).of_idle hone
  | sweepTimedOutTxns =>
    obtain ⟨hsettled, hlater⟩ := hidle.expireTimedOutTxns hclean
    exact (hsettled.ends hlater).of_idle hone
  | fetch tp start maxMessages isolation =>
    exact (hidle.fetchUpTo tp start maxMessages isolation hclean).ends.of_idle hone
  | restart nowMs =>
    obtain ⟨-, -, hserial, hcommitted⟩ := settled_loaded h.diskOk s.config nowMs
    obtain ⟨hsettled, hlater⟩ := DiskOk.restart h.diskOk hclean
    have hends := hsettled.ends hlater
    have htrace := hends.trace trivial
    rw [hserial, hcommitted] at htrace
    exact ⟨hends.inv, fun _ => htrace⟩

/-! ## Crashes -/

/-- One event of a history. A crash cuts the operation off after its durable step `k`. -/
inductive Event where
  | op (o : Op)
  | crash (o : Op) (k : Nat) (nowMs : Int)

/-- The label and the disk of the durable steps after which the operation can be cut off: all but
the last. -/
def cuts (s : State) (op : Op) : List (DurableStep × Disk) := (s.exec op).trace.dropLast

def next (s : State) : Event → Option State
  | .op o => some (s.exec o)
  | .crash o k nowMs => ((s.cuts o)[k]?).map fun image =>
    State.restart image.2 s.config nowMs s.nextSerial s.committed

/-- The histories whose events all meet a condition. -/
inductive Reachable (allowed : State → Event → Prop) (config : Config) : State → Prop where
  | start : Reachable allowed config (State.fresh config)
  | step {s s' : State} {e : Event} : Reachable allowed config s → allowed s e →
      s.next e = some s' → Reachable allowed config s'

/-- A transactional batch fits its counters; an operation is not cut off between the append of a
transactional batch and its marker file, between the two files of a prepare, or while it expires
several open transactions. -/
def CrashSafe (s : State) : Event → Prop
  | .op o => s.Fits o
  | .crash o k _ => s.Fits o ∧ s.expiredOpenTxns.length ≤ 1 ∧
    ∀ image ∈ (s.cuts o)[k]?, image.1 ≠ .txnAppend ∧ image.1 ≠ .prepareMarkers

/-- The operations are clean, those of a restart after a crash too. -/
def CleanEvent (s : State) : Event → Prop
  | .op o => s.Clean o
  | .crash o k nowMs => s.Clean o ∧ ∀ image ∈ (s.cuts o)[k]?,
    (loaded image.2 s.config nowMs s.nextSerial s.committed).CleanExpiry

instance (s : State) : ∀ e : Event, Decidable (s.CrashSafe e)
  | .op o => inferInstanceAs (Decidable (s.Fits o))
  | .crash _ _ _ => inferInstanceAs (Decidable (_ ∧ _ ∧ _))

instance (s : State) : ∀ e : Event, Decidable (s.CleanEvent e)
  | .op o => inferInstanceAs (Decidable (s.Clean o))
  | .crash _ _ _ => inferInstanceAs (Decidable (_ ∧ _))

theorem inv_fresh (config : Config) : Inv exact (fresh config) := by
  have hnone : ∀ tp o, ¬ (fresh config).Aborted tp o := by
    simp [Aborted, InMarkers, fresh]
  refine ⟨⟨⟨fun _ => rfl, ?_, ?_⟩, ?_, .empty (fun _ => rfl) hnone, ?_⟩, fun tp o => ?_,
    List.Perm.refl _⟩
  · simp [disk, fresh]
  · simp [fresh]
  · simp [fresh]
  · simp [fresh]
  · simp only [hnone, false_or]
    simp [fresh, Hides]

/-- The disk at a cut is one a restart can use. -/
theorem Inv.diskOk_cut (h : Inv exact s) {op : Op} {k : Nat} {nowMs : Int}
    (hsafe : s.CrashSafe (.crash op k nowMs)) (hclean : exact → s.Clean op)
    {image : DurableStep × Disk} (himage : (s.cuts op)[k]? = some image) :
    DiskOk exact s.nextSerial s.committed image.2 := by
  obtain ⟨hfits, hone, hlabels⟩ := hsafe
  obtain ⟨happend, hprepare⟩ := hlabels image himage
  exact (h.exec op hfits hclean).trace hone image (List.mem_of_getElem? himage) happend hprepare

theorem Inv.next (h : Inv exact s) {e : Event} (hsafe : s.CrashSafe e)
    (hclean : exact → s.CleanEvent e) (hnext : s.next e = some s') : Inv exact s' := by
  cases e with
  | op o =>
    cases hnext
    exact (h.exec o hsafe hclean).inv
  | crash o k nowMs =>
    obtain ⟨image, himage, rfl⟩ := Option.map_eq_some_iff.mp hnext
    have hdisk := h.diskOk_cut hsafe (fun hex => (hclean hex).1) himage
    exact (DiskOk.restart hdisk fun hex => (hclean hex).2 image himage).1.toInv

variable {allowed : State → Event → Prop}

/-- The invariant along every history. -/
theorem Reachable.inv {config : Config}
    (hallowed : ∀ s e, allowed s e → s.CrashSafe e ∧ (exact → s.CleanEvent e))
    (h : Reachable allowed config s) : Inv exact s := by
  induction h with
  | start => exact inv_fresh config
  | step _ hok hnext ih => exact ih.next (hallowed _ _ hok).1 (hallowed _ _ hok).2 hnext

/-- The state after a list of events. -/
def follow (s : State) : List Event → State
  | [] => s
  | e :: es => ((s.next e).getD s).follow es

/-- Every event of the list can happen and meets the condition. -/
def Permits (allowed : State → Event → Prop) (s : State) : List Event → Prop
  | [] => True
  | e :: es => allowed s e ∧ (s.next e).isSome = true ∧ Permits allowed ((s.next e).getD s) es

instance (allowed : State → Event → Prop) [∀ s e, Decidable (allowed s e)] :
    ∀ (s : State) (es : List Event), Decidable (Permits allowed s es)
  | _, [] => .isTrue trivial
  | s, e :: es =>
    have := instDecidablePermits allowed ((s.next e).getD s) es
    inferInstanceAs (Decidable (_ ∧ _ ∧ _))

theorem Reachable.follow {config : Config} {es : List Event}
    (h : Reachable allowed config s) (hok : Permits allowed s es) :
    Reachable allowed config (s.follow es) := by
  induction es generalizing s with
  | nil => exact h
  | cons e es ih =>
    obtain ⟨hallowed, hsome, hrest⟩ := hok
    obtain ⟨s', hs'⟩ := Option.isSome_iff_exists.mp hsome
    refine ih (.step h hallowed ?_) hrest
    rw [hs', Option.getD_some]

end State
end Volant.Broker
