-- SUMMARY: The invariant of a broker's transactions, and what appends and side files do to it.
import Volant.Base.Assoc
import Volant.Broker.Ledger
import Volant.Broker.Txn

/-!
# The transaction invariant

Memory and disk each keep a ledger. In memory the open and prepared
transactions are listed; on disk the prepared ones are, and what is stored as
open counts as aborted, since that is what a restart makes of it. While an
operation runs, a transaction it has taken out of the maps is `lost` until its
outcome is recorded.
-/

namespace Volant.Broker

open List Function

/-! ## Logs -/

/-- Control markers carry the control header; with `exact`, transactional records do not. -/
def Marked (exact : Prop) (headers : List (String × Bytes)) : Origin → Prop
  | .plain => True
  | .control => isTxnControl headers = true
  | .txn _ => exact → isTxnControl headers = false

structure LogsOk (exact : Prop) (logs : TopicPartition → Option (List Record))
    (origins : TopicPartition → List Origin) : Prop where
  length : ∀ tp, (origins tp).length = ((logs tp).getD []).length
  gapFree : ∀ tp log, logs tp = some log → Storage.GapFree 0 log
  marked : ∀ tp log (o : Nat) r g, logs tp = some log → log[o]? = some r →
    (origins tp)[o]? = some g → Marked exact r.headers g

theorem mem_of_stamp {nowMs : Int64} {offset i : Nat} {ms : List Message} {r : Record}
    (h : (Partition.stamp nowMs offset ms)[i]? = some r) : ∃ m ∈ ms, r.headers = m.headers := by
  induction ms generalizing offset i with
  | nil => simp [Partition.stamp] at h
  | cons m ms ih =>
    cases i with
    | zero =>
      obtain rfl : m.toRecord offset (m.timestampMs.getD nowMs) = r := by
        simpa [Partition.stamp] using h
      exact ⟨m, mem_cons_self, rfl⟩
    | succ i =>
      obtain ⟨m', hm', heq⟩ := ih (by simpa [Partition.stamp] using h)
      exact ⟨m', mem_cons_of_mem _ hm', heq⟩

theorem LogsOk.append {exact : Prop} {logs : TopicPartition → Option (List Record)}
    {origins : TopicPartition → List Origin} (h : LogsOk exact logs origins) {tp : TopicPartition}
    {log : List Record} (hlog : logs tp = some log) (nowMs : Int64) {ms : List Message} {g : Origin}
    (hmarked : ∀ m ∈ ms, Marked exact m.headers g) :
    LogsOk exact (update logs tp (some (log ++ Partition.stamp nowMs log.length ms)))
      (appendOrigins origins tp ms.length g) := by
  have hlen : (origins tp).length = log.length := by rw [h.length tp, hlog, Option.getD_some]
  refine ⟨?_, ?_, ?_⟩
  · intro tp'
    rcases eq_or_ne tp' tp with rfl | hne
    · simp [appendOrigins, hlen]
    · simpa [appendOrigins, hne] using h.length tp'
  · intro tp' log' hlog'
    rcases Assoc.of_update hlog' with ⟨rfl, ⟨⟩⟩ | ⟨-, hlog'⟩
    · refine Storage.GapFree.append_iff.mpr ⟨h.gapFree tp' log hlog, ?_⟩
      rw [Nat.zero_add]
      exact Partition.gapFree_stamp nowMs log.length ms
    · exact h.gapFree tp' log' hlog'
  · intro tp' log' o r g' hlog' hr hg'
    rcases Assoc.of_update hlog' with ⟨rfl, ⟨⟩⟩ | ⟨hne, hlog'⟩
    · rcases appendOrigins_getElem?.mp hg' with hold | ⟨-, hge, -, rfl⟩
      · have hlt : o < log.length := by
          rw [← hlen]
          exact (List.getElem?_eq_some_iff.mp hold).1
        rw [getElem?_append_left hlt] at hr
        exact h.marked tp' log o r g' hlog hr hold
      · rw [getElem?_append_right (hlen ▸ hge)] at hr
        obtain ⟨m, hm, heq⟩ := mem_of_stamp hr
        rw [heq]
        exact hmarked m hm
    · refine h.marked tp' log' o r g' hlog' hr ?_
      simpa [appendOrigins, hne] using hg'

/-! ## What memory and disk know -/

/-- The offset is in an aborted range. -/
def InMarkers (markers : List AbortedMarker) (o : Nat) : Prop :=
  ∃ m ∈ markers, m.firstOffset ≤ o ∧ o < m.endOffset

/-- A restart over this marker file hides the offset. -/
def Hides (file : Option MarkersFile) (tp : TopicPartition) (o : Nat) : Prop :=
  ∃ f, file = some f ∧ InMarkers (State.promotedMarkers f tp) o

/-- What a restart keeps of a prepared transaction's identity and records. -/
def PreparedTxn.core (p : PreparedTxn) : String × Nat × List WrittenRange :=
  (p.transactionalId, p.body.serial, p.body.written)

structure DiskOk (exact : Prop) (nextSerial : Nat) (committed : List Nat) (d : Disk) : Prop where
  logs : LogsOk exact d.logs d.origins
  ids : ((d.prepared.getD []).map (·.transactionalId)).Nodup
  ledger : Ledger exact d.origins (Hides d.markers) nextSerial committed
    ((d.prepared.getD []).map (·.body))

theorem DiskOk.congr {exact : Prop} {nextSerial : Nat} {committed : List Nat} {d d' : Disk}
    (h : DiskOk exact nextSerial committed d) (hlogs : d'.logs = d.logs)
    (horigins : d'.origins = d.origins) (hmarkers : d'.markers = d.markers)
    (hprepared : d'.prepared = d.prepared) : DiskOk exact nextSerial committed d' := by
  refine ⟨?_, ?_, ?_⟩
  · rw [hlogs, horigins]
    exact h.logs
  · rw [hprepared]
    exact h.ids
  · rw [horigins, hmarkers, hprepared]
    exact h.ledger

namespace State

def Aborted (s : State) (tp : TopicPartition) (o : Nat) : Prop := InMarkers (s.abortedTxns tp) o

variable {s : State}

theorem isAbortedOffset_iff {tp : TopicPartition} {o : Nat} :
    s.isAbortedOffset tp o = true ↔ s.Aborted tp o := by
  simp [isAbortedOffset, Aborted, InMarkers]

/-- The open and the prepared transactions. -/
def live (s : State) : List OpenTxn :=
  Assoc.values s.openTxns ++ (Assoc.values s.preparedTxns).map (·.body)

/-- Open transactions leave their table. -/
theorem live_takeOpen {openTxns : AList fun _ : Nat => OpenTxn} {taken : List OpenTxn}
    (hperm : (Assoc.values s.openTxns).Perm (taken ++ Assoc.values openTxns)) :
    s.live.Perm (taken ++ live { s with openTxns }) := by
  simp only [live, ← append_assoc]
  exact hperm.append_right _

/-- Prepared transactions leave their table. -/
theorem live_takePrepared {preparedTxns : AList fun _ : String => PreparedTxn}
    {taken : List PreparedTxn}
    (hperm : (Assoc.values s.preparedTxns).Perm (taken ++ Assoc.values preparedTxns)) :
    s.live.Perm (taken.map (·.body) ++ live { s with preparedTxns }) := by
  have hbodies := hperm.map (·.body)
  rw [map_append] at hbodies
  exact (hbodies.append_left _).trans (perm_append_comm_assoc _ _ _)

structure MemoryOk (exact : Prop) (lost : List OpenTxn) (s : State) : Prop where
  logs : LogsOk exact s.disk.logs s.origins
  settled : ∀ tp p, s.partitions tp = some p → p.Settled
  ledger : Ledger exact s.origins s.Aborted s.nextSerial s.committed (lost ++ s.live)
  keys : ∀ e ∈ s.preparedTxns.entries, e.2.transactionalId = e.1

/-- Every durable step of the running operation, but for the two after which the disk may not
account for a transaction, left a disk that a restart can use. -/
def TraceOk (exact : Prop) (s : State) : Prop :=
  ∀ e ∈ s.trace, e.1 ≠ .txnAppend → e.1 ≠ .prepareMarkers →
    DiskOk exact s.nextSerial s.committed e.2

/-- Inside an operation. `steps` says whether the disk and the trace are accounted for too. -/
structure Mid (exact steps : Prop) (lost : List OpenTxn) (s : State) : Prop where
  mem : MemoryOk exact lost s
  disk : steps → DiskOk exact s.nextSerial s.committed s.disk
  trace : steps → TraceOk exact s

/-- The marker file holds the open and aborted ranges of memory. -/
def Fresh (s : State) : Prop :=
  ∀ tp o, Hides s.markersFile tp o ↔
    s.Aborted tp o ∨ ∃ t ∈ Assoc.values s.openTxns, Covered t.written tp o

/-- The prepared file lists the prepared transactions and those in `lost`. -/
def PreparedSynced (lost : List PreparedTxn) (s : State) : Prop :=
  ((s.preparedFile.getD []).map PreparedTxn.core).Perm
    ((lost ++ Assoc.values s.preparedTxns).map PreparedTxn.core)

/-- Between operations. -/
structure Inv (exact : Prop) (s : State) : Prop where
  mem : MemoryOk exact [] s
  fresh : s.Fresh
  prepared : s.PreparedSynced []

/-! ## Memory accounts for disk -/

variable {exact steps : Prop} {lost : List OpenTxn} {s s' : State}

theorem nodup_transactionalIds (h : ∀ e ∈ s.preparedTxns.entries, e.2.transactionalId = e.1) :
    ((Assoc.values s.preparedTxns).map (·.transactionalId)).Nodup := by
  have hkeys : (Assoc.values s.preparedTxns).map (·.transactionalId) = s.preparedTxns.keys := by
    simp only [Assoc.values, map_map, AList.keys, keys]
    exact map_congr_left h
  rw [hkeys]
  exact s.preparedTxns.keys_nodup

/-- With the open ranges on file, only the prepared transactions need be listed on disk. -/
theorem ledger_of_fresh (h : Ledger exact s.origins s.Aborted s.nextSerial s.committed
      (lost ++ s.live)) (hfresh : s.Fresh) :
    Ledger exact s.origins (Hides s.markersFile) s.nextSerial s.committed
      (lost ++ (Assoc.values s.preparedTxns).map (·.body)) := by
  have hperm : (Assoc.values s.openTxns ++
      (lost ++ (Assoc.values s.preparedTxns).map (·.body))).Perm (lost ++ s.live) := by
    rw [live, ← append_assoc, ← append_assoc]
    exact perm_append_comm.append_right _
  refine (h.perm hperm).abort (fun tp o ha => (hfresh tp o).mpr (.inl ha))
    (fun t ht tp o hc => (hfresh tp o).mpr (.inr ⟨t, ht, hc⟩)) ?_
  intro hex tp o hh
  rcases (hfresh tp o).mp hh with ha | ⟨t, ht, hc⟩
  · exact h.exact hex tp o ha
  · exact (h.perm hperm).exact_covered (mem_append_left _ ht) tp o hc

theorem diskOk_of_fresh (lostPrepared : List PreparedTxn)
    (h : MemoryOk exact (lostPrepared.map (·.body)) s) (hfresh : s.Fresh)
    (hprepared : s.PreparedSynced lostPrepared)
    (hids : ((s.preparedFile.getD []).map (·.transactionalId)).Nodup) :
    DiskOk exact s.nextSerial s.committed s.disk := by
  refine ⟨h.logs, hids, (ledger_of_fresh h.ledger hfresh).congr ?_⟩
  simpa [comp_def, PreparedTxn.core, disk] using hprepared.map Prod.snd

theorem PreparedSynced.nodup_ids (h : s.PreparedSynced [])
    (hkeys : ∀ e ∈ s.preparedTxns.entries, e.2.transactionalId = e.1) :
    ((s.preparedFile.getD []).map (·.transactionalId)).Nodup := by
  have hperm : ((s.preparedFile.getD []).map (·.transactionalId)).Perm
      ((Assoc.values s.preparedTxns).map (·.transactionalId)) := by
    simpa [comp_def, PreparedTxn.core] using h.map Prod.fst
  exact hperm.nodup_iff.mpr (nodup_transactionalIds hkeys)

theorem Inv.diskOk (h : Inv exact s) : DiskOk exact s.nextSerial s.committed s.disk :=
  diskOk_of_fresh [] h.mem h.fresh h.prepared (h.prepared.nodup_ids h.mem.keys)

theorem Inv.mid (h : Inv exact s) (htrace : steps → TraceOk exact s) : Mid exact steps [] s :=
  ⟨h.mem, fun _ => h.diskOk, htrace⟩

/-- Transactions whose records are all aborted are lost no more. -/
theorem MemoryOk.recorded (done : List OpenTxn) (h : MemoryOk exact (done ++ lost) s)
    (hdone : ∀ t ∈ done, ∀ tp o, Covered t.written tp o → s.Aborted tp o) :
    MemoryOk exact lost s := by
  refine ⟨h.logs, h.settled, ?_, h.keys⟩
  have hledger := h.ledger
  rw [append_assoc] at hledger
  exact hledger.abort (fun _ _ ha => ha) hdone hledger.exact

/-! ## Steps that leave the books alone -/

/-- The maps, the files and the history that say who owns which records are the same. -/
structure Keeps (s s' : State) : Prop where
  config : s'.config = s.config
  nowMs : s'.nowMs = s.nowMs
  openTxns : s'.openTxns = s.openTxns
  preparedTxns : s'.preparedTxns = s.preparedTxns
  abortedTxns : s'.abortedTxns = s.abortedTxns
  markersFile : s'.markersFile = s.markersFile
  preparedFile : s'.preparedFile = s.preparedFile
  nextSerial : s'.nextSerial = s.nextSerial
  committed : s'.committed = s.committed
  origins : ∀ tp, s.origins tp <+: s'.origins tp

theorem Keeps.refl (s : State) : Keeps s s :=
  ⟨rfl, rfl, rfl, rfl, rfl, rfl, rfl, rfl, rfl, fun _ => prefix_rfl⟩

/-- Everything that no book mentions may change. -/
theorem Keeps.others (s : State) {partitions : TopicPartition → Option Partition}
    {nextProducerId : Nat} {producers : AList fun _ : Nat => Producer}
    {transactionalIds : AList fun _ : String => Nat} {abortableProducers : List Nat}
    {producersFile : Option ProducerFile} {offsets : OffsetKey → Option CommittedOffset}
    {trace : List (DurableStep × Disk)} :
    Keeps s { s with
      partitions, nextProducerId, producers, transactionalIds, abortableProducers, producersFile
      offsets, trace } :=
  ⟨rfl, rfl, rfl, rfl, rfl, rfl, rfl, rfl, rfl, fun _ => prefix_rfl⟩

theorem Keeps.trans {s'' : State} (h : Keeps s s') (h' : Keeps s' s'') : Keeps s s'' :=
  ⟨h'.1.trans h.1, h'.2.trans h.2, h'.3.trans h.3, h'.4.trans h.4, h'.5.trans h.5, h'.6.trans h.6,
    h'.7.trans h.7, h'.8.trans h.8, h'.9.trans h.9, fun tp => (h.10 tp).trans (h'.10 tp)⟩

theorem Keeps.aborted (h : Keeps s s') : s'.Aborted = s.Aborted := by
  unfold Aborted
  rw [h.abortedTxns]

theorem Keeps.live (h : Keeps s s') : s'.live = s.live := by
  unfold State.live
  rw [h.openTxns, h.preparedTxns]

theorem Keeps.fresh (h : Keeps s s') (hfresh : s.Fresh) : s'.Fresh := by
  unfold Fresh
  rw [h.markersFile, h.aborted, h.openTxns]
  exact hfresh

theorem Keeps.preparedSynced (h : Keeps s s') {lostPrepared : List PreparedTxn}
    (hprepared : s.PreparedSynced lostPrepared) : s'.PreparedSynced lostPrepared := by
  unfold PreparedSynced
  rw [h.preparedFile, h.preparedTxns]
  exact hprepared

/-- How the trace may grow by one step. -/
def Traces (s s' : State) : Prop :=
  s'.trace = s.trace ∨ ∃ step, s'.trace = s.trace ++ [(step, s'.disk)]

theorem TraceOk.snoc (h : TraceOk exact s) {step : DurableStep}
    (heq : s'.trace = s.trace ++ [(step, s'.disk)]) (hserial : s'.nextSerial = s.nextSerial)
    (hcommitted : s'.committed = s.committed) (hdisk : step ≠ .txnAppend → step ≠ .prepareMarkers →
      DiskOk exact s'.nextSerial s'.committed s'.disk) : TraceOk exact s' := by
  intro e he
  rw [heq, mem_append, mem_singleton] at he
  rcases he with he | rfl
  · rw [hserial, hcommitted]
    exact h e he
  · exact hdisk

theorem TraceOk.grow (h : TraceOk exact s) (ht : Traces s s') (hk : Keeps s s')
    (hdisk : DiskOk exact s'.nextSerial s'.committed s'.disk) : TraceOk exact s' := by
  rcases ht with heq | ⟨step, heq⟩
  · intro e he
    rw [hk.nextSerial, hk.committed]
    exact h e (heq ▸ he)
  · exact h.snoc heq hk.nextSerial hk.committed fun _ _ => hdisk

/-- A step that changes neither logs nor books. -/
theorem Mid.keep (h : Mid exact steps lost s) (hk : Keeps s s') (ht : Traces s s')
    (hpart : s'.partitions = s.partitions) (horig : s'.origins = s.origins) :
    Mid exact steps lost s' := by
  have hlogs : s'.disk.logs = s.disk.logs := by simp [State.disk, hpart]
  have hdisk : steps → DiskOk exact s'.nextSerial s'.committed s'.disk := by
    intro hsteps
    rw [hk.nextSerial, hk.committed]
    exact (h.disk hsteps).congr hlogs horig hk.markersFile hk.preparedFile
  refine ⟨⟨?_, ?_, ?_, ?_⟩, hdisk, fun hsteps => (h.trace hsteps).grow ht hk (hdisk hsteps)⟩
  · rw [hlogs, horig]
    exact h.mem.logs
  · rw [hpart]
    exact h.mem.settled
  · rw [horig, hk.aborted, hk.nextSerial, hk.committed, hk.live]
    exact h.mem.ledger
  · rw [hk.preparedTxns]
    exact h.mem.keys

/-! ## Appends -/

/-- The state after an append to an existing partition. -/
def appended (s : State) (tp : TopicPartition) (p : Partition) (ms : List Message) (g : Origin) :
    State :=
  { s with
    partitions := update s.partitions tp (some
      { p with log := p.log ++ Partition.stamp (Int64.ofInt s.nowMs) p.leo ms }.catchUpHwm)
    origins := appendOrigins s.origins tp ms.length g }

variable {tp : TopicPartition} {p : Partition} {ms : List Message} {g : Origin}

theorem produce_some (hp : s.partitions tp = some p) (hms : ms ≠ []) (step : DurableStep) :
    s.produce tp ms g step = (.ok (Partition.stamp (Int64.ofInt s.nowMs) p.leo ms),
      (s.appended tp p ms g).durable step) := by
  simp [produce, hp, Partition.produceInner_standalone _ hms, appended, appendOrigins]

theorem appended_keeps (step : DurableStep) : Keeps s ((s.appended tp p ms g).durable step) := by
  refine ⟨rfl, rfl, rfl, rfl, rfl, rfl, rfl, rfl, rfl, fun tp' => ?_⟩
  rcases eq_or_ne tp' tp with rfl | hne
  · simp [durable, appended, appendOrigins]
  · simp [durable, appended, appendOrigins, hne]

theorem appended_disk_logs : (s.appended tp p ms g).disk.logs = update s.disk.logs tp
    (some (p.log ++ Partition.stamp (Int64.ofInt s.nowMs) p.leo ms)) := by
  funext tp'
  rcases eq_or_ne tp' tp with rfl | hne
  · simp [disk, appended]
  · simp [disk, appended, hne]

theorem disk_logs_of_some (hp : s.partitions tp = some p) : s.disk.logs tp = some p.log := by
  simp [disk, hp]

theorem appended_logsOk (h : LogsOk exact s.disk.logs s.origins) (hp : s.partitions tp = some p)
    (hwhole : p.Whole) (hmarked : ∀ m ∈ ms, Marked exact m.headers g) :
    LogsOk exact (s.appended tp p ms g).disk.logs (s.appended tp p ms g).origins := by
  rw [appended_disk_logs, hwhole.leo]
  exact h.append (disk_logs_of_some hp) _ hmarked

theorem appended_whole (h : ∀ tp p, s.partitions tp = some p → p.Whole)
    (hp : s.partitions tp = some p) :
    ∀ tp' p', (s.appended tp p ms g).partitions tp' = some p' → p'.Whole := by
  intro tp' p' hp'
  rcases Assoc.of_update hp' with ⟨rfl, ⟨⟩⟩ | ⟨-, hp'⟩
  · exact (Partition.catchUpHwm_whole _).mpr (h tp' p hp)
  · exact h tp' p' hp'

theorem appended_settled (h : ∀ tp p, s.partitions tp = some p → p.Settled)
    (hp : s.partitions tp = some p) :
    ∀ tp' p', (s.appended tp p ms g).partitions tp' = some p' → p'.Settled := by
  intro tp' p' hp'
  refine ⟨appended_whole (fun tp p hp => (h tp p hp).1) hp tp' p' hp', ?_⟩
  rcases Assoc.of_update hp' with ⟨rfl, ⟨⟩⟩ | ⟨-, hp'⟩
  · have hhwm := (h tp' p hp).2
    rw [Partition.catchUpHwm_committedHwm (by simp only [Partition.leo, length_append] at *
                                              omega)]
    unfold Partition.catchUpHwm
    split_ifs <;> rfl
  · exact (h tp' p' hp').2

/-- Appending records that belong to no transaction. -/
theorem MemoryOk.appended (h : MemoryOk exact lost s) (hp : s.partitions tp = some p)
    (hg : ∀ n, g ≠ .txn n) (hmarked : ∀ m ∈ ms, Marked exact m.headers g) :
    MemoryOk exact lost (s.appended tp p ms g) :=
  ⟨appended_logsOk h.logs hp (h.settled tp p hp).1 hmarked, appended_settled h.settled hp,
    h.ledger.append tp ms.length hg,
    h.keys⟩

theorem DiskOk.appended (h : DiskOk exact s.nextSerial s.committed s.disk)
    (hp : s.partitions tp = some p) (hwhole : p.Whole) (hg : ∀ n, g ≠ .txn n)
    (hmarked : ∀ m ∈ ms, Marked exact m.headers g) :
    DiskOk exact s.nextSerial s.committed (s.appended tp p ms g).disk :=
  ⟨appended_logsOk h.logs hp hwhole hmarked, h.ids, h.ledger.append tp ms.length hg⟩

theorem Mid.appended (h : Mid exact steps lost s) (hp : s.partitions tp = some p)
    (hg : ∀ n, g ≠ .txn n) (hmarked : ∀ m ∈ ms, Marked exact m.headers g) (step : DurableStep) :
    Mid exact steps lost ((s.appended tp p ms g).durable step) := by
  have hdisk := fun hsteps => DiskOk.appended (h.disk hsteps) hp (h.mem.settled tp p hp).1 hg hmarked
  have hmem := h.mem.appended hp hg hmarked
  refine ⟨⟨hmem.logs, hmem.settled, hmem.ledger, hmem.keys⟩, hdisk, fun hsteps => ?_⟩
  exact (h.trace hsteps).grow (.inr ⟨step, rfl⟩) (appended_keeps step) (hdisk hsteps)

/-- An empty batch appends nothing. -/
theorem produce_nil (hp : s.partitions tp = some p) (step : DurableStep) :
    s.produce tp [] g step = (.ok [], s.durable step) := by
  have hpart : update s.partitions tp (some p) = s.partitions := by
    rw [← hp, update_eq_self]
  simp [produce, hp, Partition.produceInner, hpart]

theorem Mid.produce (h : Mid exact steps lost s) (tp : TopicPartition) (ms : List Message)
    (hg : ∀ n, g ≠ .txn n) (hmarked : ∀ m ∈ ms, Marked exact m.headers g) (step : DurableStep) :
    Mid exact steps lost (s.produce tp ms g step).2 ∧ Keeps s (s.produce tp ms g step).2 := by
  cases hp : s.partitions tp with
  | none =>
    simp only [State.produce, hp]
    exact ⟨h, .refl s⟩
  | some p =>
    rcases eq_or_ne ms [] with rfl | hms
    · rw [produce_nil hp]
      have hk : Keeps s (s.durable step) := .others s
      exact ⟨h.keep hk (.inr ⟨step, rfl⟩) rfl rfl, hk⟩
    · rw [produce_some hp hms]
      exact ⟨h.appended hp hg hmarked step, appended_keeps step⟩

theorem marked_txnControlMessage (markerType : ControlMarkerType) (pid epoch : Nat) (nowMs : Int) :
    ∀ m ∈ [txnControlMessage markerType pid epoch nowMs], Marked exact m.headers .control := by
  intro m hm
  rw [mem_singleton.mp hm]
  simp [Marked, isTxnControl, txnControlMessage]

/-- A loop keeps what each of its rounds keeps. -/
theorem Mid.foldl {α : Type} {f : State → α → State}
    (hstep : ∀ s x, Mid exact steps lost s → Mid exact steps lost (f s x) ∧ Keeps s (f s x))
    (l : List α) (h : Mid exact steps lost s) :
    Mid exact steps lost (l.foldl f s) ∧ Keeps s (l.foldl f s) := by
  induction l generalizing s with
  | nil => exact ⟨h, .refl s⟩
  | cons x l ih =>
    obtain ⟨hmid, hk⟩ := hstep s x h
    obtain ⟨hmid', hk'⟩ := ih hmid
    exact ⟨hmid', hk.trans hk'⟩

section

variable (h : Mid exact steps lost s)

include h

theorem Mid.appendTxnControlMarkers (pid epoch : Nat)
    (markerType : ControlMarkerType) (txn : OpenTxn) :
    Mid exact steps lost (s.appendTxnControlMarkers pid epoch markerType txn) ∧
      Keeps s (s.appendTxnControlMarkers pid epoch markerType txn) := by
  refine Mid.foldl (fun s tp hs => ?_) _ h
  exact hs.produce tp _ (fun n => by simp) (marked_txnControlMessage _ _ _ _) _

/-- Changing the producer tables and writing them out. -/
theorem Mid.persistProducerState (hk : Keeps s s')
    (hpart : s'.partitions = s.partitions) (horig : s'.origins = s.origins)
    (htrace : s'.trace = s.trace) :
    Mid exact steps lost s'.persistProducerState ∧ Keeps s s'.persistProducerState := by
  have hk' : Keeps s' s'.persistProducerState := .others s'
  have hmid := h.keep hk (.inl htrace) hpart horig
  exact ⟨hmid.keep hk' (.inr ⟨_, rfl⟩) rfl rfl, hk.trans hk'⟩

theorem Mid.recordIdempotentProduce (pid epoch : Nat)
    (tp : TopicPartition) (baseSequence : Int) (count baseOffset : Nat) :
    Mid exact steps lost (s.recordIdempotentProduce pid epoch tp baseSequence count baseOffset) ∧
      Keeps s (s.recordIdempotentProduce pid epoch tp baseSequence count baseOffset) := by
  unfold State.recordIdempotentProduce
  split
  · exact ⟨h, .refl s⟩
  · split
    · exact ⟨h, .refl s⟩
    · split
      · exact ⟨h, .refl s⟩
      · exact h.persistProducerState (.others s) rfl rfl rfl

theorem Mid.commitOffset (o : DeferredOffset) :
    Mid exact steps lost (s.commitOffset o) ∧ Keeps s (s.commitOffset o) := by
  unfold State.commitOffset
  split
  · have hk : ∀ offsets, Keeps s ({ s with offsets }.durable .offset) :=
      fun _ => .others s
    exact ⟨h.keep (hk _) (.inr ⟨_, rfl⟩) rfl rfl, hk _⟩
  · exact ⟨h, .refl s⟩

end

end State

end Volant.Broker
