-- SUMMARY: A restart over an accounted-for disk re-establishes the transaction invariant; histories with crashes.
import Volant.Broker.TxnOps

/-!
# Restarts and histories

A broker that starts over a disk loads the marker file, where open ranges
become aborted ones, and the prepared file. If the disk accounts for every
transactional record, so does the new broker. A history is any sequence of
operations, each of which may be cut short by a crash after any of its durable
steps but the last.
-/

namespace Volant.Broker.State

open List

variable {exact steps : Prop} {s s' : State} {d : Disk} {config : Config} {nowMs : Int}
  {nextSerial : Nat} {committed : List Nat}

/-! ## Loading -/

/-- Dropping and clipping ranges below the log start changes nothing at or above it. -/
theorem inMarkers_gc {logStart o : Nat} (markers : List AbortedMarker) (ho : logStart ≤ o) :
    InMarkers (gcAbortedMarkersBelow logStart markers) o ↔ InMarkers markers o := by
  simp only [InMarkers, gcAbortedMarkersBelow, mem_map, mem_filter, decide_eq_true_eq]
  constructor
  · rintro ⟨_, ⟨m, ⟨hm, -⟩, rfl⟩, hbounds⟩
    refine ⟨m, hm, ?_⟩
    split_ifs at hbounds with hclip
    · exact ⟨hclip.le.trans ho, hbounds.2⟩
    · exact hbounds
  · rintro ⟨m, hm, hbounds⟩
    refine ⟨_, ⟨m, ⟨hm, ho.trans_lt hbounds.2⟩, rfl⟩, ?_⟩
    split_ifs
    · exact ⟨ho, hbounds.2⟩
    · exact hbounds

theorem aborted_gcStaleAbortedMarkersAll
    (h : ∀ tp p, s.partitions tp = some p → p.Settled) :
    s.gcStaleAbortedMarkersAll.Aborted = s.Aborted := by
  funext tp o
  refine propext ?_
  simp only [Aborted, gcStaleAbortedMarkersAll]
  split
  next p hp =>
    have hzero : p.logStart = 0 := (Nat.add_eq_zero_iff.mp (h tp p hp).1).1
    exact inMarkers_gc _ (hzero ▸ Nat.zero_le o)
  next => exact Iff.rfl

/-- At log start zero the garbage collection drops nothing that hides an offset. -/
theorem Mid.gcStaleAbortedMarkersAll {lost : List OpenTxn} (h : Mid exact steps lost s) :
    Mid exact steps lost s.gcStaleAbortedMarkersAll := by
  refine ⟨⟨h.mem.logs, h.mem.settled, ?_, h.mem.keys⟩, h.disk, h.trace⟩
  rw [aborted_gcStaleAbortedMarkersAll h.mem.settled]
  exact h.mem.ledger

theorem opened_disk_logs : (opened d config nowMs nextSerial committed).disk.logs = d.logs := by
  simp [disk, opened, Partition.openSingle, Function.comp_def]

/-- With the ranges of the marker file loaded, only the prepared transactions are lost. -/
theorem mid_opened (h : DiskOk exact nextSerial committed d) (config : Config) (nowMs : Int)
    (abortedTxns : TopicPartition → List AbortedMarker)
    (haborted : ∀ tp o, InMarkers (abortedTxns tp) o ↔ Hides d.markers tp o) :
    Mid exact True ((d.prepared.getD []).map (·.body))
      { opened d config nowMs nextSerial committed with abortedTxns } := by
  have hdisk : DiskOk exact nextSerial committed (opened d config nowMs nextSerial committed).disk :=
    h.congr opened_disk_logs rfl rfl rfl
  refine ⟨⟨hdisk.logs, ?_, ?_, ?_⟩, fun _ => hdisk, fun _ e he => absurd he not_mem_nil⟩
  · intro tp p hp
    obtain ⟨log, -, rfl⟩ := Option.map_eq_some_iff.mp hp
    exact ⟨rfl, rfl⟩
  · have hsame : (fun tp o => InMarkers (abortedTxns tp) o) = Hides d.markers := by
      funext tp o
      exact propext (haborted tp o)
    show Ledger exact d.origins (fun tp o => InMarkers (abortedTxns tp) o) nextSerial committed
      ((d.prepared.getD []).map (·.body) ++ [])
    rw [hsame, append_nil]
    exact h.ledger
  · intro e he
    exact absurd he not_mem_nil

theorem Mid.appendCrashAbortControlMarkers {lost : List OpenTxn} (h : Mid exact steps lost s)
    (file : MarkersFile) : Mid exact steps lost (s.appendCrashAbortControlMarkers file) ∧
      Keeps s (s.appendCrashAbortControlMarkers file) := by
  refine Mid.foldl (fun s crashed hs => ?_) _ h
  split
  · exact ⟨hs, .refl s⟩
  · exact hs.appendTxnControlMarkers _ _ _ _

theorem mid_loadTxnMarkers (h : DiskOk exact nextSerial committed d) (config : Config)
    (nowMs : Int) :
    let s := (opened d config nowMs nextSerial committed).loadTxnMarkers
    Mid exact True ((d.prepared.getD []).map (·.body)) s ∧ s.Fresh ∧ s.openTxns = ∅ ∧
      s.preparedTxns = ∅ ∧ s.preparedFile = d.prepared ∧ s.nextSerial = nextSerial ∧
      s.committed = committed := by
  unfold loadTxnMarkers
  split
  next hnone =>
    have hnone : d.markers = none := hnone
    have hmid := mid_opened h config nowMs (fun _ => []) fun tp o => by simp [InMarkers, Hides, hnone]
    refine ⟨hmid.gcStaleAbortedMarkersAll, fun tp o => ?_, rfl, rfl, rfl, rfl, rfl⟩
    have hsettled : ∀ tp p, (opened d config nowMs nextSerial committed).partitions tp = some p →
        p.Settled := hmid.mem.settled
    rw [aborted_gcStaleAbortedMarkersAll hsettled]
    simp [Aborted, gcStaleAbortedMarkersAll, opened, hnone, Hides, InMarkers]
  next file hsome =>
    have hsome : d.markers = some file := hsome
    have hmid := mid_opened h config nowMs (fun tp => [] ++ promotedMarkers file tp) fun tp o =>
      by simp [Hides, hsome]
    obtain ⟨hmid', hk⟩ := hmid.appendCrashAbortControlMarkers file
    have hids : ((d.prepared.getD []).map (·.transactionalId)).Nodup := h.ids
    refine ⟨.persistTxnMarkers hmid'.gcStaleAbortedMarkersAll.mem (d.prepared.getD [])
      (fun _ => rfl) (fun _ => hk.preparedSynced ?_) (fun _ => ?_)
      hmid'.gcStaleAbortedMarkersAll.trace .markers, fresh_persistTxnMarkers _ _, hk.openTxns,
      hk.preparedTxns, hk.preparedFile, hk.nextSerial, hk.committed⟩
    · simp [PreparedSynced, opened]
    · exact (congrArg (fun f => ((Option.getD f []).map (·.transactionalId)).Nodup)
        hk.preparedFile).mpr hids

/-- The prepared transaction that loading makes of a stored one. -/
def reloaded (nowMs : Int) (p : PreparedTxn) : PreparedTxn :=
  { p with
    preparedAtMs := if 0 < p.preparedAtMs then p.preparedAtMs else nowMs
    body := { p.body with openedAtMs := 0, producerEpoch := p.producerEpoch } }

theorem loadPreparedTxns_eq (s : State) : s.loadPreparedTxns =
    { s with preparedTxns := (s.preparedFile.getD []).foldl (fun m p =>
        m.insert p.transactionalId (reloaded s.nowMs p)) s.preparedTxns } := by
  unfold loadPreparedTxns
  split
  next hnone =>
    have hempty : s.preparedFile.getD [] = [] := by rw [hnone, Option.getD_none]
    rw [hempty]
    rfl
  next prepared hsome =>
    have hfile : s.preparedFile.getD [] = prepared := by rw [hsome, Option.getD_some]
    rw [hfile]
    rfl

theorem settled_loaded (h : DiskOk exact nextSerial committed d) (config : Config) (nowMs : Int) :
    Settled exact True (loaded d config nowMs nextSerial committed) ∧
      (loaded d config nowMs nextSerial committed).openTxns = ∅ ∧
      (loaded d config nowMs nextSerial committed).nextSerial = nextSerial ∧
      (loaded d config nowMs nextSerial committed).committed = committed := by
  obtain ⟨hmid, hfresh, hopen, hprep, hfile, hserial, hcommitted⟩ :=
    mid_loadTxnMarkers h config nowMs
  unfold loaded
  revert hmid hfresh hopen hprep hfile hserial hcommitted
  generalize (opened d config nowMs nextSerial committed).loadTxnMarkers = s
  intro hmid hfresh hopen hprep hfile hserial hcommitted
  rw [loadPreparedTxns_eq]
  have hperm := Assoc.values_perm_foldl_insert PreparedTxn.transactionalId (reloaded s.nowMs)
    (s.preparedFile.getD []) s.preparedTxns (hfile ▸ h.ids) (by simp [hprep])
  rw [hprep, Assoc.values_empty, append_nil, ← hprep] at hperm
  refine ⟨⟨⟨⟨hmid.mem.logs, hmid.mem.settled, ?_, ?_⟩, hfresh, ?_⟩, hmid.trace⟩, hopen, hserial,
    hcommitted⟩
  · refine hmid.mem.ledger.congr ?_
    simp only [live, hopen, hprep, Assoc.values_empty, nil_append, map_nil, append_nil]
    have hcores := (hperm.map PreparedTxn.core).map Prod.snd
    rw [map_map, map_map, map_map, hfile] at hcores
    rw [map_map, map_map, ← hprep, hfile]
    exact hcores
  · exact Assoc.forall_mem_foldl_insert _ _ (by simp [hprep]) fun _ _ => rfl
  · have hcores := hperm.map PreparedTxn.core
    rw [map_map] at hcores
    exact hcores.symm

/-- A restart over a disk that accounts for every transactional record. -/
theorem DiskOk.restart (h : DiskOk exact nextSerial committed d)
    (hclean : exact → (loaded d config nowMs nextSerial committed).CleanExpiry) :
    Settled exact True (restart d config nowMs nextSerial committed) ∧
      Later (loaded d config nowMs nextSerial committed)
        (restart d config nowMs nextSerial committed) := by
  obtain ⟨hloaded, hopen, -, -⟩ := settled_loaded h config nowMs
  obtain ⟨hsettled, hlater⟩ := hloaded.expireTimedOutTxns hclean
  have hnone : (loaded d config nowMs nextSerial committed).expiredOpenTxns = [] := by
    simp [expiredOpenTxns, hopen]
  exact ⟨⟨hsettled.toInv, fun _ => hsettled.trace ⟨trivial, by simp [hnone]⟩⟩, hlater⟩

end Volant.Broker.State
