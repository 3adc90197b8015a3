-- SUMMARY: After any history whose crashes miss three windows, the committed view holds committed records only.
import Volant.Broker.History

/-!
# Crash means abort

The committed view shows no record of a transaction whose commit has not
returned, whatever crashes and restarts came before. Three windows are
excepted, in which a transaction's records are on the log while no file
accounts for them; a crash there makes them visible for good.
-/

namespace Volant.Broker.State

open List

variable {exact : Prop} {s : State} {tp : TopicPartition}

theorem isUnstableOffset_iff {o : Nat} :
    s.isUnstableOffset tp o = true ↔ ∃ t ∈ s.live, Covered t.written tp o := by
  simp only [isUnstableOffset, unstableRanges, any_eq_true, decide_eq_true_eq, live, Covered,
    Assoc.values, mem_append, mem_flatMap, mem_map, map_map, or_and_right,
    exists_or]
  constructor
  · rintro (⟨r, ⟨e, he, hr⟩, hbounds⟩ | ⟨r, ⟨e, he, hr⟩, hbounds⟩)
    · exact .inl ⟨e.2, ⟨e, he, rfl⟩, r, hr, hbounds⟩
    · exact .inr ⟨e.2.body, ⟨e, he, rfl⟩, r, hr, hbounds⟩
  · rintro (⟨_, ⟨e, he, rfl⟩, r, hr, hbounds⟩ | ⟨_, ⟨e, he, rfl⟩, r, hr, hbounds⟩)
    · exact .inl ⟨r, ⟨e, he, hr⟩, hbounds⟩
    · exact .inr ⟨r, ⟨e, he, hr⟩, hbounds⟩

/-- The native view keeps no record of a transaction that is not committed. -/
theorem Inv.committed_of_committedOnlyKeeps (h : Inv exact s) {r : Record}
    (hkeeps : s.committedOnlyKeeps tp r = true) {n : Nat}
    (horigin : s.originAt tp r.offset = some (.txn n)) : n ∈ s.committed := by
  simp only [committedOnlyKeeps, Bool.and_eq_true, Bool.not_eq_true', ← Bool.not_eq_true,
    isUnstableOffset_iff, isAbortedOffset_iff] at hkeeps
  obtain ⟨⟨-, hstable⟩, hlive⟩ := hkeeps
  rcases h.mem.ledger.held tp r.offset n horigin with hc | ha | ⟨t, ht, rfl⟩
  · exact hc
  · exact absurd ha hlive
  · exact absurd ⟨t, ht, (h.mem.ledger.own t ht tp r.offset).mp horigin⟩ hstable

theorem Later.originAt {s' : State} (h : Later s s') {o : Nat} {g : Origin}
    (hg : s.originAt tp o = some g) : s'.originAt tp o = some g := by
  obtain ⟨rest, hrest⟩ := h.origins tp
  unfold State.originAt at *
  rw [← hrest, getElem?_append_left (List.getElem?_eq_some_iff.mp hg).1]
  exact hg

/-- The transactions that are not committed and have a record in the committed view. -/
def strays (s : State) (tp : TopicPartition) (start maxMessages : Nat) : List Nat :=
  match (s.fetchUpTo tp start maxMessages .committedOnly).1 with
  | .error _ => []
  | .ok records => records.filterMap fun r =>
    match s.originAt tp r.offset with
    | some (.txn n) => if n ∈ s.committed then none else some n
    | _ => none

theorem Inv.strays_eq_nil (h : Inv exact s) (hclean : exact → s.CleanExpiry) (tp : TopicPartition)
    (start maxMessages : Nat) : s.strays tp start maxMessages = [] := by
  have htrace : False → TraceOk exact s := False.elim
  obtain ⟨hexpired, -, hlater⟩ := h.expireTimedOutTxns htrace hclean
  unfold strays fetchUpTo
  cases hexamined : s.examined tp start maxMessages with
  | error e => rfl
  | ok records =>
    simp only [filterMap_eq_nil_iff, mem_filter]
    rintro r ⟨hr, hkeeps⟩
    split
    next n horigin =>
      rw [if_pos]
      split_ifs at hkeeps with hall
      · -- a view of control markers only is empty
        have hcontrol := all_eq_true.mp hall r hr
        simp [committedOnlyKeeps, hcontrol] at hkeeps
      · rw [← hlater.committed]
        exact hexpired.committed_of_committedOnlyKeeps hkeeps (hlater.originAt horigin)
    · rfl

/-- After every history whose crashes miss the three windows, the committed view holds no record of
a transaction whose commit has not returned success. -/
theorem committed_view_hides_uncommitted {config : Config} (h : Reachable CrashSafe config s)
    (tp : TopicPartition) (start maxMessages : Nat) : s.strays tp start maxMessages = [] := by
  have hinv : Inv False s := h.inv fun _ _ hsafe => ⟨hsafe, False.elim⟩
  exact hinv.strays_eq_nil False.elim tp start maxMessages

/-! ## The three windows -/

/-- Open transactions time out after a second. -/
def oneSecond : Config :=
  { openTxnTimeoutMs := 1000, preparedTxnTimeoutMs := 0, transactionMaxTimeoutMs := 0 }

def orders : TopicPartition := { topic := "orders", partition := 0 }

def order (value : Nat) : Message :=
  { key := none, value := [UInt8.ofNat value], timestampMs := some 0, headers := [] }

/-- At time one, a transactional producer begins a transaction. -/
def begins (enable2pc : Bool) : List Event :=
  [.op (.clock 1), .op (.createPartition orders), .op (.initProducerId "a" enable2pc false 0),
    .op (.beginTxn 1 0)]

def writes (producerId : Nat) : Op := .bufferTxnProduce producerId 0 orders 0 [order producerId]

/-- A second producer writes in a transaction of its own, and both run out of time. -/
def overdue : List Event :=
  [.op (.initProducerId "b" false false 0), .op (.beginTxn 2 0), .op (writes 2), .op (.clock 2000)]

/-- A crash in each of the three windows, after which the committed view shows a record of a
transaction that is neither committed nor prepared. -/
theorem crash_windows_leak_records : [begins false ++ [.crash (writes 1) 0 1],
        begins true ++ [.op (writes 1), .crash (.endTxn 1 0 true []) 0 1],
        begins false ++ [.op (writes 1)] ++ overdue ++ [.crash .sweepTimedOutTxns 0 2000]].Forall
      fun history => Reachable (fun _ _ => True) oneSecond ((fresh oneSecond).follow history) ∧
        ((fresh oneSecond).follow history).strays orders 0 10 = [0] ∧
        ((fresh oneSecond).follow history).preparedTxns.keys = [] := by
  refine List.forall_iff_forall_mem.mpr fun history hmem => ?_
  refine ⟨Reachable.start.follow ?_, ?_⟩
  · revert history
    decide +kernel
  · revert history
    decide +kernel

/-- A crash inside a commit, after its control marker. -/
def interrupted : List Event :=
  begins false ++ [.op (writes 1), .crash (.endTxn 1 0 true []) 1 1]

theorem interrupted_commit_stays_hidden :
    ((fresh oneSecond).follow interrupted).originAt orders 0 = some (.txn 0) ∧
      ((fresh oneSecond).follow interrupted).strays orders 0 10 = [] := by
  have hok : Permits CrashSafe (fresh oneSecond) interrupted := by decide +kernel
  exact ⟨by decide +kernel, committed_view_hides_uncommitted (Reachable.start.follow hok) orders 0 10⟩

/-! ## Maintenance of the aborted ranges -/

/-- `gc_aborted_markers_below` of a partition whose log starts at `logStart`. -/
def collectMarkers (s : State) (tp : TopicPartition) (logStart : Nat) : State :=
  let markers := gcAbortedMarkersBelow logStart (s.abortedTxns tp)
  { s with abortedTxns := Function.update s.abortedTxns tp markers }

def pushMarkers (s : State) (pushes : List (TopicPartition × AbortedMarker)) : State :=
  pushes.foldl (fun s m => s.pushAbortedMarker m.1 m.2) s

/-- The aborted ranges of a new broker that loads a marker file, with the starts of its logs. -/
def loadedMarkers (starts : TopicPartition → Option Nat) (file : MarkersFile)
    (tp : TopicPartition) : List AbortedMarker :=
  match starts tp with
  | some logStart => gcAbortedMarkersBelow logStart (promotedMarkers file tp)
  | none => promotedMarkers file tp

variable {file : MarkersFile}

theorem inMarkers_loadedMarkers {starts : TopicPartition → Option Nat} {o : Nat}
    (ho : ∀ logStart, starts tp = some logStart → logStart ≤ o) :
    InMarkers (loadedMarkers starts file tp) o ↔ InMarkers (promotedMarkers file tp) o := by
  unfold loadedMarkers
  cases hstart : starts tp with
  | some logStart => exact inMarkers_gc _ (ho logStart hstart)
  | none => exact Iff.rfl

/-- The aborted ranges and the starts of the logs are the same. -/
structure SameStarts (s s' : State) : Prop where
  aborted : s'.abortedTxns = s.abortedTxns
  starts : ∀ tp, (s'.partitions tp).map (·.logStart) = (s.partitions tp).map (·.logStart)

theorem SameStarts.foldl {α : Type} {f : State → α → State} (hf : ∀ s x, SameStarts s (f s x))
    (l : List α) (s : State) : SameStarts s (l.foldl f s) := by
  induction l generalizing s with
  | nil => exact ⟨rfl, fun _ => rfl⟩
  | cons x l ih =>
    have hrest := ih (f s x)
    exact ⟨hrest.aborted.trans (hf s x).aborted,
      fun tp => (hrest.starts tp).trans ((hf s x).starts tp)⟩

theorem sameStarts_produce (s : State) (tp : TopicPartition) (ms : List Message) (g : Origin)
    (step : DurableStep) : SameStarts s (s.produce tp ms g step).2 := by
  cases hp : s.partitions tp with
  | none =>
    simp only [produce, hp]
    exact ⟨rfl, fun _ => rfl⟩
  | some p =>
    rcases eq_or_ne ms [] with rfl | hms
    · rw [produce_nil hp]
      exact ⟨rfl, fun _ => rfl⟩
    · rw [produce_some hp hms]
      refine ⟨rfl, fun tp' => ?_⟩
      rcases eq_or_ne tp' tp with rfl | hne
      · simp [durable, appended, hp]
      · simp [durable, appended, hne]

/-- Loading the marker file is `loadTxnMarkers`, wherever the logs start. -/
theorem abortedTxns_loadTxnMarkers {b : State} (hempty : b.abortedTxns = fun _ => [])
    (hfile : b.markersFile = some file) : b.loadTxnMarkers.abortedTxns =
      loadedMarkers (fun tp => (b.partitions tp).map (·.logStart)) file := by
  have hcrash (s : State) : SameStarts s (s.appendCrashAbortControlMarkers file) := by
    refine .foldl (fun s crashed => ?_) _ s
    split
    · exact ⟨rfl, fun _ => rfl⟩
    · exact .foldl (fun s tp => sameStarts_produce s tp _ _ _) _ s
  unfold loadTxnMarkers
  split
  next hnone => cases hnone.symm.trans hfile
  next found hfound =>
    obtain rfl : found = file := Option.some.inj (hfound.symm.trans hfile)
    obtain ⟨haborted, hstarts⟩ :=
      hcrash { b with abortedTxns := fun tp => b.abortedTxns tp ++ promotedMarkers found tp }
    dsimp only [persistTxnMarkers, durable]
    generalize State.appendCrashAbortControlMarkers _ found = t at haborted hstarts ⊢
    funext tp
    have hmarkers : t.abortedTxns tp = promotedMarkers found tp := by simp [haborted, hempty]
    simp only [gcStaleAbortedMarkersAll, loadedMarkers, ← hstarts tp, hmarkers]
    cases t.partitions tp <;> rfl

theorem aborted_pushMarkers (pushes : List (TopicPartition × AbortedMarker)) (tp : TopicPartition)
    (o : Nat) : (s.pushMarkers pushes).Aborted tp o ↔
      s.Aborted tp o ∨ InMarkers ((pushes.filter (·.1 = tp)).map (·.2)) o := by
  induction pushes generalizing s with
  | nil => simp [pushMarkers, InMarkers]
  | cons m pushes ih =>
    have hpush : (s.pushMarkers (m :: pushes)).Aborted tp o ↔
        ((s.pushAbortedMarker m.1 m.2).pushMarkers pushes).Aborted tp o := Iff.rfl
    rw [hpush, ih]
    by_cases htp : m.1 = tp
    · subst htp
      simp [Aborted, pushAbortedMarker, InMarkers, or_assoc]
    · simp [Aborted, pushAbortedMarker, htp, Ne.symm htp]

/-- Dropping and clipping aborted ranges below the log start, whatever is pushed later, and writing
the marker file and loading it in a new broker keep the meaning of the table at and above the start
of the log; loading adds the transactions that were open, not those that were prepared. -/
theorem aborted_markers_maintained (s : State) (tp : TopicPartition) (o : Nat) :
    (∀ logStart ≤ o, ∀ pushes,
      ((s.collectMarkers tp logStart).pushMarkers pushes).isAbortedOffset tp o =
        (s.pushMarkers pushes).isAbortedOffset tp o) ∧
    ∀ step file starts (b : State), (s.persistTxnMarkers step).markersFile = some file →
      (∀ logStart, starts tp = some logStart → logStart ≤ o) →
      b.abortedTxns = loadedMarkers starts file →
      (b.isAbortedOffset tp o = true ↔ s.isAbortedOffset tp o = true ∨
        ∃ txn ∈ Assoc.values s.openTxns, Covered txn.written tp o) := by
  refine ⟨fun logStart ho pushes => ?_, fun step file starts b hfile ho hb => ?_⟩
  · rw [Bool.eq_iff_iff, isAbortedOffset_iff, isAbortedOffset_iff, aborted_pushMarkers,
      aborted_pushMarkers]
    refine or_congr_left ?_
    simp only [Aborted, collectMarkers, Function.update_self]
    exact inMarkers_gc _ ho
  · rw [isAbortedOffset_iff, isAbortedOffset_iff, Aborted, hb, inMarkers_loadedMarkers ho]
    have hfresh := fresh_persistTxnMarkers s step tp o
    simp only [Hides, hfile, Option.some.injEq, exists_eq_left'] at hfresh
    exact hfresh

/-- Producer 1 has aborted, producer 2 has written at offset 2. -/
def half : State :=
  (fresh oneSecond).follow (begins false ++ [.op (writes 1), .op (.endTxn 1 0 false []),
    .op (.initProducerId "b" false false 0), .op (.beginTxn 2 0), .op (writes 2)])

/-- The log starts at 1 when a new broker loads the file: offset 2 is aborted there. -/
theorem open_range_aborted_after_load : half.isAbortedOffset orders 2 = false ∧
      { half with abortedTxns := loadedMarkers (fun _ => some 1) half.markersSnapshot
        }.isAbortedOffset orders 2 = true := by
  refine ⟨by decide +kernel, ?_⟩
  refine ((aborted_markers_maintained half orders 2).2 .markers half.markersSnapshot
    (fun _ => some 1) _ rfl (fun _ h => ?_) rfl).mpr (.inr ?_)
  · exact Option.some.inj h ▸ Nat.le_succ 1
  · exact (by decide +kernel : ∃ txn ∈ Assoc.values half.openTxns, ∃ r ∈ txn.written,
      r.tp = orders ∧ r.firstOffset ≤ 2 ∧ 2 < r.endOffset)

/-- Offset 0 was aborted, and is below the start of the log when the file is loaded. -/
theorem aborted_below_start_forgotten : half.isAbortedOffset orders 0 = true ∧
      { half with abortedTxns := loadedMarkers (fun _ => some 1) half.markersSnapshot
        }.isAbortedOffset orders 0 = false := by
  decide +kernel

end Volant.Broker.State
