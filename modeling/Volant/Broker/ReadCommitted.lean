-- SUMMARY: READ_COMMITTED fetches return exactly the plain and committed records, along clean histories.
import Volant.Broker.CrashAbort

/-!
# READ_COMMITTED

Below the last stable offset, a READ_COMMITTED fetch returns a record if and
only if it was produced outside a transaction, or in a committed one, or is a
control marker of the broker. This holds along clean histories. It fails in
general, since an abort hides whatever lies between the first and the last
record of its transaction on a partition.
-/

namespace Volant.Broker.State

open List

variable {exact : Prop} {s : State}

/-- The record at this offset belongs to no transaction, or to a committed one. -/
def counts (s : State) (tp : TopicPartition) (o : Nat) : Bool :=
  match s.originAt tp o with
  | some (.txn n) => decide (n ∈ s.committed)
  | some .plain | some .control => true
  | none => false

theorem foldl_min_le (l : List WrittenRange) (init : Nat) :
    l.foldl (fun lso r => min lso r.firstOffset) init ≤ init ∧
      ∀ r ∈ l, l.foldl (fun lso r => min lso r.firstOffset) init ≤ r.firstOffset := by
  induction l generalizing init with
  | nil => exact ⟨le_rfl, fun r hr => absurd hr not_mem_nil⟩
  | cons r l ih =>
    obtain ⟨hinit, hmem⟩ := ih (min init r.firstOffset)
    refine ⟨hinit.trans (min_le_left _ _), fun r' hr' => ?_⟩
    rcases mem_cons.mp hr' with rfl | hin
    · exact hinit.trans (min_le_right _ _)
    · exact hmem r' hin

variable {tp : TopicPartition}

/-- No open or prepared transaction has a record below the last stable offset. -/
theorem lsoAt_le_of_covered {o : Nat} {t : OpenTxn} (ht : t ∈ s.live)
    (hc : Covered t.written tp o) : s.lsoAt tp ≤ o := by
  obtain ⟨r, hr, htp, hle, -⟩ := hc
  have hmem : r ∈ s.unstableRanges := by
    simp only [live, Assoc.values, map_map, mem_append, mem_map] at ht
    simp only [unstableRanges, mem_append, mem_flatMap]
    rcases ht with ⟨e, he, rfl⟩ | ⟨e, he, rfl⟩
    · exact .inl ⟨e, he, hr⟩
    · exact .inr ⟨e, he, hr⟩
  refine ((foldl_min_le _ _).2 r ?_).trans hle
  exact mem_filter.mpr ⟨hmem, by simpa using htp⟩

/-- A record that a fetch examines stands at its offset, and has an origin. -/
theorem origin_of_examined (h : LogsOk exact s.disk.logs s.origins)
    {start maxMessages : Nat} {records : List Record}
    (hexamined : s.examined tp start maxMessages = .ok records) {r : Record} (hr : r ∈ records) :
    ∃ g, s.originAt tp r.offset = some g ∧ Marked exact r.headers g := by
  unfold examined at hexamined
  split at hexamined
  · cases hexamined
  next p hp =>
    cases hexamined
    have hmem : r ∈ p.log :=
      mem_of_mem_filter (mem_of_mem_take (mem_of_mem_filter hr))
    obtain ⟨i, hi⟩ := getElem?_of_mem hmem
    have hlog := disk_logs_of_some hp
    have hoffset : r.offset = i := by
      rw [(h.gapFree tp p.log hlog).offset_eq hi, Nat.zero_add]
    have hlt : i < (s.origins tp).length := by
      rw [h.length tp, hlog]
      exact (List.getElem?_eq_some_iff.mp hi).1
    refine ⟨(s.origins tp)[i], ?_, ?_⟩
    · rw [hoffset]
      exact getElem?_eq_getElem hlt
    · exact h.marked tp p.log i r _ hlog hi (getElem?_eq_getElem hlt)

/-- Below the last stable offset, what READ_COMMITTED keeps is what counts. -/
theorem Inv.readCommittedKeeps_eq_counts (h : Inv True s) {r : Record}
    {g : Origin} (horigin : s.originAt tp r.offset = some g) (hmarked : Marked True r.headers g)
    (hlt : r.offset < s.lsoAt tp) :
    s.readCommittedKeeps tp (s.lsoAt tp) r = s.counts tp r.offset := by
  have hexact := h.mem.ledger.exact trivial tp r.offset
  have hnotAborted : ¬ g.Discardable s.committed → s.isAbortedOffset tp r.offset = false := by
    intro hnot
    rw [← Bool.not_eq_true, isAbortedOffset_iff]
    intro ha
    obtain ⟨g', hg', hdisc⟩ := hexact ha
    cases horigin.symm.trans hg'
    exact hnot hdisc
  unfold readCommittedKeeps counts
  rw [horigin]
  cases g with
  | plain => simp [hlt, hnotAborted (by simp [Origin.Discardable])]
  | control =>
    have hcontrol : isTxnControlRecord r = true := hmarked
    simp [hlt, hcontrol]
  | txn n =>
    have hdata : isTxnControlRecord r = false := hmarked trivial
    simp only [hdata, Bool.false_eq_true, if_false, hlt, decide_true, Bool.true_and]
    by_cases hn : n ∈ s.committed
    · simp [hn, hnotAborted (by simp [Origin.Discardable, hn])]
    · have haborted : s.isAbortedOffset tp r.offset = true := by
        rw [isAbortedOffset_iff]
        rcases h.mem.ledger.held tp r.offset n horigin with hc | ha | ⟨t, ht, rfl⟩
        · exact absurd hc hn
        · exact ha
        · have hcovered := (h.mem.ledger.own t ht tp r.offset).mp horigin
          exact absurd hlt (Nat.not_lt.mpr (lsoAt_le_of_covered ht hcovered))
      simp [hn, haborted]

/-- Along every clean history, a READ_COMMITTED fetch returns of the records it examines those
below the last stable offset that belong to no transaction or to a committed one. -/
theorem read_committed_exact {config : Config}
    (h : Reachable (fun s e => s.CrashSafe e ∧ s.CleanEvent e) config s) (tp : TopicPartition)
    (start maxMessages : Nat) (hclean : s.Clean (.fetch tp start maxMessages .readCommitted))
    {records : List Record} (hexamined : s.examined tp start maxMessages = .ok records) :
    (s.fetchUpTo tp start maxMessages .readCommitted).1 = .ok (records.filter fun r =>
      decide (r.offset < (s.lastStableOffset tp).1) && s.counts tp r.offset) := by
  have hinv : Inv True s := h.inv fun _ _ hok => ⟨hok.1, fun _ => hok.2⟩
  have htrace : False → TraceOk True s := False.elim
  obtain ⟨hexpired, -, hlater⟩ := hinv.expireTimedOutTxns htrace fun _ => hclean (by simp)
  simp only [fetchUpTo, hexamined, lastStableOffset, Except.ok.injEq]
  refine filter_congr fun r hr => ?_
  obtain ⟨g, horigin, hmarked⟩ := origin_of_examined hinv.mem.logs hexamined hr
  have horigin' := hlater.originAt horigin
  by_cases hlt : r.offset < s.expireTimedOutTxns.lsoAt tp
  · rw [hexpired.readCommittedKeeps_eq_counts horigin' hmarked hlt]
    simp [hlt, counts, horigin, horigin', hlater.committed]
  · simp [readCommittedKeeps, hlt]

/-! ## Unclean histories -/

/-- Sequential operations without two-phase commit and without restarts. -/
def OnePhase (_ : State) : Event → Prop
  | .op (.restart _) | .crash _ _ _ => False
  | .op (.initProducerId _ enable2pc _ _) => enable2pc = false
  | .op _ => True

/-- The offsets of the records that a READ_COMMITTED fetch of ten records returns. -/
def returned (s : State) (tp : TopicPartition) : List Nat :=
  match (s.fetchUpTo tp 0 10 .readCommitted).1 with
  | .ok records => records.map (·.offset)
  | .error _ => []

/-- A plain record between two records of a transaction that aborts. -/
def enclosed : List Event :=
  begins false ++ [.op (writes 1), .op (.produce orders [order 9]),
    .op (.bufferTxnProduce 1 0 orders 1 [order 1]), .op (.endTxn 1 0 false [])]

/-- A transactional record with the header of a control marker, in a transaction that aborts. -/
def forged : List Event :=
  begins false ++ [.op (.bufferTxnProduce 1 0 orders 0
    [{ order 1 with headers := [(txnControlHeader, txnControlHeaderValue)] }]),
    .op (.endTxn 1 0 false [])]

/-- The enclosed record counts and is not returned; the forged one does not count and is. -/
theorem read_committed_inexact : (Reachable OnePhase oneSecond ((fresh oneSecond).follow enclosed) ∧
      ((fresh oneSecond).follow enclosed).originAt orders 1 = some .plain ∧
      1 < (((fresh oneSecond).follow enclosed).lastStableOffset orders).1 ∧
      1 ∉ ((fresh oneSecond).follow enclosed).returned orders) ∧
    (Reachable OnePhase oneSecond ((fresh oneSecond).follow forged) ∧
      ((fresh oneSecond).follow forged).counts orders 0 = false ∧
      0 ∈ ((fresh oneSecond).follow forged).returned orders) := by
  refine ⟨⟨Reachable.start.follow ?_, ?_⟩, ⟨Reachable.start.follow ?_, ?_⟩⟩
  · simp [enclosed, begins, writes, Permits, OnePhase, next]
  · decide +kernel
  · simp [forged, begins, Permits, OnePhase, next]
  · decide +kernel

/-- Transactions of two producers interleave with a plain record; one commits, one aborts. -/
def interleaved : List Event :=
  begins false ++ [.op (.initProducerId "b" false false 0), .op (.beginTxn 2 0),
    .op (writes 1), .op (writes 2), .op (.produce orders [order 9]),
    .op (.bufferTxnProduce 1 0 orders 1 [order 1]), .op (.endTxn 1 0 true []),
    .op (.endTxn 2 0 false [])]

theorem interleaved_read_committed :
    ∃ records, ((fresh oneSecond).follow interleaved).examined orders 0 10 = .ok records ∧
      records.map (·.offset) = [0, 1, 2, 3, 4, 5] ∧
      (((fresh oneSecond).follow interleaved).fetchUpTo orders 0 10 .readCommitted).1 =
        .ok (records.filter fun r =>
          decide (r.offset < (((fresh oneSecond).follow interleaved).lastStableOffset orders).1) &&
            ((fresh oneSecond).follow interleaved).counts orders r.offset) := by
  have hok : Permits (fun s e => s.CrashSafe e ∧ s.CleanEvent e) (fresh oneSecond) interleaved := by
    decide +kernel
  have hclean : ((fresh oneSecond).follow interleaved).Clean
      (.fetch orders 0 10 .readCommitted) := by
    decide +kernel
  have hoffsets : (match ((fresh oneSecond).follow interleaved).examined orders 0 10 with
      | .ok records => records.map (·.offset)
      | .error _ => []) = [0, 1, 2, 3, 4, 5] := by
    decide +kernel
  cases hexamined : ((fresh oneSecond).follow interleaved).examined orders 0 10 with
  | error e =>
    rw [hexamined] at hoffsets
    cases hoffsets
  | ok records =>
    rw [hexamined] at hoffsets
    exact ⟨records, rfl, hoffsets,
      read_committed_exact (Reachable.start.follow hok) orders 0 10 hclean hexamined⟩

end Volant.Broker.State
