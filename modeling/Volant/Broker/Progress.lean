-- SUMMARY: When a fetch that finds a visible record returns one, and what a consumer then reads.
import Volant.Broker.ReadCommitted

/-!
# Progress of a fetch

A fetch reads at most `maxMessages` records from the log, and only then drops
those that its view hides. It comes back empty, however often it is repeated,
when that many hidden records stand before the first visible one.
-/

namespace Volant.Broker.State

open List

/-! ## Views -/

section

variable (s : State) (tp : TopicPartition) (p : Partition) (isolation : FetchIsolation)

/-- What a fetch keeps of the records it reads: expiry comes before the last stable offset and
before the first unstable range is looked up. -/
def inView (r : Record) : Bool :=
  let expired := s.expireTimedOutTxns
  decide (r.offset < p.committedHwm) && match isolation with
    | .readUncommitted => true
    | .readCommitted => expired.readCommittedKeeps tp (expired.lsoAt tp) r
    | .committedOnly => expired.committedOnlyKeeps tp r

/-- Data below the high watermark that no transaction holds back, for READ_COMMITTED also below
the last stable offset. -/
def visible (r : Record) : Bool :=
  let expired := s.expireTimedOutTxns
  decide (r.offset < p.committedHwm) && !isTxnControlRecord r &&
    !expired.isAbortedOffset tp r.offset && !expired.isUnstableOffset tp r.offset &&
    (decide (isolation ≠ .readCommitted) || decide (r.offset < expired.lsoAt tp))

/-- The view from an offset on. -/
def viewFrom (start : Nat) : List Record :=
  (p.log.filter (start ≤ ·.offset)).filter (s.inView tp p isolation)

/-- How many records stand between an offset and the first record of the view. -/
def hiddenFrom (start : Nat) : Nat :=
  ((p.log.filter (start ≤ ·.offset)).takeWhile (!s.inView tp p isolation ·)).length

end

variable {s : State} {tp : TopicPartition} {p : Partition} {isolation : FetchIsolation}
  {start maxMessages : Nat}

theorem inView_of_visible {r : Record} (h : s.visible tp p isolation r = true) :
    s.inView tp p isolation r = true := by
  simp only [visible, Bool.and_eq_true, Bool.not_eq_true'] at h
  obtain ⟨⟨⟨⟨hhwm, hdata⟩, haborted⟩, hunstable⟩, hlso⟩ := h
  unfold inView
  cases isolation with
  | readUncommitted => simpa using hhwm
  | readCommitted =>
    simp only [ne_eq, not_true_eq_false, decide_false, Bool.false_or] at hlso
    simp [readCommittedKeeps, hhwm, haborted, hlso]
  | committedOnly => simp [committedOnlyKeeps, hhwm, hdata, haborted, hunstable]

/-! ## One fetch -/

theorem fetchUpTo_eq_filter (hp : s.partitions tp = some p) :
    (s.fetchUpTo tp start maxMessages isolation).1 = .ok
      (((p.log.filter (start ≤ ·.offset)).take maxMessages).filter (s.inView tp p isolation)) := by
  simp only [fetchUpTo, examined, hp, lastStableOffset, Partition.read]
  cases isolation with
  | readUncommitted => exact congrArg _ (filter_congr fun r _ => by simp [inView])
  | readCommitted =>
    rw [filter_filter]
    exact congrArg _ (filter_congr fun r _ => Bool.and_comm _ _)
  | committedOnly =>
    simp only [Except.ok.injEq, filter_filter]
    refine filter_congr fun r hr => ?_
    split
    next hall =>
      -- nothing but control markers below the high watermark: neither state shows any
      by_cases hhwm : r.offset < p.committedHwm
      · have hcontrol : isTxnControlRecord r = true :=
          all_eq_true.mp hall r (mem_filter.mpr ⟨hr, decide_eq_true hhwm⟩)
        simp [inView, committedOnlyKeeps, hcontrol]
      · simp [inView, hhwm]
    next => exact Bool.and_comm _ _

theorem filter_take_ne_nil {α : Type} {v : α → Bool} {l : List α} (h : l.filter v ≠ []) (n : Nat) :
    (l.take n).filter v ≠ [] ↔ (l.takeWhile (!v ·)).length < n := by
  induction l generalizing n with
  | nil => exact absurd rfl h
  | cons x l ih =>
    cases n with
    | zero => simp
    | succ n =>
      by_cases hx : v x = true
      · simp [hx]
      · simp only [filter_cons, hx, Bool.false_eq_true, if_false] at h
        simpa [hx] using ih h n

/-! ## A consumer -/

/-- A consumer that fetches from one past the last record it received, until nothing comes. -/
def consume (s : State) (tp : TopicPartition) (isolation : FetchIsolation) (maxMessages : Nat) :
    Nat → Nat → List Record
  | 0, _ => []
  | fuel + 1, start =>
    match (s.fetchUpTo tp start maxMessages isolation).1 with
    | .error _ => []
    | .ok records =>
      match records.getLast? with
      | none => []
      | some last => records ++ s.consume tp isolation maxMessages fuel (last.offset + 1)

/-- What is left of the view once a consumer has a part of it. -/
theorem viewFrom_eq_append (hsorted : p.log.Pairwise (·.offset < ·.offset))
    {init rest : List Record} {last : Record}
    (hview : s.viewFrom tp p isolation start = init ++ [last] ++ rest) :
    s.viewFrom tp p isolation (last.offset + 1) = rest := by
  have hle : start ≤ last.offset := by
    have hmem : last ∈ s.viewFrom tp p isolation start := by simp [hview]
    simpa using (mem_filter.mp (mem_of_mem_filter hmem)).2
  have hlater : s.viewFrom tp p isolation (last.offset + 1) =
      (s.viewFrom tp p isolation start).filter (last.offset + 1 ≤ ·.offset) := by
    simp only [viewFrom, filter_filter]
    refine filter_congr fun r _ => ?_
    by_cases hr : last.offset + 1 ≤ r.offset
    · simp [hr, show start ≤ r.offset by omega]
    · simp [hr]
  have hpair : (init ++ [last] ++ rest).Pairwise (·.offset < ·.offset) :=
    hview ▸ (hsorted.filter _).filter _
  rw [hlater, hview]
  obtain ⟨hfront, -, hacross⟩ := pairwise_append.mp hpair
  have hbefore := (pairwise_append.mp hfront).2.2
  rw [filter_append, filter_eq_nil_iff.mpr, nil_append, filter_eq_self]
  · intro r hr
    have := hacross last (by simp) r hr
    simpa using this
  · intro r hr
    rcases mem_append.mp hr with hin | hin
    · have := hbefore r hin last (by simp)
      simp
      omega
    · simp [mem_singleton.mp hin]

/-- While the log and the tables stand still, a consumer reads the whole view. -/
theorem consume_eq_viewFrom (hp : s.partitions tp = some p)
    (hsorted : p.log.Pairwise (·.offset < ·.offset)) {fuel : Nat}
    (hshort : ∀ o, s.viewFrom tp p isolation o ≠ [] → s.hiddenFrom tp p isolation o < maxMessages)
    (hfuel : (s.viewFrom tp p isolation start).length ≤ fuel) :
    s.consume tp isolation maxMessages fuel start = s.viewFrom tp p isolation start := by
  induction fuel generalizing start with
  | zero => exact (length_eq_zero_iff.mp (Nat.le_zero.mp hfuel)).symm
  | succ fuel ih =>
    obtain ⟨rest, hsplit⟩ := IsPrefix.filter (s.inView tp p isolation) <|
      take_prefix maxMessages (p.log.filter (start ≤ ·.offset))
    simp only [consume, fetchUpTo_eq_filter hp]
    split
    next hnone =>
      rw [getLast?_eq_none_iff] at hnone
      by_contra hne
      exact (filter_take_ne_nil (Ne.symm hne) maxMessages).mpr (hshort start (Ne.symm hne)) hnone
    next last hlast =>
      obtain ⟨init, hinit⟩ := getLast?_eq_some_iff.mp hlast
      rw [hinit] at hsplit ⊢
      have hlength := congrArg length hsplit
      have hrest : s.viewFrom tp p isolation (last.offset + 1) = rest :=
        viewFrom_eq_append hsorted hsplit.symm
      rw [ih, hrest]
      · exact hsplit
      · simp only [length_append, length_singleton] at hlength
        rw [hrest]
        change _ = (s.viewFrom tp p isolation start).length at hlength
        omega

/-- A fetch returns the first records of its view; where a record is visible it returns one if and
only if fewer than `maxMessages` hidden records stand before it. With such short runs everywhere a
consumer receives every visible record. -/
theorem fetch_progress_iff (hp : s.partitions tp = some p)
    (hsorted : p.log.Pairwise (·.offset < ·.offset))
    (hvisible : ∃ r ∈ p.log, start ≤ r.offset ∧ s.visible tp p isolation r = true) :
    (∃ records, (s.fetchUpTo tp start maxMessages isolation).1 = .ok records ∧
      records <+: s.viewFrom tp p isolation start ∧
      (records ≠ [] ↔ s.hiddenFrom tp p isolation start < maxMessages)) ∧
    ((∀ o, s.viewFrom tp p isolation o ≠ [] → s.hiddenFrom tp p isolation o < maxMessages) →
      ∀ r ∈ p.log, start ≤ r.offset → s.visible tp p isolation r = true →
        r ∈ s.consume tp isolation maxMessages p.log.length start) := by
  have hin {r : Record} (hr : r ∈ p.log) (hle : start ≤ r.offset)
      (hv : s.visible tp p isolation r = true) : r ∈ s.viewFrom tp p isolation start :=
    mem_filter.mpr ⟨mem_filter.mpr ⟨hr, decide_eq_true hle⟩, inView_of_visible hv⟩
  refine ⟨⟨_, fetchUpTo_eq_filter hp, IsPrefix.filter _ <| take_prefix _ _, ?_⟩,
    fun hshort r hr hle hv => ?_⟩
  · obtain ⟨r, hr, hle, hv⟩ := hvisible
    exact filter_take_ne_nil (ne_nil_of_mem (hin hr hle hv)) maxMessages
  · rw [consume_eq_viewFrom hp hsorted hshort]
    · exact hin hr hle hv
    · exact (length_filter_le _ _).trans (length_filter_le _ _)

/-- A transaction aborts its only record, and a plain record follows. -/
def abortedFirst : List Event :=
  begins false ++ [.op (writes 1), .op (.endTxn 1 0 false []), .op (.produce orders [order 9])]

/-- One record at a time, neither view gets past the aborted record. -/
theorem fetch_stuck_before_visible :
    let s := (fresh oneSecond).follow abortedFirst
    Reachable OnePhase oneSecond s ∧
      ∀ isolation ∈ [FetchIsolation.committedOnly, .readCommitted],
        (s.partitions orders).any (fun p => p.log.any fun r =>
          decide (r.offset = 2) && s.visible orders p isolation r) = true ∧
        (s.fetchUpTo orders 0 1 isolation).1.toOption = some [] ∧
        (s.fetchUpTo orders 0 1 isolation).2.nowMs = s.nowMs := by
  refine ⟨Reachable.start.follow ?_, ?_⟩
  · simp [abortedFirst, begins, writes, Permits, OnePhase, next]
  · decide +kernel

theorem fetch_past_aborted_record :
    let s := (fresh oneSecond).follow abortedFirst
    ∃ records, (s.fetchUpTo orders 0 3 .committedOnly).1 = .ok records ∧ records ≠ [] := by
  intro s
  obtain ⟨p, hp⟩ := Option.isSome_iff_exists.mp
    (show (s.partitions orders).isSome = true by decide +kernel)
  have hfacts : (s.partitions orders).all (fun p =>
      decide (p.log.Pairwise (·.offset < ·.offset)) &&
        (p.log.any fun r => decide (0 ≤ r.offset) && s.visible orders p .committedOnly r) &&
        decide (s.hiddenFrom orders p .committedOnly 0 < 3)) = true := by
    decide +kernel
  simp only [hp, Option.all_some, Bool.and_eq_true, decide_eq_true_eq, any_eq_true] at hfacts
  obtain ⟨⟨hsorted, hvisible⟩, hshort⟩ := hfacts
  obtain ⟨⟨records, hfetch, -, hiff⟩, -⟩ := fetch_progress_iff hp hsorted hvisible
  exact ⟨records, hfetch, hiff.mpr hshort⟩

end Volant.Broker.State
