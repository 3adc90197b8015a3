-- SUMMARY: Transaction isolation of interleaved calls: what committed readers return has been committed.
import Volant.Broker.Alone
import Volant.Broker.CallRules

/-!
# Isolation of concurrent calls

A reader that looks while a record is between the tables returns it, whatever
becomes of its transaction; and a range may be registered in a transaction that
the producer began after the sequence check. As long as no reader looks at such
a moment, and a range is registered in the transaction whose sequence was
checked, readers return nothing that has not been committed.
-/

namespace Volant.Broker

open Sections List
open State (orders)

namespace Program

open Shared

variable {α : Type} {sh sh' : Shared} {t : Nat} {tp : TopicPartition} {o : Nat}

/-! ## Fetching -/

/-- The record belongs to no transaction, or to one that has been ended with commit. -/
def Returnable (tp : TopicPartition) (r : Record) (sh : Shared) : Prop :=
  ∃ g, sh.state.originAt tp r.offset = some g ∧ ∀ n, g = .txn n → n ∈ sh.ended

/-- The record belongs to no transaction, or its transaction is committed or its offset aborted. -/
def Decided (tp : TopicPartition) (r : Record) (sh : Shared) : Prop :=
  ∃ g, sh.state.originAt tp r.offset = some g ∧
    ∀ n, g = .txn n → n ∈ sh.ended ∨ sh.state.Aborted tp r.offset

/-- A record that has been read has an origin, and if it is a transaction's, no control header. -/
def Known (tp : TopicPartition) (r : Record) (sh : Shared) : Prop :=
  ∃ g, sh.state.originAt tp r.offset = some g ∧ Marked True r.headers g

variable {r : Record} {records : List Record}

theorem Returnable.later (h : Returnable tp r sh) (hlater : Later sh sh') : Returnable tp r sh' := by
  obtain ⟨g, horigin, hended⟩ := h
  exact ⟨g, hlater.originAt horigin, fun n hn => hlater.ended n (hended n hn)⟩

theorem Decided.later (h : Decided tp r sh) (hlater : Later sh sh') : Decided tp r sh' := by
  obtain ⟨g, horigin, hdecided⟩ := h
  exact ⟨g, hlater.originAt horigin, fun n hn =>
    (hdecided n hn).imp (hlater.ended n) (hlater.aborted tp r.offset)⟩

theorem Known.later (h : Known tp r sh) (hlater : Later sh sh') : Known tp r sh' := by
  obtain ⟨g, horigin, hmarked⟩ := h
  exact ⟨g, hlater.originAt horigin, hmarked⟩

theorem Known.offset_lt (h : Known tp r sh) : r.offset < (sh.state.origins tp).length := by
  obtain ⟨g, horigin, -⟩ := h
  exact (List.getElem?_eq_some_iff.mp horigin).1

/-- Nothing of the open table lies below the offset that it holds back. -/
theorem heldBack_le {ranges : List WrittenRange} {lso : Nat} (h : o < heldBack tp ranges lso) :
    o < lso ∧ ¬ Covered ranges tp o := by
  obtain ⟨hle, hall⟩ := State.foldl_min_le (ranges.filter (·.tp = tp)) lso
  refine ⟨h.trans_le hle, ?_⟩
  rintro ⟨range, hrange, htp, hfirst, -⟩
  have := hall range (mem_filter.mpr ⟨hrange, by simpa using htp⟩)
  exact absurd (h.trans_le this) (Nat.not_lt.mpr hfirst)

theorem covered_openRanges {s : State} {txn : OpenTxn} (hmem : txn ∈ Assoc.values s.openTxns)
    (h : Covered txn.written tp o) : Covered (openRanges s) tp o := by
  obtain ⟨e, he, rfl⟩ := mem_map.mp hmem
  obtain ⟨range, hrange, hholds⟩ := h
  exact ⟨range, mem_flatMap.mpr ⟨e, he, hrange⟩, hholds⟩

theorem covered_preparedRanges {s : State} {prep : PreparedTxn}
    (hmem : prep ∈ Assoc.values s.preparedTxns) (h : Covered prep.body.written tp o) :
    Covered (preparedRanges s) tp o := by
  obtain ⟨e, he, rfl⟩ := mem_map.mp hmem
  obtain ⟨range, hrange, hholds⟩ := h
  exact ⟨range, mem_flatMap.mpr ⟨e, he, hrange⟩, hholds⟩

variable {offsets : List Nat}

/-- A reader whose look at the open table was allowed and found nothing has seen the last of the
offset there. -/
theorem not_young (hallowed : Allowed (.scanOpen tp offsets) sh)
    (ho : o ∈ offsets) (hopen : ¬ Covered (openRanges sh.state) tp o) : ¬ sh.Young tp o := by
  rintro (⟨txn, hmem, hcovered⟩ | ⟨u, l, hl, hholds⟩)
  · exact hopen (covered_openRanges hmem hcovered)
  · have hnone := hand_of_entries (P := fun hands => ∀ l ∈ hands.appended, ∀ o ∈ offsets,
      ¬ l.2.Holds tp o) (by simp [Hands.empty]) hallowed u
    exact hnone l hl o ho hholds

/-- The look at the prepared table that follows decides the record. -/
theorem decided_of_scan (hok : Ok sh) (hknown : Known tp r sh)
    (hallowed : Allowed (.scanPrepared tp offsets) sh) (ho : r.offset ∈ offsets)
    (hyoung : ¬ sh.Young tp r.offset) (hprepared : ¬ Covered (preparedRanges sh.state) tp r.offset) :
    Decided tp r sh := by
  obtain ⟨g, horigin, -⟩ := hknown
  refine ⟨g, horigin, ?_⟩
  rintro n rfl
  cases hok.held tp r.offset n horigin with
  | ended hn => exact .inl hn
  | aborted ha => exact .inr ha
  | live txn hmem hserial hcovered =>
    rcases mem_append.mp hmem with hopen | hprep
    · exact absurd (.inl ⟨txn, hopen, hcovered⟩) hyoung
    · obtain ⟨prep, hmem', rfl⟩ := mem_map.mp hprep
      exact absurd (covered_preparedRanges hmem' hcovered) hprepared
  | appended u range hmem hholds => exact absurd (.inr ⟨u, _, hmem, hholds⟩) hyoung
  | taken u range hmem hholds =>
    have hnone := hand_of_entries (P := fun hands => ∀ l ∈ hands.taken, ∀ o ∈ offsets,
      ¬ l.2.Holds tp o) (by simp [Hands.empty]) hallowed u
    exact absurd hholds (hnone _ hmem r.offset ho)

/-- A decided record that is not aborted may be returned. -/
theorem Decided.returnable (h : Decided tp r sh)
    (haborted : sh.state.isAbortedOffset tp r.offset = false) : Returnable tp r sh := by
  obtain ⟨g, horigin, hdecided⟩ := h
  refine ⟨g, horigin, fun n hn => (hdecided n hn).resolve_right ?_⟩
  rw [← State.isAbortedOffset_iff, haborted]
  simp

theorem wp_look {label : Label} {read : Shared → α} {post : α → Shared → Prop}
    (h : ∀ sh', Rely t sh sh' → Ok sh' → Allowed label sh' → post (read sh') sh') :
    wp contract t (.look label read) post sh :=
  wp_section fun sh' hrely hok hallowed =>
    ⟨fun u _ => .refl u sh', hok, h sh' hrely hok hallowed⟩

/-- What lies below the last stable offset is decided. -/
theorem wp_lastStableOffset (hidle : Idle t sh) (hknown : ∀ r ∈ records, Known tp r sh) :
    wp contract t (lastStableOffset t tp (records.map (·.offset)))
      (fun lso sh' => Rely t sh sh' ∧ ∀ r ∈ records, r.offset < lso → Decided tp r sh') sh := by
  refine wp_bind (wp_expireTimedOutTxns hidle fun sh₁ h₁ => ?_)
  refine wp_bind (calm_reads _ sh₁ _ fun hwm sh₂ h₂ => ?_)
  refine wp_bind (wp_look fun sh₃ h₃ _ hallowed₃ => wp_look fun sh₄ h₄ hok₄ hallowed₄ => ?_)
  have h₀₃ := (h₁.trans h₂).trans h₃
  refine ⟨h₀₃.trans h₄, fun r hr hlt => ?_⟩
  have hmem : r.offset ∈ records.map (·.offset) := mem_map_of_mem hr
  obtain ⟨hlt₃, hprepared⟩ := heldBack_le hlt
  have hyoung₃ := not_young hallowed₃ hmem (heldBack_le hlt₃).2
  have hlength := ((hknown r hr).later h₀₃.later).offset_lt
  exact decided_of_scan hok₄ ((hknown r hr).later (h₀₃.trans h₄).later) hallowed₄ hmem
    (fun hy => hyoung₃ (h₄.later.young tp r.offset hlength hy)) hprepared

theorem wp_readCommittedKeeps {lso : Nat} (hknown : Known tp r sh)
    (hdecided : r.offset < lso → Decided tp r sh) : wp contract t (readCommittedKeeps tp lso r)
      (fun yes sh' => Rely t sh sh' ∧ (yes = true → Returnable tp r sh')) sh := by
  unfold readCommittedKeeps
  split
  next hcontrol =>
    -- a control marker belongs to no transaction
    refine ⟨.refl t sh, fun _ => ?_⟩
    obtain ⟨g, horigin, hmarked⟩ := hknown
    refine ⟨g, horigin, ?_⟩
    rintro n rfl
    have hdata : isTxnControlRecord r = false := hmarked trivial
    rw [hdata] at hcontrol
    cases hcontrol
  split
  next hlt =>
    refine wp_bind (wp_look fun sh₁ h₁ _ _ => ⟨h₁, fun hyes => ?_⟩)
    exact ((hdecided hlt).later h₁.later).returnable (by simpa using hyes)
  next => exact ⟨.refl t sh, by simp⟩

theorem wp_committedOnlyKeeps (hidle : Idle t sh) (hknown : Known tp r sh) :
    wp contract t (committedOnlyKeeps t tp r)
      (fun yes sh' => Rely t sh sh' ∧ (yes = true → Returnable tp r sh')) sh := by
  unfold committedOnlyKeeps
  split
  · exact ⟨.refl t sh, by simp⟩
  have hunstable : wp contract t (isUnstableOffset t tp r.offset)
      (fun unstable sh' => Rely t sh sh' ∧ (unstable = false → Decided tp r sh')) sh := by
    refine wp_bind (wp_expireTimedOutTxns hidle fun sh₁ h₁ => ?_)
    refine wp_bind (wp_look fun sh₂ h₂ _ hallowed₂ => ?_)
    have h₀₂ := h₁.trans h₂
    split
    · exact ⟨h₀₂, by simp⟩
    next hopen =>
    refine wp_look fun sh₃ h₃ hok₃ hallowed₃ => ⟨h₀₂.trans h₃, fun hprepared => ?_⟩
    have hcovered {ranges : List WrittenRange} :
        holdsOffset tp r.offset ranges = true ↔ Covered ranges tp r.offset := by
      simp [holdsOffset, Covered]
    have hyoung₂ := not_young hallowed₂ mem_cons_self (hcovered.not.mp hopen)
    have hlength := (hknown.later h₀₂.later).offset_lt
    exact decided_of_scan hok₃ (hknown.later (h₀₂.trans h₃).later) hallowed₃ mem_cons_self
      (fun hy => hyoung₂ (h₃.later.young tp r.offset hlength hy))
      (hcovered.not.mp (by rw [hprepared]; simp))
  refine wp_bind (wp_mono (fun unstable sh₁ h₁ => ?_) hunstable)
  cases unstable with
  | true => exact ⟨h₁.1, by simp⟩
  | false =>
    refine wp_bind (wp_look fun sh₂ h₂ _ _ => ⟨h₁.1.trans h₂, fun hyes => ?_⟩)
    exact ((h₁.2 rfl).later h₂.later).returnable (by simpa using hyes)

/-- What a fetch of committed records returns. -/
theorem wp_fetchUpTo (hidle : Idle t sh) (tp : TopicPartition) (start maxMessages : Nat)
    (isolation : State.FetchIsolation) :
    wp contract t (fetchUpTo t tp start maxMessages isolation) (fun result sh' =>
      ∀ records, result = .ok records → isolation ≠ .readUncommitted →
        ∀ r ∈ records, Returnable tp r sh') sh := by
  refine wp_bind (wp_look fun sh₁ h₁ hok₁ _ => ?_)
  dsimp only
  cases hexamined : sh₁.state.examined tp start maxMessages with
  | error e => rintro records ⟨⟩
  | ok records =>
    have hidle₁ := hidle.rely h₁
    have hknown : ∀ r ∈ records, Known tp r sh₁ :=
      fun r hr => State.origin_of_examined hok₁.logs hexamined hr
    have hkeep {P : Prop} {s s' : Shared} {yes : Bool} {r : Record}
        (h : Rely t s s' ∧ (yes = true → Returnable tp r s')) (hP : P) :
        P ∧ (yes = true → Returnable tp r s') ∧
          ∀ r', Returnable tp r' s → Returnable tp r' s' :=
      ⟨hP, h.2, fun r' hr' => hr'.later h.1.later⟩
    cases isolation with
    | readUncommitted => exact fun _ _ h => absurd rfl h
    | readCommitted =>
      refine wp_bind (wp_mono (fun lso sh₂ h₂ => ?_) (wp_lastStableOffset hidle₁ hknown))
      refine wp_bind (wp_mono ?_ (wp_filter
        (Rely t sh₂) (Returnable tp) (fun r hr sh' h' => ?_)
        (.refl t sh₂)))
      · rintro kept sh₃ ⟨-, hkept, -⟩ _ ⟨⟩ - r hr
        exact (hkept r hr).2
      · refine wp_mono (fun yes sh'' h'' => hkeep h'' (h'.trans h''.1)) (wp_readCommittedKeeps
          ((hknown r hr).later (h₂.1.trans h').later) fun hlt => (h₂.2 r hr hlt).later h'.later)
    | committedOnly =>
      refine wp_bind (wp_mono ?_ (wp_filter
        (Rely t sh₁) (Returnable tp) (fun r hr sh' h' => ?_)
        (.refl t sh₁)))
      · rintro kept sh₃ ⟨-, hkept, -⟩ _ ⟨⟩ - r hr
        exact (hkept r hr).2
      · exact wp_mono (fun yes sh'' h'' => hkeep h'' (h'.trans h''.1))
          (wp_committedOnlyKeeps (hidle₁.rely h') ((hknown r hr).later h'.later))

end Program

/-! ## Runs -/

/-- Calls in any number on one broker, interleaved section by section. -/
abbrev Calls := System Call Label Shared Outcome

namespace Calls

open Shared Program

variable {t : Nat} {sys : Calls}

/-- A broker with any topics, producers and records outside transactions, before its first
transaction. -/
structure Start (sh : Shared) : Prop where
  logs : LogsOk True sh.state.disk.logs sh.state.origins
  whole : ∀ tp p, sh.state.partitions tp = some p → p.Whole
  openTxns : sh.state.openTxns = ∅
  preparedTxns : sh.state.preparedTxns = ∅
  origins : ∀ tp n, Origin.txn n ∉ sh.state.origins tp
  hands : sh.hands = ∅

/-- Runs in which every section is allowed. -/
abbrev Reachable (allowed : Label → Shared → Prop) : Calls → Prop :=
  System.Reachable Call.body allowed Start

/-- What a finished call promises. -/
def Promise (t : Nat) : Call → Outcome → Shared → Prop
  | .fetchUpTo tp _ _ isolation, .fetched (.ok records), sh =>
    isolation ≠ .readUncommitted → ∀ r ∈ records, Returnable tp r sh
  | .bufferTxnProduce _ _ tp _ messages, .produced (.accept baseOffset), sh =>
    Written t tp messages baseOffset sh
  | _, _, _ => True

theorem Promise.rely {k : Call} {a : Outcome} {sh sh' : Shared} (h : Promise t k a sh)
    (hrely : Rely t sh sh') : Promise t k a sh' := by
  unfold Promise at h ⊢
  split
  · exact fun hisolation r hr => (h hisolation r hr).later hrely.later
  · exact .rely h hrely
  · trivial

theorem wp_body (t : Nat) (k : Call) (sh : Shared) (hidle : Idle t sh) :
    wp contract t (k.body t) (Promise t k) sh := by
  cases k with
  | beginTxn pid epoch => exact wp_bind (wp_mono (fun _ _ _ => trivial) (wp_beginTxn hidle pid epoch))
  | bufferTxnProduce pid epoch tp baseSequence messages =>
    refine wp_bind (wp_mono (fun check sh' h => ?_)
      (wp_bufferTxnProduce hidle pid epoch tp baseSequence messages))
    cases check with
    | accept baseOffset => exact h baseOffset rfl
    | duplicate => trivial
    | reject => trivial
  | endTxn pid epoch committed offsets =>
    exact wp_bind (wp_mono (fun _ _ _ => trivial) (wp_endTxn hidle pid epoch committed offsets))
  | expireTimedOutTxns => exact wp_bind (wp_expireTimedOutTxns hidle fun _ _ => trivial)
  | fetchUpTo tp start maxMessages isolation =>
    refine wp_bind (wp_mono (fun result sh' h => ?_)
      (wp_fetchUpTo hidle tp start maxMessages isolation))
    cases result with
    | error e => trivial
    | ok records => exact h records rfl
  | produce tp messages =>
    refine wp_bind (wp_mono (fun _ _ _ => trivial) (Calm.wp_true (calm_section fun sh hok => ?_) sh))
    obtain ⟨hlater, hok'⟩ := hok.produce tp (g := .plain) (by simp) (fun _ _ => trivial) .plainAppend
    exact ⟨hlater, hok', rfl, rfl⟩
  | clock nowMs =>
    refine wp_bind (wp_mono (fun _ _ _ => trivial) (Calm.wp_true (calm_of_quiet fun _ => ?_) sh))
    exact ⟨⟨rfl, rfl, rfl, rfl, rfl, rfl, rfl, rfl⟩, rfl⟩

theorem Start.ok {sh : Shared} (h : Start sh) : Ok sh ∧ ∀ t, Idle t sh := by
  refine ⟨⟨h.logs, h.whole, ?_, fun tp o n ho => ?_⟩, fun t => ?_⟩
  · intro e he
    rw [h.preparedTxns] at he
    cases he
  · exact absurd (mem_of_getElem? ho) (h.origins tp n)
  · refine hand_eq_empty.mpr ?_
    rw [hand, h.hands]
    rfl

theorem Reachable.promise (h : Reachable Allowed sys) {k : Call} {a : Outcome}
    (hcall : sys.calls t = some (k, .ret a)) : Promise t k a sys.shared := by
  have hsafe : System.Safe contract Promise Idle sys := System.Reachable.safe
    (fun t sh sh' hrely hidle => hidle.rely hrely) wp_body (fun sh hstart => hstart.ok) h
  obtain ⟨sh, hrely, hpromise⟩ := hsafe.calls t k _ hcall
  exact .rely hpromise hrely

/-- Transaction isolation. In every run whose sections are allowed, the records that a committed
read has returned belong to no transaction or to one ended with commit, and an accepted
transactional produce has its records in ranges of the transaction its sequence was checked
against. -/
theorem interleaved_isolation {sys : Calls} (h : Reachable Allowed sys) (t : Nat) :
    (∀ tp start maxMessages isolation records,
      sys.calls t = some (.fetchUpTo tp start maxMessages isolation, .ret (.fetched (.ok records))) →
      isolation ≠ .readUncommitted → ∀ r ∈ records, ∀ n,
        sys.shared.state.originAt tp r.offset = some (.txn n) → n ∈ sys.shared.ended) ∧
    (∀ producerId producerEpoch tp baseSequence messages baseOffset,
      sys.calls t = some (.bufferTxnProduce producerId producerEpoch tp baseSequence messages,
        .ret (.produced (.accept baseOffset))) →
      ∃ n, sys.shared.checked t = some n ∧ ∀ i < messages.length,
        sys.shared.state.originAt tp (baseOffset + i) = some (.txn n) ∧
          ∃ r, (n, r) ∈ sys.shared.registered ∧ r.Holds tp (baseOffset + i)) := by
  refine ⟨?_, ?_⟩
  · intro tp start maxMessages isolation records hcall hisolation r hr n horigin
    obtain ⟨g, horigin', hended⟩ := h.promise hcall hisolation r hr
    exact hended n (Option.some.inj (horigin'.symm.trans horigin))
  · intro producerId producerEpoch tp baseSequence messages baseOffset hcall
    exact h.promise hcall

/-! ## A reader between two sections -/

instance : ∀ (label : Label) (sh : Shared), Decidable (Allowed label sh)
  | .other, _ => .isTrue trivial
  | .append _ _, _ => inferInstanceAs (Decidable (_ ∧ _))
  | .register _ _, _ => inferInstanceAs (Decidable (∀ _ ∈ _, _))
  | .prepare _, _ => inferInstanceAs (Decidable (_ = true))
  | .scanOpen _ _, _ => inferInstanceAs (Decidable (∀ _ ∈ _, ∀ _ ∈ _, ∀ _ ∈ _, _))
  | .scanPrepared _ _, _ => inferInstanceAs (Decidable (∀ _ ∈ _, ∀ _ ∈ _, ∀ _ ∈ _, _))

/-- A broker with one empty partition that knows the producer `a`. -/
def ready : Shared where
  state := { State.fresh State.oneSecond with
    partitions := fun tp => if tp = orders then some (Partition.openSingle [] 0) else none
    nextProducerId := 2
    producers := (∅ : AList fun _ : Nat => Producer).insert 1
      ⟨0, true, "a", false, 0, ∅⟩
    transactionalIds := (∅ : AList fun _ : String => Nat).insert "a" 1 }
  hands := ∅
  checked _ := none
  ended := []
  registered := []

theorem start_ready : Start ready where
  whole tp p hp := by
    simp only [ready] at hp
    split at hp <;> cases hp
    rfl
  logs := by
    have hlogs (tp : TopicPartition) (log : List Record)
        (h : ready.state.disk.logs tp = some log) : log = [] := by
      simp only [State.disk, ready, Option.map_eq_some_iff] at h
      obtain ⟨p, hp, rfl⟩ := h
      split at hp <;> cases hp
      rfl
    refine ⟨fun tp => ?_, fun tp log h => ?_, fun tp log o r g h hr => ?_⟩
    · cases h : ready.state.disk.logs tp with
      | none => rfl
      | some log => rw [hlogs tp log h]; rfl
    · rw [hlogs tp log h]
      trivial
    · rw [hlogs tp log h] at hr
      cases hr
  openTxns := rfl
  preparedTxns := rfl
  origins _ _ := not_mem_nil
  hands := rfl

/-- A call and the given number of its sections. -/
def served (t : Nat) (k : Call) (sections : Nat) : List (Event Call) :=
  .call t k :: List.replicate sections (.run t)

def run (es : List (Event Call)) : Calls :=
  System.follow Call.body (⟨ready, fun _ => none⟩ : Calls) es

/-- The offsets that a finished fetch has returned. -/
def fetched (sys : Calls) (t : Nat) : Option (TopicPartition × State.FetchIsolation × List Nat) :=
  match sys.calls t with
  | some (.fetchUpTo tp _ _ isolation, .ret (.fetched (.ok records))) =>
    some (tp, isolation, records.map (·.offset))
  | _ => none

/-- The base offset of a finished produce that was accepted, and the number of its messages. -/
def accepted (sys : Calls) (t : Nat) : Option (TopicPartition × Nat × Nat) :=
  match sys.calls t with
  | some (.bufferTxnProduce _ _ tp _ messages, .ret (.produced (.accept baseOffset))) =>
    some (tp, baseOffset, messages.length)
  | _ => none

variable {tp : TopicPartition}

theorem calls_of_fetched {isolation : State.FetchIsolation}
    {offsets : List Nat} (h : fetched sys t = some (tp, isolation, offsets)) :
    ∃ start maxMessages records, sys.calls t = some (.fetchUpTo tp start maxMessages isolation,
        .ret (.fetched (.ok records))) ∧ records.map (·.offset) = offsets := by
  unfold fetched at h
  split at h
  next tp start maxMessages isolation records hcall =>
    cases h
    exact ⟨start, maxMessages, records, hcall, rfl⟩
  · cases h

theorem calls_of_accepted {baseOffset count : Nat}
    (h : accepted sys t = some (tp, baseOffset, count)) :
    ∃ producerId producerEpoch baseSequence messages,
      sys.calls t = some (.bufferTxnProduce producerId producerEpoch tp baseSequence messages,
        .ret (.produced (.accept baseOffset))) ∧ messages.length = count := by
  unfold accepted at h
  split at h
  next pid epoch tp baseSequence messages base hcall =>
    cases h
    exact ⟨pid, epoch, baseSequence, messages, hcall, rfl⟩
  · cases h

def writes : Call := .bufferTxnProduce 1 0 orders 0 [State.order 7]

/-- One call after the other: a transaction writes a record and commits, and a reader comes. -/
def oneByOne : List (Event Call) :=
  served 0 (.beginTxn 1 0) 9 ++ served 1 writes 12 ++ served 2 (.endTxn 1 0 true []) 14 ++
    served 3 (.fetchUpTo orders 0 10 .readCommitted) 9

theorem isolation_oneByOne :
    let sys := run oneByOne
    fetched sys 3 = some (orders, .readCommitted, [0, 1]) ∧
      sys.shared.state.originAt orders 0 = some (.txn 0) ∧ 0 ∈ sys.shared.ended ∧
      accepted sys 1 = some (orders, 0, 1) ∧
      ∃ n, sys.shared.checked 1 = some n ∧
        ∃ r, (n, r) ∈ sys.shared.registered ∧ r.Holds orders 0 := by
  intro sys
  have hreach : Reachable Allowed sys :=
    (System.Reachable.start start_ready).follow (by decide +kernel)
  have hfetched : fetched sys 3 = some (orders, .readCommitted, [0, 1]) := by decide +kernel
  have haccepted : accepted sys 1 = some (orders, 0, 1) := by decide +kernel
  have horigin : sys.shared.state.originAt orders 0 = some (.txn 0) := by decide +kernel
  refine ⟨hfetched, horigin, ?_, haccepted, ?_⟩
  · obtain ⟨start, maxMessages, records, hcall, hoffsets⟩ := calls_of_fetched hfetched
    obtain ⟨r, hr, hoffset⟩ : ∃ r ∈ records, r.offset = 0 := by
      have hmem : 0 ∈ records.map (·.offset) := by simp [hoffsets]
      simpa using hmem
    exact (interleaved_isolation hreach 3).1 _ _ _ _ _ hcall (by simp) r hr 0 (by rw [hoffset]; exact horigin)
  · obtain ⟨pid, epoch, baseSequence, messages, hcall, hlength⟩ := calls_of_accepted haccepted
    obtain ⟨n, hchecked, hrecords⟩ := (interleaved_isolation hreach 1).2 _ _ _ _ _ _ hcall
    obtain ⟨-, r, hr, hholds⟩ := hrecords 0 (by omega)
    exact ⟨n, hchecked, r, hr, hholds⟩

/-- A reader comes between the append of the record and the registration of its range. -/
def readerBetween : List (Event Call) :=
  served 0 (.beginTxn 1 0) 9 ++ served 1 writes 8 ++
    served 2 (.fetchUpTo orders 0 10 .readCommitted) 9

/-- Between the append and the registration the producer's transaction ends and another begins. -/
def endBetween : List (Event Call) :=
  served 0 (.beginTxn 1 0) 9 ++ served 1 writes 8 ++ served 2 (.endTxn 1 0 true []) 11 ++
    served 3 (.beginTxn 1 0) 9 ++ List.replicate 4 (.run 1)

/-- The reader returns the record of an open transaction; and the record of transaction 0 is
accepted into transaction 1. -/
theorem isolation_fails :
    (System.Follows Call.body (fun _ _ => True) (⟨ready, fun _ => none⟩ : Calls) readerBetween ∧
      fetched (run readerBetween) 2 = some (orders, .readCommitted, [0]) ∧
      (run readerBetween).shared.state.originAt orders 0 = some (.txn 0) ∧
      0 ∉ (run readerBetween).shared.ended) ∧
    (System.Follows Call.body (fun _ _ => True) (⟨ready, fun _ => none⟩ : Calls) endBetween ∧
      accepted (run endBetween) 1 = some (orders, 0, 1) ∧
      (run endBetween).shared.checked 1 = some 0 ∧
      ∀ l ∈ (run endBetween).shared.registered, l.1 ≠ 0) := by
  decide +kernel

end Calls

end Volant.Broker
