-- SUMMARY: The last stable offset only grows, and below it nothing changes for a READ_COMMITTED reader.
import Volant.Broker.Idempotent
import Volant.Broker.Moves
import Volant.Broker.ReadCommitted

/-!
# The stable prefix

Below the last stable offset no open or prepared transaction has a record. A
transaction that begins later writes at the end of the log, and an abort marks
nothing before the first record of its transaction; so what a READ_COMMITTED
reader accepts below an offset that was once reported as stable is settled.
-/

namespace Volant.Broker.State

open List

/-! ## The books -/

/-- Every record of a listed transaction comes after the start of one of its ranges. -/
structure Booked (a : List OpenTxn × State) : Prop where
  length : ∀ tp, (a.2.origins tp).length = (a.2.logOf tp).length
  gapFree : ∀ tp, Storage.GapFree 0 (a.2.logOf tp)
  settled : ∀ tp p, a.2.partitions tp = some p → p.Settled
  distinct : ((a.1 ++ a.2.live).map (·.serial)).Nodup
  listed : ∀ t ∈ a.1 ++ a.2.live, t.serial < a.2.nextSerial
  bound : ∀ tp o n, a.2.originAt tp o = some (.txn n) → n < a.2.nextSerial
  own : ∀ t ∈ a.1 ++ a.2.live, ∀ tp o, a.2.originAt tp o = some (.txn t.serial) →
    ∃ r ∈ t.written, r.tp = tp ∧ r.firstOffset ≤ o

variable {named : Prop} {lost lost' : List OpenTxn} {s s' : State} {tp : TopicPartition} {p : Partition}
  {g : Origin} {pid l : Nat} {t : OpenTxn} {a b : List OpenTxn × State}

theorem booked_fresh (config : Config) : Booked ([], fresh config) := by
  constructor <;> simp [fresh, logOf, live, originAt, Storage.GapFree]

/-- Only the numbers and the ranges of the listed transactions matter. -/
theorem Booked.congr (h : Booked (lost, s)) (hlog : s'.logOf = s.logOf)
    (hsettled : ∀ tp p, s'.partitions tp = some p → p.Settled)
    (horigins : s'.origins = s.origins) (hserial : s'.nextSerial = s.nextSerial)
    (hperm : ((lost' ++ s'.live).map fun t => (t.serial, t.written)).Perm
      ((lost ++ s.live).map fun t => (t.serial, t.written))) : Booked (lost', s') := by
  have horigin : s'.originAt = s.originAt := by
    unfold originAt
    rw [horigins]
  obtain ⟨hserials, hmem⟩ := same_core hperm
  refine ⟨fun tp => ?_, fun tp => ?_, hsettled, hserials.nodup_iff.mpr h.distinct, fun t' ht' => ?_,
    fun tp o n => ?_, fun t' ht' tp o ho => ?_⟩
  · rw [horigins, hlog]
    exact h.length tp
  · rw [hlog]
    exact h.gapFree tp
  · obtain ⟨t, ht, hserial', -⟩ := hmem t' ht'
    rw [hserial, ← hserial']
    exact h.listed t ht
  · rw [horigin, hserial]
    exact h.bound tp o n
  · obtain ⟨t, ht, hserial', hwritten⟩ := hmem t' ht'
    rw [← hwritten]
    rw [horigin, ← hserial'] at ho
    exact h.own t ht tp o ho

theorem Booked.forget (h : Booked (lost, s)) (hsub : lost'.Sublist lost) : Booked (lost', s) := by
  have hall := hsub.append_right s.live
  exact ⟨h.length, h.gapFree, h.settled, h.distinct.sublist (hall.map _),
    fun t ht => h.listed t (hall.subset ht), h.bound, fun t ht => h.own t (hall.subset ht)⟩

/-- The log of a partition after an append. -/
theorem logOf_appended {ms : List Message} (hp : s.partitions tp = some p) (tp' : TopicPartition) :
    (s.appended tp p ms g).logOf tp' = s.logOf tp' ++
      if tp' = tp then Partition.stamp (Int64.ofInt s.nowMs) p.leo ms else [] := by
  rcases eq_or_ne tp' tp with rfl | hne
  · simp [logOf, appended, hp]
  · simp [logOf, appended, hne]

theorem originAt_appended {tp' : TopicPartition} {ms : List Message} {g' : Origin} {o : Nat} :
    (s.appended tp p ms g).originAt tp' o = some g' ↔
      s.originAt tp' o = some g' ∨ (tp = tp' ∧ (s.origins tp).length ≤ o ∧
        o < (s.origins tp).length + ms.length ∧ g' = g) :=
  appendOrigins_getElem?

/-- The parts that an append of any kind keeps. -/
theorem Booked.logs_appended (h : Booked (lost, s)) (hp : s.partitions tp = some p)
    (ms : List Message) (g : Origin) : (∀ tp', ((s.appended tp p ms g).origins tp').length =
        ((s.appended tp p ms g).logOf tp').length) ∧
      (∀ tp', Storage.GapFree 0 ((s.appended tp p ms g).logOf tp')) ∧
      ∀ tp' p', (s.appended tp p ms g).partitions tp' = some p' → p'.Settled := by
  have hlog : s.logOf tp = p.log := by simp [logOf, hp]
  refine ⟨fun tp' => ?_, fun tp' => ?_, appended_settled h.settled hp⟩
  · rw [logOf_appended hp, length_append, ← h.length tp']
    rcases eq_or_ne tp' tp with rfl | hne
    · simp [appended, appendOrigins]
    · simp [appended, appendOrigins, hne]
  · rw [logOf_appended hp, Storage.GapFree.append_iff]
    refine ⟨h.gapFree tp', ?_⟩
    split_ifs with heq
    · rw [heq, hlog, Nat.zero_add, (h.settled tp p hp).1.leo]
      exact Partition.gapFree_stamp _ _ ms
    · trivial

theorem Booked.appended (h : Booked (lost, s)) (hp : s.partitions tp = some p) (ms : List Message)
    (hg : ∀ n, g ≠ .txn n) : Booked (lost, s.appended tp p ms g) := by
  have hsame : ∀ tp' o n, (s.appended tp p ms g).originAt tp' o = some (.txn n) →
      s.originAt tp' o = some (.txn n) := fun tp' o n ho =>
    (originAt_appended.mp ho).resolve_right fun hnew => hg n hnew.2.2.2.symm
  obtain ⟨hlength, hgap, hsettled⟩ := h.logs_appended hp ms g
  exact ⟨hlength, hgap, hsettled, h.distinct, h.listed,
    fun tp' o n ho => h.bound tp' o n (hsame tp' o n ho),
    fun t ht tp' o ho => h.own t ht tp' o (hsame tp' o t.serial ho)⟩

theorem Booked.begin_ (h : Booked (lost, s)) (hnone : s.openTxns.lookup pid = none)
    (hserial : t.serial = s.nextSerial) (hwritten : t.written = []) : Booked (lost, { s with
      openTxns := s.openTxns.insert pid t, nextSerial := s.nextSerial + 1 }) := by
  have hlive : (lost ++ live { s with
      openTxns := s.openTxns.insert pid t, nextSerial := s.nextSerial + 1 }).Perm
        (t :: (lost ++ s.live)) := by
    simp only [live, Assoc.values_insert_of_none hnone]
    exact perm_middle
  refine ⟨h.length, h.gapFree, h.settled, ?_, fun u hu => ?_,
    fun tp o n ho => Nat.lt_succ_of_lt (h.bound tp o n ho), fun u hu tp o ho => ?_⟩
  · refine (hlive.map (·.serial)).nodup_iff.mpr (nodup_cons.mpr ⟨fun hmem => ?_, h.distinct⟩)
    obtain ⟨u, hu, heq⟩ := mem_map.mp hmem
    exact absurd (h.listed u hu) (by simp only at heq ⊢; omega)
  · rcases mem_cons.mp (hlive.subset hu) with rfl | hin
    · exact hserial ▸ Nat.lt_succ_self _
    · exact Nat.lt_succ_of_lt (h.listed u hin)
  · rcases mem_cons.mp (hlive.subset hu) with rfl | hin
    · -- nothing on the logs has the new number
      exact absurd (h.bound tp o _ ho) (by rw [hserial]; exact lt_irrefl _)
    · exact h.own u hin tp o ho

/-- A listed transaction with other ranges and the same number, in place of the old one. -/
theorem live_insert_perm (hlookup : s.openTxns.lookup pid = some t) (t' : OpenTxn) :
    ∃ rest, (lost ++ s.live).Perm (t :: rest) ∧
      (lost ++ live { s with openTxns := s.openTxns.insert pid t' }).Perm (t' :: rest) := by
  refine ⟨lost ++ (Assoc.values (s.openTxns.erase pid) ++
    (Assoc.values s.preparedTxns).map (·.body)), ?_, ?_⟩
  · have hperm := (Assoc.values_perm_of_lookup hlookup).append_right
      ((Assoc.values s.preparedTxns).map (·.body))
    exact (hperm.append_left lost).trans perm_middle
  · exact perm_middle

theorem Booked.write (h : Booked (lost, s)) {t' : OpenTxn} {r : WrittenRange} (ms : List Message)
    (hlookup : s.openTxns.lookup pid = some t) (hp : s.partitions tp = some p)
    (hserial : t'.serial = t.serial) (hwritten : t'.written = t.written ++ [r])
    (hr : r.tp = tp ∧ r.firstOffset = p.leo) :
    Booked (lost, { s.appended tp p ms (.txn t.serial) with
      openTxns := s.openTxns.insert pid t' }) := by
  obtain ⟨rest, hold, hnew⟩ := @live_insert_perm lost s pid t hlookup t'
  obtain ⟨hlength, hgap, hsettled⟩ := h.logs_appended hp ms (.txn t.serial)
  have hserials := (hold.map (·.serial)).nodup_iff.mp h.distinct
  have ht : t ∈ lost ++ s.live := hold.symm.subset mem_cons_self
  have hrest : ∀ u ∈ rest, u ∈ lost ++ s.live := fun u hu =>
    hold.symm.subset (mem_cons_of_mem t hu)
  have hend : (s.origins tp).length = p.leo := by
    rw [h.length tp, (h.settled tp p hp).1.leo]
    simp [logOf, hp]
  have horigin : ∀ {tp' o n}, (s.appended tp p ms (.txn t.serial)).originAt tp' o = some (.txn n) →
      s.originAt tp' o = some (.txn n) ∨ (tp = tp' ∧ p.leo ≤ o ∧ n = t.serial) := by
    intro tp' o n ho
    refine (originAt_appended.mp ho).imp_right ?_
    rintro ⟨htp, hle, -, heq⟩
    exact ⟨htp, hend ▸ hle, Origin.txn.inj heq⟩
  refine ⟨hlength, hgap, hsettled, ?_, fun u hu => ?_, fun tp' o n ho => ?_, fun u hu tp' o ho => ?_⟩
  · refine (hnew.map (·.serial)).nodup_iff.mpr ?_
    rw [map_cons, hserial]
    exact hserials
  · rcases mem_cons.mp (hnew.subset hu) with rfl | hin
    · exact hserial ▸ h.listed t ht
    · exact h.listed u (hrest u hin)
  · rcases horigin ho with ho | ⟨-, -, rfl⟩
    · exact h.bound tp' o n ho
    · exact h.listed t ht
  · rcases mem_cons.mp (hnew.subset hu) with rfl | hin
    · rw [hwritten]
      rcases horigin ho with ho | ⟨rfl, hle, -⟩
      · obtain ⟨r', hr', hfirst⟩ := h.own t ht tp' o (hserial ▸ ho)
        exact ⟨r', mem_append_left _ hr', hfirst⟩
      · exact ⟨r, mem_append_right _ (mem_singleton_self r), hr.1, hr.2.trans_le hle⟩
    · rcases horigin ho with ho | ⟨-, -, heq⟩
      · exact h.own u (hrest u hin) tp' o ho
      · -- another transaction has another number
        rw [map_cons, nodup_cons] at hserials
        exact absurd (mem_map_of_mem (f := (·.serial)) hin) (heq ▸ hserials.1)

/-- A new partition has an empty log. -/
theorem logOf_createPartition (hnone : s.partitions tp = none) :
    (s.createPartition tp).logOf = s.logOf := by
  funext tp'
  unfold createPartition logOf
  rcases eq_or_ne tp' tp with rfl | hne
  · simp [hnone, durable, Partition.openSingle]
  · simp [hnone, durable, hne]

theorem Booked.createPartition (h : Booked (lost, s)) (hnone : s.partitions tp = none) :
    Booked (lost, s.createPartition tp) := by
  have hlog := logOf_createPartition hnone
  unfold State.createPartition at hlog ⊢
  simp only [hnone] at hlog ⊢
  refine h.congr hlog (fun tp' p hp => ?_) rfl rfl (List.Perm.refl _)
  rcases Assoc.of_update hp with ⟨rfl, ⟨⟩⟩ | ⟨-, hp⟩
  · exact ⟨rfl, rfl⟩
  · exact h.settled tp' p hp

/-- What leaves a table is lost. -/
theorem perm_taken {taken live live' : List OpenTxn} (h : live.Perm (taken ++ live')) :
    ((taken ++ lost) ++ live').Perm (lost ++ live) := by
  rw [append_assoc]
  exact (perm_append_comm_assoc _ _ _).trans (h.symm.append_left lost)

theorem perm_prepare {id : String} {prep : PreparedTxn} (hnone : s.preparedTxns.lookup id = none) :
    (lost ++ live { s with preparedTxns := s.preparedTxns.insert id prep }).Perm
      ((prep.body :: lost) ++ s.live) := by
  simp only [live, Assoc.values_insert_of_none hnone, map_cons, ← append_assoc]
  exact perm_middle

theorem Booked.move (h : Booked a) (hmove : Move named a b) : Booked b := by
  cases hmove with
  | @keep _ s s' hsame _ =>
    have hlog : s'.logOf = s.logOf := by
      funext tp
      rw [logOf, logOf, hsame.partitions]
    refine h.congr hlog (hsame.partitions ▸ h.settled) hsame.origins hsame.nextSerial ?_
    rw [hsame.live]
  | create hnone => exact h.createPartition hnone
  | append ms hp hg => exact h.appended hp ms hg
  | begin_ hnone hserial hwritten => exact h.begin_ hnone hserial hwritten
  | @touch lost s pid t t' hlookup hserial hwritten =>
    obtain ⟨rest, hold, hnew⟩ := @live_insert_perm lost s pid t hlookup t'
    refine h.congr rfl h.settled rfl rfl ((hnew.map _).trans ?_)
    rw [map_cons, hserial, hwritten]
    exact (hold.map fun t => (t.serial, t.written)).symm
  | write ms hlookup hp hserial hwritten hr => exact h.write ms hlookup hp hserial hwritten hr
  | takeOpen taken hperm =>
    exact h.congr rfl h.settled rfl rfl ((perm_taken (live_takeOpen hperm)).map _)
  | takePrepared taken hperm hsub =>
    exact h.congr rfl h.settled rfl rfl ((perm_taken (live_takePrepared hperm)).map _)
  | prepare _ hnone hid => exact h.congr rfl h.settled rfl rfl ((perm_prepare hnone).map _)
  | @mark lost s t pid ht =>
    obtain ⟨abortedTxns, heq, -⟩ := pushAbortedHulls_spec s pid t.written
    rw [heq]
    exact h.congr rfl h.settled rfl rfl (List.Perm.refl _)
  | forget hsub => exact h.forget hsub

theorem Booked.moves (h : Booked a) (hmoves : Moves named a b) : Booked b := by
  induction hmoves with
  | refl => exact h
  | tail _ hmove ih => exact ih.move hmove

/-! ## The prefix below an offset -/

/-- The log reaches `l`, and every listed transaction writes from there on. -/
structure Stable (tp : TopicPartition) (l : Nat) (a : List OpenTxn × State) : Prop where
  reached : l ≤ (a.2.logOf tp).length
  above : ∀ t ∈ a.1 ++ a.2.live, ∀ r ∈ t.written, r.tp = tp → l ≤ r.firstOffset

/-- The log grows, and nothing below `l` is marked aborted. -/
structure Frozen (tp : TopicPartition) (l : Nat) (s s' : State) : Prop where
  present : (s.partitions tp).isSome = true → (s'.partitions tp).isSome = true
  log : s.logOf tp <+: s'.logOf tp
  aborted : ∀ o < l, s'.isAbortedOffset tp o = s.isAbortedOffset tp o

theorem Frozen.refl (tp : TopicPartition) (l : Nat) (s : State) : Frozen tp l s s :=
  ⟨id, prefix_rfl, fun _ _ => rfl⟩

theorem Frozen.trans {s'' : State} (h : Frozen tp l s s') (h' : Frozen tp l s' s'') :
    Frozen tp l s s'' :=
  ⟨fun hp => h'.present (h.present hp), h.log.trans h'.log, fun o ho => (h'.aborted o ho).trans (h.aborted o ho)⟩

theorem le_foldl_min_iff (ranges : List WrittenRange) (init l : Nat) :
    l ≤ ranges.foldl (fun lso r => min lso r.firstOffset) init ↔
      l ≤ init ∧ ∀ r ∈ ranges, l ≤ r.firstOffset := by
  induction ranges generalizing init with
  | nil => simp
  | cons r ranges ih =>
    rw [foldl_cons, ih, le_min_iff, forall_mem_cons, and_assoc]

/-- An offset is at most the last stable one if and only if the prefix below it is stable. -/
theorem le_lsoAt_iff (hbooked : Booked (lost, s)) : l ≤ s.lsoAt tp ↔ Stable tp l ([], s) := by
  have hleo : ((s.partitions tp).map (·.leo)).getD 0 = (s.logOf tp).length := by
    unfold logOf
    cases hp : s.partitions tp with
    | none => rfl
    | some p => exact (hbooked.settled tp p hp).1.leo
  have hranges : (∀ r ∈ s.unstableRanges.filter (·.tp = tp), l ≤ r.firstOffset) ↔
      ∀ t ∈ s.live, ∀ r ∈ t.written, r.tp = tp → l ≤ r.firstOffset := by
    simp only [unstableRanges, live, Assoc.values, mem_filter, mem_append,
      mem_flatMap, mem_map, decide_eq_true_eq]
    constructor
    · rintro h t (⟨e, he, rfl⟩ | ⟨_, ⟨e, he, rfl⟩, rfl⟩) r hr htp
      · exact h r ⟨.inl ⟨e, he, hr⟩, htp⟩
      · exact h r ⟨.inr ⟨e, he, hr⟩, htp⟩
    · rintro h r ⟨⟨e, he, hr⟩ | ⟨e, he, hr⟩, htp⟩
      · exact h e.2 (.inl ⟨e, he, rfl⟩) r hr htp
      · exact h e.2.body (.inr ⟨e.2, ⟨e, he, rfl⟩, rfl⟩) r hr htp
  unfold lsoAt
  rw [le_foldl_min_iff, hranges, hleo]
  exact ⟨fun h => ⟨h.1, h.2⟩, fun h => ⟨h.1, h.2⟩⟩

/-- A hull starts with one of its ranges. -/
theorem first_le_of_inHull {written : List WrittenRange} {o : Nat} (h : InHull written tp o) :
    ∃ r ∈ written, r.tp = tp ∧ r.firstOffset ≤ o := by
  obtain ⟨first, last, hsome, hle, -⟩ := h
  induction written generalizing first last with
  | nil => cases hsome
  | cons r rest ih =>
    unfold hullAt at hsome
    split_ifs at hsome with hr
    · split at hsome <;> cases hsome
      next => exact ⟨r, mem_cons_self, hr, hle⟩
      next first last hrest =>
        rcases min_le_iff.mp hle with hle | hle
        · exact ⟨r, mem_cons_self, hr, hle⟩
        · obtain ⟨r', hr', hfirst⟩ := ih first last hrest hle
          exact ⟨r', mem_cons_of_mem r hr', hfirst⟩
    · obtain ⟨r', hr', hfirst⟩ := ih first last hsome hle
      exact ⟨r', mem_cons_of_mem r hr', hfirst⟩

/-- The listed transactions of one state are those of the other, but for new ones that write from
`l` on. -/
theorem Stable.grow (h : Stable tp l (lost, s)) (hlog : s.logOf tp <+: s'.logOf tp)
    (habove : ∀ t ∈ lost' ++ s'.live, t ∈ lost ++ s.live ∨
      ∀ r ∈ t.written, r.tp = tp → l ≤ r.firstOffset) : Stable tp l (lost', s') := by
  refine ⟨h.reached.trans hlog.length_le, fun t ht => ?_⟩
  rcases habove t ht with hin | hnew
  · exact h.above t hin
  · exact hnew

theorem mem_of_mem_live_insert {u : OpenTxn}
    (h : u ∈ lost ++ (Assoc.values (s.openTxns.insert pid t) ++
      (Assoc.values s.preparedTxns).map (·.body))) : u = t ∨ u ∈ lost ++ s.live := by
  rw [Assoc.values_insert] at h
  simp only [mem_append, mem_cons] at h
  rcases h with h | (rfl | h) | h
  · exact .inr (mem_append_left _ h)
  · exact .inl rfl
  · obtain ⟨e, he, rfl⟩ := mem_map.mp h
    exact .inr (mem_append_right _ (mem_append_left _
      (mem_map_of_mem (Assoc.mem_of_mem_erase he))))
  · exact .inr (mem_append_right _ (mem_append_right _ h))

theorem mem_live_of_lookup (h : s.openTxns.lookup pid = some t) : t ∈ lost ++ s.live :=
  mem_append_right _ (mem_append_left _ (Assoc.mem_values_of_lookup h))

theorem isSome_update {partitions : TopicPartition → Option Partition} {tp' : TopicPartition}
    (h : (partitions tp).isSome = true) :
    (Function.update partitions tp' (some p) tp).isSome = true := by
  rcases eq_or_ne tp tp' with rfl | hne
  · simp
  · simpa [hne] using h

theorem Stable.move (h : Stable tp l a) (hmove : Move named a b) :
    Stable tp l b ∧ Frozen tp l a.2 b.2 := by
  cases hmove with
  | @keep lost s s' hsame _ =>
    have hlog : s'.logOf tp = s.logOf tp := by rw [logOf, logOf, hsame.partitions]
    refine ⟨h.grow (hlog ▸ prefix_rfl) fun t ht => .inl (hsame.live ▸ ht),
      hsame.partitions ▸ id, hlog ▸ prefix_rfl, fun o _ => ?_⟩
    rw [isAbortedOffset, isAbortedOffset, hsame.abortedTxns]
  | @create lost s tp' hnone =>
    have hlog := logOf_createPartition hnone
    unfold createPartition at hlog ⊢
    simp only [hnone] at hlog ⊢
    refine ⟨h.grow (by rw [hlog]) fun t ht => .inl ht, fun hp => ?_, by rw [hlog], fun o _ => rfl⟩
    exact isSome_update hp
  | @append lost s tp' p g ms hp hg =>
    have hlog : s.logOf tp <+: (s.appended tp' p ms g).logOf tp := by
      rw [logOf_appended hp]
      exact prefix_append _ _
    exact ⟨h.grow hlog fun t ht => .inl ht, isSome_update, hlog, fun o _ => rfl⟩
  | @begin_ lost s pid t hnone hserial hwritten =>
    refine ⟨h.grow prefix_rfl fun u hu => ?_, id, prefix_rfl, fun o _ => rfl⟩
    rcases mem_of_mem_live_insert hu with rfl | hin
    · exact .inr (by simp [hwritten])
    · exact .inl hin
  | @touch lost s pid t t' hlookup hserial hwritten =>
    refine ⟨h.grow prefix_rfl fun u hu => ?_, id, prefix_rfl, fun o _ => rfl⟩
    rcases mem_of_mem_live_insert hu with rfl | hin
    · rw [hwritten]
      exact .inr (h.above t (mem_live_of_lookup hlookup))
    · exact .inl hin
  | @write lost s pid t t' tp' p r ms hlookup hp hserial hwritten hr =>
    have hlog : s.logOf tp <+: (s.appended tp' p ms (.txn t.serial)).logOf tp := by
      rw [logOf_appended hp]
      exact prefix_append _ _
    refine ⟨h.grow hlog fun u hu => ?_, isSome_update, hlog, fun o _ => rfl⟩
    rcases mem_of_mem_live_insert hu with rfl | hin
    · rw [hwritten]
      refine .inr fun r' hr' htp => ?_
      rcases mem_append.mp hr' with hr' | hr'
      · exact h.above t (mem_live_of_lookup hlookup) r' hr' htp
      · -- the new range starts at the end of the log
        obtain rfl := mem_singleton.mp hr'
        obtain rfl : tp' = tp := hr.1.symm.trans htp
        have hreached : l ≤ (s.logOf tp').length := h.reached
        simp only [logOf, hp, Option.map_some, Option.getD_some] at hreached
        exact (hreached.trans (Nat.le_add_right _ _)).trans_eq hr.2.symm
    · exact .inl hin
  | takeOpen taken hperm =>
    refine ⟨h.grow prefix_rfl fun u hu => ?_, id, prefix_rfl, fun o _ => rfl⟩
    exact .inl ((perm_taken (live_takeOpen hperm)).subset hu)
  | @takePrepared lost s taken preparedTxns hperm hsub =>
    refine ⟨h.grow prefix_rfl fun u hu => ?_, id, prefix_rfl, fun o _ => rfl⟩
    exact .inl ((perm_taken (live_takePrepared hperm)).subset hu)
  | prepare _ hnone hid =>
    refine ⟨h.grow prefix_rfl fun u hu => ?_, id, prefix_rfl, fun o _ => rfl⟩
    exact .inl ((perm_prepare hnone).subset hu)
  | @mark lost s t pid ht =>
    obtain ⟨abortedTxns, heq, haborted⟩ := pushAbortedHulls_spec s pid t.written
    have hbelow : ∀ o < l, (s.pushAbortedHulls pid t.written).isAbortedOffset tp o =
        s.isAbortedOffset tp o := by
      intro o ho
      rw [Bool.eq_iff_iff, isAbortedOffset_iff, isAbortedOffset_iff, haborted]
      refine or_iff_left fun hhull => ?_
      obtain ⟨r, hr, htp, hle⟩ := first_le_of_inHull hhull
      exact absurd ho (not_lt.mpr ((h.above t (mem_append_left _ ht) r hr htp).trans hle))
    refine ⟨h.grow ?_ fun u hu => ?_, ?_, ?_, hbelow⟩
    · rw [heq]
      exact prefix_rfl
    · rw [heq] at hu
      exact .inl hu
    · rw [heq]
      exact id
    · rw [heq]
      exact prefix_rfl
  | forget hsub =>
    exact ⟨h.grow prefix_rfl fun t ht => .inl ((hsub.append_right _).subset ht),
      Frozen.refl tp l _⟩

theorem Stable.moves (h : Stable tp l a) (hmoves : Moves named a b) :
    Stable tp l b ∧ Frozen tp l a.2 b.2 := by
  induction hmoves with
  | refl => exact ⟨h, .refl tp l a.2⟩
  | tail _ hmove ih =>
    obtain ⟨hstable, hfrozen⟩ := ih.1.move hmove
    exact ⟨hstable, ih.2.trans hfrozen⟩

/-! ## Runs -/

/-- One operation that is not a restart. -/
def Serves (s s' : State) : Prop :=
  ∃ op : Op, (∀ nowMs, op ≠ .restart nowMs) ∧ s' = s.exec op

/-- A sequential run without restarts. -/
abbrev Runs : State → State → Prop := Relation.ReflTransGen Serves

theorem Runs.moves (h : Runs s s') (hkeys : s.Keyed) : Moves True ([], s) ([], s') := by
  induction h with
  | refl => exact .refl
  | tail _ hserves ih =>
    obtain ⟨op, hop, rfl⟩ := hserves
    exact ih.trans (moves_exec (ih.keyed hkeys) hop fun _ => trivial)

/-- A second expiry at the same time does nothing. -/
theorem expireTimedOutTxns_idem (hkeys : s.Keyed) :
    s.expireTimedOutTxns.expireTimedOutTxns = s.expireTimedOutTxns :=
  expireTimedOutTxns_of_nil (expiredOpenTxns_expireTimedOutTxns s)
    (expiredPreparedTxns_expireTimedOutTxns hkeys)

/-- Reads of a log that has grown give, below `l`, the same records. -/
theorem read_filter_of_begins {p' : Partition} (hpre : p.log <+: p'.log)
    (hgap : Storage.GapFree 0 p'.log) (hl : l ≤ p.log.length) (start n : Nat) :
    (p'.read start n).filter (·.offset < l) = (p.read start n).filter (·.offset < l) := by
  obtain ⟨rest, hrest⟩ := hpre
  have hlate : ∀ r ∈ rest, l ≤ r.offset := by
    intro r hr
    obtain ⟨i, hi⟩ := mem_iff_getElem?.mp hr
    rw [← hrest, Storage.GapFree.append_iff] at hgap
    rw [hgap.2.offset_eq hi, Nat.zero_add]
    exact hl.trans (Nat.le_add_right _ _)
  have hnone : ∀ k, ((rest.filter (start ≤ ·.offset)).take k).filter (·.offset < l) = [] := by
    refine fun k => filter_eq_nil_iff.mpr fun r hr => ?_
    simpa using hlate r (mem_of_mem_filter (mem_of_mem_take hr))
  unfold Partition.read
  rw [← hrest, filter_append, take_append, filter_append, hnone, append_nil]

/-- READ_COMMITTED judges a record below `l` as before. -/
theorem Frozen.readCommittedKeeps {l' : Nat} (h : Frozen tp l s s') (hle : l ≤ l') {r : Record}
    (hr : r.offset < l) : s'.readCommittedKeeps tp l' r = s.readCommittedKeeps tp l r := by
  unfold State.readCommittedKeeps
  simp [hr, hr.trans_le hle, h.aborted r.offset hr]

/-- What READ_COMMITTED returns of a log, as one filter below `l`. -/
theorem filter_readCommitted {l' : Nat} (hframe : ∀ r : Record, r.offset < l →
      s'.readCommittedKeeps tp l' r = s.readCommittedKeeps tp l r) (hhwm : l ≤ p.committedHwm)
    (start n : Nat) : (((p.read start n).filter (·.offset < p.committedHwm)).filter
        (s'.readCommittedKeeps tp l')).filter (·.offset < l) =
      ((p.read start n).filter (·.offset < l)).filter (s.readCommittedKeeps tp l) := by
  simp only [filter_filter]
  refine filter_congr fun r _ => ?_
  by_cases hr : r.offset < l
  · simp [hr, hframe r hr, hr.trans_le hhwm]
  · simp [hr]

/-- READ_COMMITTED returns nothing from its stable offset on. -/
theorem filter_below_readCommitted (records : List Record) :
    (records.filter (s.readCommittedKeeps tp l)).filter (·.offset < l) =
      records.filter (s.readCommittedKeeps tp l) := by
  refine filter_eq_self.mpr fun r hr => ?_
  have hkeeps := of_mem_filter hr
  unfold readCommittedKeeps at hkeeps
  split_ifs at hkeeps
  · exact hkeeps
  · exact (Bool.and_eq_true_iff.mp hkeeps).1

/-- In every run, after an offset was reported as the last stable one: later reports are not
smaller, no record below them is of an open or prepared transaction, and of the records below the
first a READ_COMMITTED reader is returned the same ones. -/
theorem stable_prefix {config : Config} (hs : Runs (fresh config) s) (tp : TopicPartition)
    (hrun : Runs (s.lastStableOffset tp).2 s') :
    let l := (s.lastStableOffset tp).1
    let l' := (s'.lastStableOffset tp).1
    let s₂ := (s'.lastStableOffset tp).2
    l ≤ l' ∧ (∀ o < l', ∀ t ∈ s₂.live, s₂.originAt tp o ≠ some (.txn t.serial)) ∧
      ∀ start n records,
        ((s.lastStableOffset tp).2.fetchUpTo tp start n .readCommitted).1 = .ok records →
          ∃ records', (s'.fetchUpTo tp start n .readCommitted).1 = .ok records' ∧
            records'.filter (·.offset < l) = records := by
  intro l l' s₂
  have hkeys₀ : (fresh config).Keyed := by simp [Keyed, fresh]
  have hmoves₀ := hs.moves hkeys₀
  have hkeys := hmoves₀.keyed hkeys₀
  have hreport := @moves_expireTimedOutTxns True [] s hkeys
  have hkeys₁ := hreport.keyed hkeys
  have hlater := hrun.moves hkeys₁
  have hreport' := @moves_expireTimedOutTxns True [] s' (hlater.keyed hkeys₁)
  have hbooked₁ := ((booked_fresh config).moves hmoves₀).moves hreport
  have hbooked' := hbooked₁.moves hlater
  have hbooked₂ := hbooked'.moves hreport'
  -- what was stable at the first report is stable at the second
  have hstable : Stable tp l ([], s.expireTimedOutTxns) := (le_lsoAt_iff hbooked₁).mp le_rfl
  obtain ⟨hstable', hfrozen'⟩ := hstable.moves hlater
  obtain ⟨hstable₂, hfrozen₂⟩ := hstable'.moves hreport'
  have hle : l ≤ l' := (le_lsoAt_iff hbooked₂).mpr hstable₂
  refine ⟨hle, fun o ho t ht horigin => ?_, fun start n records hfetch => ?_⟩
  · obtain ⟨r, hr, htp, hfirst⟩ := hbooked₂.own t ht tp o horigin
    have hle' : l' ≤ r.firstOffset :=
      ((le_lsoAt_iff hbooked₂).mp (le_refl (s₂.lsoAt tp))).above t ht r hr htp
    exact absurd ho (not_lt.mpr (hle'.trans hfirst))
  · change (s.expireTimedOutTxns.fetchUpTo tp start n .readCommitted).1 = .ok records at hfetch
    cases hp : s.expireTimedOutTxns.partitions tp with
    | none => simp [fetchUpTo, examined, hp] at hfetch
    | some p =>
      obtain ⟨p', hp'⟩ : ∃ p', s'.partitions tp = some p' :=
        Option.isSome_iff_exists.mp (hfrozen'.present (by simp [hp]))
      simp only [fetchUpTo, examined, hp, lastStableOffset, expireTimedOutTxns_idem hkeys,
        Except.ok.injEq] at hfetch
      refine ⟨((p'.read start n).filter (·.offset < p'.committedHwm)).filter
        (s₂.readCommittedKeeps tp l'), ?_, ?_⟩
      · simp only [fetchUpTo, examined, hp']
        rfl
      · have hlog : s.expireTimedOutTxns.logOf tp = p.log := by simp [logOf, hp]
        have hlog' : s'.logOf tp = p'.log := by simp [logOf, hp']
        have hpre : p.log <+: p'.log := hlog ▸ hlog' ▸ hfrozen'.log
        have hreached : l ≤ p.log.length := hlog ▸ hstable.reached
        have hhwm : l ≤ p.committedHwm := hreached.trans_eq (hbooked₁.settled tp p hp).hwm.symm
        have hhwm' : l ≤ p'.committedHwm :=
          (hreached.trans hpre.length_le).trans_eq (hbooked'.settled tp p' hp').hwm.symm
        have hfrozen : Frozen tp l s.expireTimedOutTxns s₂ := hfrozen'.trans hfrozen₂
        calc (((p'.read start n).filter (·.offset < p'.committedHwm)).filter
              (s₂.readCommittedKeeps tp l')).filter (·.offset < l)
            = ((p'.read start n).filter (·.offset < l)).filter
                (s.expireTimedOutTxns.readCommittedKeeps tp l) :=
              filter_readCommitted (fun r hr => hfrozen.readCommittedKeeps hle hr) hhwm' start n
          _ = ((p.read start n).filter (·.offset < l)).filter
                (s.expireTimedOutTxns.readCommittedKeeps tp l) := by
              rw [read_filter_of_begins hpre (hlog' ▸ hbooked'.gapFree tp) hreached]
          _ = (((p.read start n).filter (·.offset < p.committedHwm)).filter
                (s.expireTimedOutTxns.readCommittedKeeps tp l)).filter (·.offset < l) :=
              (filter_readCommitted (fun _ _ => rfl) hhwm start n).symm
          _ = records := (filter_below_readCommitted _).trans hfetch

/-! ## A run with an abort -/

theorem runs_serve (s : State) {ops : List Op} (h : ∀ op ∈ ops, op.isRestart = false) :
    Runs s (s.serve ops) := by
  induction ops generalizing s with
  | nil => exact .refl
  | cons op ops ih =>
    refine (ih (s.exec op) fun op' hop' => h op' (mem_cons_of_mem op hop')).head
      ⟨op, fun nowMs heq => ?_, rfl⟩
    have hno := h op mem_cons_self
    rw [heq] at hno
    cases hno

/-- A plain record, then one of an open transaction. -/
def earlier : List Op :=
  [.clock 1, .createPartition orders, .initProducerId "a" false false 0, .produce orders [order 9],
    .beginTxn 1 0, writes 1]

/-- A second transaction commits, and the first one aborts around it. -/
def later : List Op :=
  [.initProducerId "b" false false 0, .beginTxn 2 0, writes 2, .endTxn 2 0 true [],
    .bufferTxnProduce 1 0 orders 1 [order 1], .endTxn 1 0 false []]

theorem aborted_around_stable_record :
    let s := (fresh oneSecond).serve earlier
    let s' := (s.lastStableOffset orders).2.serve later
    (s.lastStableOffset orders).1 = 1 ∧ 1 ≤ (s'.lastStableOffset orders).1 ∧
      ∃ records', (s'.fetchUpTo orders 0 10 .readCommitted).1 = .ok records' ∧
        (records'.filter (·.offset < 1)).map (·.offset) = [0] := by
  intro s s'
  have hlso : (s.lastStableOffset orders).1 = 1 := by decide +kernel
  have hoffsets : (((s.lastStableOffset orders).2.fetchUpTo orders 0 10 .readCommitted).1.map
      (·.map (·.offset))).toOption = some [0] := by
    decide +kernel
  obtain ⟨hle, -, hsame⟩ := stable_prefix (runs_serve (fresh oneSecond) (by decide)) orders
    (runs_serve (s.lastStableOffset orders).2 (by decide) : Runs _ s')
  refine ⟨hlso, hlso ▸ hle, ?_⟩
  cases hfetch : ((s.lastStableOffset orders).2.fetchUpTo orders 0 10 .readCommitted).1 with
  | error e =>
    rw [hfetch] at hoffsets
    cases hoffsets
  | ok records =>
    rw [hfetch] at hoffsets
    obtain ⟨records', hfetch', hfilter⟩ := hsame 0 10 records hfetch
    refine ⟨records', hfetch', ?_⟩
    rw [← hlso, hfilter]
    exact Option.some.inj hoffsets

end Volant.Broker.State
