-- SUMMARY: A transactional commit is all or nothing, records and offsets, across every crash before its offsets.
import Volant.Broker.CrashAbort
import Volant.Broker.OffsetFiles

/-!
# Atomic commits

A commit writes producer state, control markers, one file for each deferred
offset, and at last the marker file, which makes its records visible; after a
prepare it is the prepared file that does. If the broker stops before the
first offset file, a restart shows nothing of the transaction; if it stops
after the last durable step, a restart shows all of it. In between, offsets
are applied whose records stay hidden.
-/

namespace Volant.Broker.State

open List

variable {exact : Prop} {s s' s'' : State}

/-! ## Steps that leave the consumer offsets alone -/

/-- No offset file is written, nothing is committed, and no record is taken back. -/
structure Quiet (s s' : State) : Prop where
  committed : s'.committed = s.committed
  offsets : s'.offsets = s.offsets
  origins : ∀ tp, s.origins tp <+: s'.origins tp
  trace : ∃ new, s'.trace = s.trace ++ new ∧ ∀ e ∈ new, e.1 ≠ .offset ∧
    e.2.offsets = s.offsets ∧ ∀ tp, s.origins tp <+: e.2.origins tp

theorem Quiet.still (hcommitted : s'.committed = s.committed) (hoffsets : s'.offsets = s.offsets)
    (horigins : s'.origins = s.origins) (htrace : s'.trace = s.trace) : Quiet s s' :=
  ⟨hcommitted, hoffsets, fun tp => horigins ▸ prefix_rfl, [], by rw [htrace, append_nil],
    fun _ he => absurd he not_mem_nil⟩

theorem Quiet.refl (s : State) : Quiet s s := .still rfl rfl rfl rfl

theorem Quiet.durable {step : DurableStep} (hstep : step ≠ .offset)
    (hcommitted : s'.committed = s.committed) (hoffsets : s'.offsets = s.offsets)
    (horigins : ∀ tp, s.origins tp <+: s'.origins tp)
    (htrace : s'.trace = s.trace ++ [(step, s'.disk)]) : Quiet s s' := by
  refine ⟨hcommitted, hoffsets, horigins, _, htrace, fun e he => ?_⟩
  rw [mem_singleton.mp he]
  exact ⟨hstep, hoffsets, horigins⟩

theorem Quiet.trans (h : Quiet s s') (h' : Quiet s' s'') : Quiet s s'' := by
  obtain ⟨new, htrace, hnew⟩ := h.trace
  obtain ⟨new', htrace', hnew'⟩ := h'.trace
  refine ⟨h'.committed.trans h.committed, h'.offsets.trans h.offsets,
    fun tp => (h.origins tp).trans (h'.origins tp), new ++ new',
    by rw [htrace', htrace, append_assoc], fun e he => ?_⟩
  rcases mem_append.mp he with hin | hin
  · exact hnew e hin
  · obtain ⟨hlabel, hoffsets, horigins⟩ := hnew' e hin
    exact ⟨hlabel, hoffsets.trans h.offsets, fun tp => (h.origins tp).trans (horigins tp)⟩

theorem frame_quiet : Frame Quiet := by
  refine ⟨.refl, .trans, fun s _ _ _ _ _ horigins => ?_, fun s step hstep => ?_, fun s => ?_⟩
  · exact ⟨rfl, rfl, horigins, [], (append_nil _).symm, nofun⟩
  · exact .durable hstep rfl rfl (fun _ => prefix_rfl) rfl
  · have hstep : DurableStep.prepared ≠ .offset := by simp
    exact .durable hstep rfl rfl (fun _ => prefix_rfl) rfl

theorem quiet_expireTimedOutTxns (s : State) : Quiet s s.expireTimedOutTxns := by
  have hopen : Quiet s { s with openTxns := s.unexpiredOpenTxns } := .still rfl rfl rfl rfl
  have hprepared (s : State) : Quiet s { s with preparedTxns := s.unexpiredPreparedTxns } :=
    .still rfl rfl rfl rfl
  exact (hopen.trans (frame_quiet.expireTimedOutOpenTxns s)).trans
    ((hprepared _).trans (frame_quiet.expireTimedOutPreparedTxns _))

theorem quiet_recordIdempotentProduce (s : State) (pid epoch : Nat) (tp : TopicPartition)
    (baseSequence : Int) (count baseOffset : Nat) :
    Quiet s (s.recordIdempotentProduce pid epoch tp baseSequence count baseOffset) := by
  unfold recordIdempotentProduce
  split_ifs
  · exact .refl s
  · split
    · exact .refl s
    · split_ifs
      · exact .refl s
      · have hstep : DurableStep.producers ≠ .offset := by simp
        exact .durable hstep rfl rfl (fun _ => prefix_rfl) rfl

/-! ## Offset files -/

/-- The offset has a file of its own: plain names, and metadata that fit. -/
structure Storable (o : DeferredOffset) : Prop where
  group : Plain o.groupId
  topic : Plain o.topic
  metadata : o.metadata.utf8ByteSize ≤ u16Max

/-- For each target the last of the deferred offsets is committed, and no other offset has
changed. -/
structure Applied (deferred : List DeferredOffset)
    (before after : OffsetKey → Option CommittedOffset) : Prop where
  last : ∀ pre o post, deferred = pre ++ o :: post → (∀ o' ∈ post, o'.target ≠ o.target) →
    after o.target = some o.entry
  others : ∀ key, (∀ o ∈ deferred, o.target ≠ key) → after key = before key

theorem Storable.offsets_commitOffset {o : DeferredOffset} (h : Storable o) (s : State) :
    (s.commitOffset o).offsets = Function.update s.offsets o.target (some o.entry) := by
  have hkey : o.key = o.target := by
    simp [DeferredOffset.key, DeferredOffset.target, h.group.sanitized, h.topic.sanitized]
  have hfits : o.fits = true := by
    simp [DeferredOffset.fits, h.metadata, h.group.sanitized, h.group.short, h.topic.sanitized,
      h.topic.short]
  simp [commitOffset, hfits, durable, hkey]

theorem foldl_commitOffset_of_ne {l : List DeferredOffset} (hstorable : ∀ o ∈ l, Storable o)
    {key : OffsetKey} (hne : ∀ o ∈ l, o.target ≠ key) (s : State) :
    (l.foldl commitOffset s).offsets key = s.offsets key := by
  induction l generalizing s with
  | nil => rfl
  | cons o l ih =>
    obtain ⟨ho, hl⟩ := forall_mem_cons.mp hstorable
    obtain ⟨hneo, hnel⟩ := forall_mem_cons.mp hne
    rw [foldl_cons, ih hl hnel, ho.offsets_commitOffset, Function.update_of_ne hneo.symm]

theorem applied_foldl_commitOffset {l : List DeferredOffset} (hstorable : ∀ o ∈ l, Storable o)
    (s : State) : Applied l s.offsets (l.foldl commitOffset s).offsets := by
  refine ⟨?_, fun key hne => foldl_commitOffset_of_ne hstorable hne s⟩
  rintro pre o post rfl hpost
  obtain ⟨ho, hpostStorable⟩ := forall_mem_cons.mp (forall_mem_append.mp hstorable).2
  rw [foldl_append, foldl_cons, foldl_commitOffset_of_ne hpostStorable hpost,
    ho.offsets_commitOffset, Function.update_self]

/-- Since `s₀` no record was taken back, and every disk has the offsets of `s₀` until the first
offset file. -/
structure Since (s₀ s : State) : Prop where
  origins : ∀ tp, s₀.origins tp <+: s.origins tp
  offsets : (∀ e ∈ s.trace, e.1 ≠ .offset) → s.offsets = s₀.offsets
  images : ∀ i e, s.trace[i]? = some e → (∀ tp, s₀.origins tp <+: e.2.origins tp) ∧
    ((∀ e' ∈ s.trace.take (i + 1), e'.1 ≠ .offset) → e.2.offsets = s₀.offsets)

variable {s₀ : State}

theorem Since.start (htrace : s.trace = []) : Since s s :=
  ⟨fun _ => prefix_rfl, fun _ => rfl, fun i e he => by simp [htrace] at he⟩

/-- Some more durable steps, that all lead to acceptable disks. -/
theorem Since.grow (h : Since s₀ s) (horigins : ∀ tp, s.origins tp <+: s'.origins tp)
    {new : List (DurableStep × Disk)} (htrace : s'.trace = s.trace ++ new)
    (hnew : ∀ e ∈ new, (∀ tp, s.origins tp <+: e.2.origins tp) ∧
      (e.1 = .offset ∨ e.2.offsets = s.offsets))
    (hoffsets : (∀ e ∈ new, e.1 ≠ .offset) → s'.offsets = s.offsets) : Since s₀ s' := by
  refine ⟨fun tp => (h.origins tp).trans (horigins tp), fun hall => ?_, fun i e he => ?_⟩
  · rw [htrace] at hall
    rw [hoffsets fun e he => hall e (mem_append_right _ he),
      h.offsets fun e he => hall e (mem_append_left _ he)]
  · rw [htrace] at he ⊢
    rcases Nat.lt_or_ge i s.trace.length with hlt | hge
    · rw [getElem?_append_left hlt] at he
      rw [take_append_of_le_length hlt]
      exact h.images i e he
    · rw [getElem?_append_right hge] at he
      obtain ⟨hbegins, hor⟩ := hnew e (mem_of_getElem? he)
      refine ⟨fun tp => (h.origins tp).trans (hbegins tp), fun hall => ?_⟩
      have hmem : e ∈ (s.trace ++ new).take (i + 1) := by
        refine mem_of_getElem? (i := i) ?_
        rw [getElem?_take_of_lt (Nat.lt_succ_self i), getElem?_append_right hge]
        exact he
      have hold : ∀ e' ∈ s.trace, e'.1 ≠ .offset := by
        intro e' he'
        refine hall e' ?_
        rw [take_append]
        refine mem_append_left _ ?_
        rwa [take_of_length_le (Nat.le_succ_of_le hge)]
      rw [hor.resolve_left (hall e hmem), h.offsets hold]

theorem Since.quiet (h : Since s₀ s) (hq : Quiet s s') : Since s₀ s' := by
  obtain ⟨new, htrace, hnew⟩ := hq.trace
  exact h.grow hq.origins htrace (fun e he => ⟨(hnew e he).2.2, .inr (hnew e he).2.1⟩)
    fun _ => hq.offsets

theorem Since.commitOffset (h : Since s₀ s) (o : DeferredOffset) : Since s₀ (s.commitOffset o) := by
  unfold State.commitOffset
  split_ifs
  · refine h.grow (fun _ => prefix_rfl) rfl (fun e he => ?_) fun hall => ?_
    · rw [mem_singleton.mp he]
      exact ⟨fun _ => prefix_rfl, .inl rfl⟩
    · exact absurd rfl (hall _ mem_cons_self)
  · exact h

theorem Since.foldl_commitOffset (h : Since s₀ s) (l : List DeferredOffset) :
    Since s₀ (l.foldl State.commitOffset s) := by
  induction l generalizing s with
  | nil => exact h
  | cons o l ih => exact ih (h.commitOffset o)

/-! ## EndTxn with commit -/

/-- The state of a commit before its offset files. -/
def beforeOffsets (s : State) (pid epoch : Nat) (txn : OpenTxn) : State :=
  (txn.written.foldl (fun s batch => s.recordIdempotentProduce pid epoch batch.tp
    batch.baseSequence batch.count batch.firstOffset) s).appendTxnControlMarkers pid epoch .commit txn

theorem quiet_beforeOffsets (s : State) (pid epoch : Nat) (txn : OpenTxn) :
    Quiet s (s.beforeOffsets pid epoch txn) :=
  (frame_quiet.foldl (fun s (batch : WrittenRange) => quiet_recordIdempotentProduce s pid epoch batch.tp
    batch.baseSequence batch.count batch.firstOffset) txn.written s).trans
      (frame_quiet.appendTxnControlMarkers _ _ _ _ _)

theorem committed_foldl_commitOffset (l : List DeferredOffset) (s : State) :
    (l.foldl commitOffset s).committed = s.committed := by
  induction l generalizing s with
  | nil => rfl
  | cons o l ih =>
    rw [foldl_cons, ih]
    unfold commitOffset
    split_ifs <;> rfl

theorem Since.finalizeTxn (h : Since s₀ s) (pid epoch : Nat) (txn : OpenTxn)
    (offsets : List DeferredOffset) : Since s₀ (s.finalizeTxn pid epoch true txn offsets).2 := by
  exact ((h.quiet (quiet_beforeOffsets s pid epoch txn)).foldl_commitOffset _).quiet
    (frame_quiet.persistTxnMarkers _ (by simp))

variable {offsets : List DeferredOffset}

/-- What a commit does to the consumer offsets. -/
theorem finalizeTxn_commit_offsets (s : State) (pid epoch : Nat) (txn : OpenTxn)
    (hstorable : ∀ o ∈ txn.deferredOffsets ++ offsets, Storable o) :
    (s.finalizeTxn pid epoch true txn offsets).2.committed = s.committed ∧
      Applied (txn.deferredOffsets ++ offsets) s.offsets
        (s.finalizeTxn pid epoch true txn offsets).2.offsets := by
  have hquiet := quiet_beforeOffsets s pid epoch txn
  refine ⟨(committed_foldl_commitOffset _ _).trans hquiet.committed, ?_⟩
  rw [← hquiet.offsets]
  exact applied_foldl_commitOffset hstorable _

theorem quiet_prepareTxn (s : State) (pid epoch : Nat) (committed : Bool) (id : String)
    (txn : OpenTxn) : Quiet s (s.prepareTxn pid epoch committed id txn) := by
  have hinsert : ∀ preparedTxns, Quiet s { s with preparedTxns } := fun _ => .still rfl rfl rfl rfl
  exact ((hinsert _).trans (frame_quiet.persistTxnMarkers _ (by simp))).trans
    (frame_quiet.prepared _)

/-- How an EndTxn with commit ends: nothing is committed, or everything is. -/
def Outcome (txn : OpenTxn) (offsets : List DeferredOffset) (s s' : State) : Prop :=
  (s'.committed = s.committed ∧ s'.offsets = s.offsets) ∨
    (s'.committed = txn.serial :: s.committed ∧
      Applied (txn.deferredOffsets ++ offsets) s.offsets s'.offsets)

theorem endTxn_commit (s : State) (hstart : s.trace = []) (pid epoch : Nat) {txn : OpenTxn}
    (hending : s.expireTimedOutTxns.endingTxn pid = some txn)
    (hstorable : ∀ o ∈ txn.deferredOffsets ++ offsets, Storable o) :
    Since s (s.endTxn pid epoch true offsets).2.2 ∧
      Outcome txn offsets s (s.endTxn pid epoch true offsets).2.2 := by
  have hexpire := quiet_expireTimedOutTxns s
  have hsince := (Since.start hstart).quiet hexpire
  suffices hgoal : Since s (s.endTxn pid epoch true offsets).2.2 ∧
      Outcome txn offsets s.expireTimedOutTxns (s.endTxn pid epoch true offsets).2.2 by
    simpa only [Outcome, hexpire.committed, hexpire.offsets] using hgoal
  rcases endTxn_exits s pid epoch true offsets with ⟨-, heq | heq⟩ |
    ⟨prod, hprod, -, ⟨prep, hne, hlookup, hends⟩ | ⟨hnone, txn', hlookup, hends⟩⟩
  · rw [heq]
    exact ⟨hsince, .inl ⟨rfl, rfl⟩⟩
  · rw [heq]
    exact ⟨hsince.quiet (.still rfl rfl rfl rfl), .inl ⟨rfl, rfl⟩⟩
  · cases (endingTxn_of_prepared hprod hne hlookup).symm.trans hending
    rw [hends.result]
    set s₁ := { s.expireTimedOutTxns with
      preparedTxns := s.expireTimedOutTxns.preparedTxns.erase
        prod.transactionalId }.clearTxnAbortable pid
    have htake : Quiet s.expireTimedOutTxns s₁ := .still rfl rfl rfl rfl
    have hfinal := ((hsince.quiet htake).finalizeTxn pid epoch prep.body offsets).quiet
      (frame_quiet.prepared _)
    obtain ⟨hcommitted, hoffsets⟩ := finalizeTxn_commit_offsets s₁ pid epoch prep.body hstorable
    exact ⟨⟨hfinal.origins, hfinal.offsets, hfinal.images⟩,
      .inr ⟨congrArg (prep.body.serial :: ·) hcommitted, hoffsets⟩⟩
  · cases ((endingTxn_of_open hprod hnone).trans hlookup).symm.trans hending
    unfold EndsOpen at hends
    set s₁ := { s.expireTimedOutTxns with
      openTxns := s.expireTimedOutTxns.openTxns.erase pid }.clearTxnAbortable pid
    have htake : Quiet s.expireTimedOutTxns s₁ := .still rfl rfl rfl rfl
    simp only at hends
    split_ifs at hends
    · have hprepare := htake.trans (quiet_prepareTxn s₁ pid epoch true prod.transactionalId txn)
      rw [hends]
      exact ⟨hsince.quiet hprepare, .inl ⟨hprepare.committed, hprepare.offsets⟩⟩
    · have hfinal := (hsince.quiet htake).finalizeTxn pid epoch txn offsets
      obtain ⟨hcommitted, hoffsets⟩ := finalizeTxn_commit_offsets s₁ pid epoch txn hstorable
      rw [hends]
      exact ⟨⟨hfinal.origins, hfinal.offsets, hfinal.images⟩,
        .inr ⟨congrArg (txn.serial :: ·) hcommitted, hoffsets⟩⟩

/-! ## After the restart -/

/-- A restart keeps the offsets and the records of the disk, and the history it is given. -/
theorem quiet_restart (d : Disk) (config : Config) (nowMs : Int) (nextSerial : Nat)
    (committed : List Nat) : Quiet (opened d config nowMs nextSerial committed)
      (restart d config nowMs nextSerial committed) := by
  have hprepared : ∀ s : State, Quiet s s.loadPreparedTxns := fun s => by
    rw [loadPreparedTxns_eq]
    exact .still rfl rfl rfl rfl
  exact ((frame_quiet.loadTxnMarkers _).trans (hprepared _)).trans (quiet_expireTimedOutTxns _)

/-- The committed view from this offset shows the record at it. -/
def shows (s : State) (tp : TopicPartition) (o : Nat) : Bool :=
  match (s.fetchUpTo tp o 1 .committedOnly).1 with
  | .ok records => records.any (·.offset == o)
  | .error _ => false

variable {tp : TopicPartition}

theorem shows_of_uncommitted (h : Inv exact s) (hclean : exact → s.CleanExpiry) {o n : Nat}
    (horigin : s.originAt tp o = some (.txn n)) (hn : n ∉ s.committed) : s.shows tp o = false := by
  have hnone := h.strays_eq_nil hclean tp o 1
  unfold strays at hnone
  unfold shows
  cases hfetch : (s.fetchUpTo tp o 1 .committedOnly).1 with
  | error e => rfl
  | ok records =>
    rw [hfetch] at hnone
    simp only [filterMap_eq_nil_iff] at hnone
    rw [any_eq_false]
    intro r hr heq
    have hoffset : r.offset = o := by simpa using heq
    have hstray := hnone r hr
    simp [hoffset, horigin, hn] at hstray

theorem read_one {p : Partition} (h : Storage.GapFree 0 p.log) {o : Nat} {r : Record}
    (hr : p.log[o]? = some r) : p.read o 1 = [r] := by
  obtain ⟨hlt, hget⟩ := List.getElem?_eq_some_iff.mp hr
  have hsplit : p.log = p.log.take o ++ r :: p.log.drop (o + 1) := by
    rw [← hget, getElem_cons_drop, take_append_drop]
  have hoffset : r.offset = o := by rw [h.offset_eq hr, Nat.zero_add]
  have hbefore : ∀ x ∈ p.log.take o, ¬ o ≤ x.offset := by
    intro x hx
    rw [hsplit] at h
    have hbounds := (Storage.GapFree.append_iff.mp h).1.bounds hx
    rw [length_take] at hbounds
    omega
  rw [Partition.read, hsplit, filter_append, filter_eq_nil_iff.mpr (by simpa using hbefore),
    filter_cons_of_pos (by simp [hoffset])]
  rfl

theorem shows_of_committed (h : Inv True s) (hopen : s.expiredOpenTxns = [])
    (hprepared : s.expiredPreparedTxns = []) {o n : Nat}
    (horigin : s.originAt tp o = some (.txn n)) (hn : n ∈ s.committed) : s.shows tp o = true := by
  have hlt : o < (s.origins tp).length := (List.getElem?_eq_some_iff.mp horigin).1
  cases hp : s.partitions tp with
  | none =>
    rw [h.mem.logs.length tp] at hlt
    simp [disk, hp] at hlt
  | some p =>
    have hlog := disk_logs_of_some hp
    rw [h.mem.logs.length tp, hlog, Option.getD_some] at hlt
    obtain ⟨r, hr⟩ : ∃ r, p.log[o]? = some r := ⟨_, getElem?_eq_getElem hlt⟩
    have hgap := h.mem.logs.gapFree tp p.log hlog
    have hoffset : r.offset = o := by rw [hgap.offset_eq hr, Nat.zero_add]
    have hdata : isTxnControlRecord r = false :=
      h.mem.logs.marked tp p.log o r _ hlog hr horigin trivial
    have hnotAborted : s.isAbortedOffset tp o = false := by
      rw [← Bool.not_eq_true, isAbortedOffset_iff]
      intro ha
      obtain ⟨g, hg, hdisc⟩ := h.mem.ledger.exact trivial tp o ha
      cases horigin.symm.trans hg
      simp [Origin.Discardable, hn] at hdisc
    have hstable : s.isUnstableOffset tp o = false := by
      rw [← Bool.not_eq_true, isUnstableOffset_iff]
      rintro ⟨t, ht, hcovered⟩
      have howner := (h.mem.ledger.own t ht tp o).mpr hcovered
      cases horigin.symm.trans howner
      exact (h.mem.ledger.listed t ht).2 hn
    have hhwm : p.committedHwm = p.log.length := (h.mem.settled tp p hp).hwm
    simp [shows, fetchUpTo, examined, hp, read_one hgap hr, hoffset, hhwm, hlt, hdata,
      committedOnlyKeeps, hnotAborted, hstable, expireTimedOutTxns_of_nil hopen hprepared]

/-! ## All or nothing -/

/-- All records of the transaction are shown and all its offsets applied, or nothing of it. -/
def Atomic (before : OffsetKey → Option CommittedOffset) (txn : OpenTxn)
    (offsets : List DeferredOffset) (r : State) : Prop :=
  ((∀ tp o, Covered txn.written tp o → r.shows tp o = true) ∧
      Applied (txn.deferredOffsets ++ offsets) before r.offsets) ∨
    ((∀ tp o, Covered txn.written tp o → r.shows tp o = false) ∧ r.offsets = before)

/-- The operation has not written an offset file when it is cut off. -/
def BeforeOffsets (s : State) (op : Op) (k : Nat) : Prop :=
  ∀ e ∈ (s.cuts op).take (k + 1), e.1 ≠ .offset

instance (s : State) (op : Op) (k : Nat) : Decidable (s.BeforeOffsets op k) :=
  inferInstanceAs (Decidable (∀ e ∈ (s.cuts op).take (k + 1), e.1 ≠ .offset))

theorem live_of_expireTimedOutTxns {t : OpenTxn} (ht : t ∈ s.expireTimedOutTxns.live) :
    t ∈ s.live := by
  have h₁ := frame_sameTables.expireTimedOutOpenTxns s
  have h₂ := frame_sameTables.expireTimedOutPreparedTxns s.expireTimedOutOpenTxns
  have hopen : s.expireTimedOutTxns.openTxns = s.unexpiredOpenTxns := h₂.openTxns.trans h₁.openTxns
  have hprep : s.expireTimedOutTxns.preparedTxns =
    s.expireTimedOutOpenTxns.unexpiredPreparedTxns := h₂.preparedTxns
  simp only [live, Assoc.values, mem_append, map_map, mem_map, hopen, hprep] at ht ⊢
  rcases ht with ⟨e, he, rfl⟩ | ⟨e, he, rfl⟩
  · exact .inl ⟨e, Assoc.mem_of_mem_foldl_erase _ _ _ he, rfl⟩
  · refine .inr ⟨e, ?_, rfl⟩
    rw [← h₁.preparedTxns]
    exact Assoc.mem_of_mem_foldl_erase _ _ _ he

theorem live_of_endingTxn {pid : Nat} {txn : OpenTxn} (h : s.endingTxn pid = some txn) :
    txn ∈ s.live := by
  have hopen : s.openTxns.lookup pid = some txn → txn ∈ s.live :=
    fun hlookup => mem_append_left _ (Assoc.mem_values_of_lookup hlookup)
  unfold endingTxn at h
  split at h
  · cases h
  · split_ifs at h
    · exact hopen h
    · split at h
      next prep hprep =>
        cases h
        exact mem_append_right _ (mem_map_of_mem (Assoc.mem_values_of_lookup hprep))
      · exact hopen h

theorem cut_of_getElem? {op : Op} {k : Nat} {image : DurableStep × Disk}
    (h : (s.cuts op)[k]? = some image) : (s.exec op).trace[k]? = some image ∧
      (s.exec op).trace.take (k + 1) = (s.cuts op).take (k + 1) := by
  have hlt := (List.getElem?_eq_some_iff.mp h).1
  have hle : k + 1 ≤ (s.exec op).trace.length - 1 := by
    simpa [cuts] using hlt
  rw [cuts, dropLast_eq_take] at h ⊢
  rw [getElem?_take_of_lt (by omega)] at h
  exact ⟨h, by rw [take_take, Nat.min_eq_left hle]⟩

theorem originAt_of_begins {origins origins' : TopicPartition → List Origin}
    {o : Nat} {g : Origin} (hbegins : origins tp <+: origins' tp)
    (h : (origins tp)[o]? = some g) : (origins' tp)[o]? = some g := by
  obtain ⟨rest, hrest⟩ := hbegins
  rw [← hrest, getElem?_append_left (List.getElem?_eq_some_iff.mp h).1]
  exact h

section EndTxn

variable {pid epoch : Nat} {offsets : List DeferredOffset} {txn : OpenTxn}

/-- A crash before the first offset file leaves nothing of the transaction. -/
theorem Inv.atomic_of_cut (h : Inv False s)
    (hending : s.idle.expireTimedOutTxns.endingTxn pid = some txn)
    (hstorable : ∀ o ∈ txn.deferredOffsets ++ offsets, Storable o) {k : Nat} {nowMs : Int} {r : State}
    (hsafe : s.CrashSafe (.crash (.endTxn pid epoch true offsets) k nowMs))
    (hbefore : s.BeforeOffsets (.endTxn pid epoch true offsets) k)
    (hnext : s.next (.crash (.endTxn pid epoch true offsets) k nowMs) = some r) :
    Atomic s.offsets txn offsets r := by
  have hlive : txn ∈ s.live := live_of_expireTimedOutTxns (s := s.idle) (live_of_endingTxn hending)
  obtain ⟨hsince, -⟩ := endTxn_commit s.idle rfl pid epoch hending hstorable
  obtain ⟨image, himage, rfl⟩ := Option.map_eq_some_iff.mp hnext
  have hrestarted : Inv False (restart image.2 s.config nowMs s.nextSerial s.committed) :=
    (DiskOk.restart (h.diskOk_cut hsafe False.elim himage) False.elim).1.toInv
  have hquiet := quiet_restart image.2 s.config nowMs s.nextSerial s.committed
  obtain ⟨htrace, htake⟩ := cut_of_getElem? himage
  obtain ⟨horigins, hoffsets⟩ := hsince.images k image htrace
  refine .inr ⟨fun tp o hcovered => ?_, hquiet.offsets.trans (hoffsets ?_)⟩
  · have horigin := (h.mem.ledger.own txn hlive tp o).mpr hcovered
    refine shows_of_uncommitted hrestarted False.elim
      (originAt_of_begins (hquiet.origins tp) (originAt_of_begins (horigins tp) horigin)) ?_
    rw [hquiet.committed]
    exact (h.mem.ledger.listed txn hlive).2
  · intro e he
    exact hbefore e (htake ▸ he)

/-- Once the call is over, a restart finds all of the transaction, or nothing if the call did not
commit. -/
theorem Inv.atomic_of_end (h : Inv True s)
    (hending : s.idle.expireTimedOutTxns.endingTxn pid = some txn)
    (hstorable : ∀ o ∈ txn.deferredOffsets ++ offsets, Storable o)
    (hclean : s.Clean (.endTxn pid epoch true offsets)) {nowMs : Int}
    (hcleanRestart : (s.exec (.endTxn pid epoch true offsets)).Clean (.restart nowMs)) :
    Atomic s.offsets txn offsets
      ((s.exec (.endTxn pid epoch true offsets)).exec (.restart nowMs)) := by
  have hlive : txn ∈ s.live := live_of_expireTimedOutTxns (s := s.idle) (live_of_endingTxn hending)
  obtain ⟨hsince, houtcome⟩ := endTxn_commit s.idle rfl pid epoch hending hstorable
  have hinv := (h.exec (.endTxn pid epoch true offsets) trivial fun _ => hclean).inv
  revert hinv hcleanRestart
  rw [show s.exec (.endTxn pid epoch true offsets) = (s.idle.endTxn pid epoch true offsets).2.2
    from rfl]
  revert hsince houtcome
  generalize (s.idle.endTxn pid epoch true offsets).2.2 = s'
  intro hsince houtcome hcleanRestart hinv
  obtain ⟨hloaded, -, -, -⟩ := settled_loaded hinv.diskOk s'.config nowMs
  have hrestarted := (DiskOk.restart hinv.diskOk fun _ => hcleanRestart).1.toInv
  have hopen := expiredOpenTxns_expireTimedOutTxns
    (loaded s'.disk s'.config nowMs s'.nextSerial s'.committed)
  have hprep := expiredPreparedTxns_expireTimedOutTxns hloaded.mem.keys
  have hquiet := quiet_restart s'.disk s'.config nowMs s'.nextSerial s'.committed
  have horigin : ∀ tp o, Covered txn.written tp o →
      (s'.exec (.restart nowMs)).originAt tp o = some (.txn txn.serial) := fun tp o hcovered =>
    originAt_of_begins (hquiet.origins tp) (originAt_of_begins (hsince.origins tp)
      ((h.mem.ledger.own txn hlive tp o).mpr hcovered))
  rcases houtcome with ⟨hcommitted, hoffsets⟩ | ⟨hcommitted, hoffsets⟩
  · refine .inr ⟨fun tp o hcovered => ?_, hquiet.offsets.trans hoffsets⟩
    refine shows_of_uncommitted hrestarted (fun _ => ?_) (horigin tp o hcovered) ?_
    · exact ⟨by simp [restart, hopen], by simp [restart, hprep]⟩
    · rw [hquiet.committed]
      exact hcommitted ▸ (h.mem.ledger.listed txn hlive).2
  · refine .inl ⟨fun tp o hcovered => ?_, hquiet.offsets.symm ▸ hoffsets⟩
    refine shows_of_committed hrestarted hopen hprep (horigin tp o hcovered) ?_
    rw [hquiet.committed]
    exact hcommitted ▸ mem_cons_self

end EndTxn

/-- EndTxn with commit, in a state that a clean history reaches: wherever it stops outside the
offset files, a restart finds the whole transaction or nothing of it. -/
theorem commit_atomic_across_crashes {config : Config}
    (h : Reachable (fun s e => s.CrashSafe e ∧ s.CleanEvent e) config s) (pid epoch : Nat)
    (offsets : List DeferredOffset) {txn : OpenTxn}
    (hending : s.idle.expireTimedOutTxns.endingTxn pid = some txn)
    (hstorable : ∀ o ∈ txn.deferredOffsets ++ offsets, Storable o) :
    (∀ k nowMs r, s.CrashSafe (.crash (.endTxn pid epoch true offsets) k nowMs) →
        s.BeforeOffsets (.endTxn pid epoch true offsets) k →
        s.next (.crash (.endTxn pid epoch true offsets) k nowMs) = some r →
        Atomic s.offsets txn offsets r) ∧ (s.Clean (.endTxn pid epoch true offsets) → ∀ nowMs,
        (s.exec (.endTxn pid epoch true offsets)).Clean (.restart nowMs) →
        Atomic s.offsets txn offsets
          ((s.exec (.endTxn pid epoch true offsets)).exec (.restart nowMs))) := by
  have hloose : Inv False s := h.inv fun _ _ hok => ⟨hok.1, False.elim⟩
  have hexact : Inv True s := h.inv fun _ _ hok => ⟨hok.1, fun _ => hok.2⟩
  refine ⟨fun k nowMs r hsafe hbefore hnext => ?_, fun hclean nowMs hcleanRestart => ?_⟩
  · exact hloose.atomic_of_cut hending hstorable hsafe hbefore hnext
  · exact hexact.atomic_of_end hending hstorable hclean hcleanRestart

/-! ## Between the offsets and the marker file -/

def groupOffset : DeferredOffset :=
  { groupId := "g", topic := "orders", partition := 0, offset := 7, metadata := "" }

/-- A transaction with one record and one deferred offset. -/
def deferring : List Event :=
  begins false ++ [.op (writes 1), .op (.bufferTxnOffsets 1 0 [groupOffset])]

def deferred : State := (fresh oneSecond).follow deferring

def deferredTxn : OpenTxn := (deferred.idle.expireTimedOutTxns.endingTxn 1).getD
  { openedAtMs := 0, producerEpoch := 0, added := [], written := [], pending := ∅,
    deferredOffsets := [], serial := 0 }

theorem deferred_reachable :
    Reachable (fun s e => s.CrashSafe e ∧ s.CleanEvent e) oneSecond deferred :=
  Reachable.start.follow (by decide +kernel)

theorem deferred_ending : deferred.idle.expireTimedOutTxns.endingTxn 1 = some deferredTxn := by
  have hsome : (deferred.idle.expireTimedOutTxns.endingTxn 1).isSome = true := by decide +kernel
  obtain ⟨txn, htxn⟩ := Option.isSome_iff_exists.mp hsome
  rw [deferredTxn, htxn, Option.getD_some]

theorem deferred_covered : Covered deferredTxn.written orders 0 := by
  have hranges : deferredTxn.written.map (fun r => (r.tp, r.firstOffset, r.endOffset)) =
      [(orders, 0, 1)] := by
    decide +kernel
  obtain ⟨r, hr, heq⟩ := exists_of_mem_map (hranges ▸ mem_singleton_self (orders, 0, 1))
  simp only [Prod.mk.injEq] at heq
  exact ⟨r, hr, heq.1, heq.2.1.le, by omega⟩

/-- A crash after the offset file and before the marker file: the offset is applied, the record is
hidden. -/
theorem commit_torn_by_crash : Reachable (fun _ _ => True) oneSecond deferred ∧
      deferred.idle.expireTimedOutTxns.endingTxn 1 = some deferredTxn ∧
      (deferred.next (.crash (.endTxn 1 0 true []) 2 1)).isSome = true ∧
      ∀ r ∈ deferred.next (.crash (.endTxn 1 0 true []) 2 1),
        r.shows orders 0 = false ∧ r.offsets groupOffset.key = some groupOffset.entry ∧
          ¬ Atomic deferred.offsets deferredTxn [] r := by
  have hevents : ∀ r ∈ deferred.next (.crash (.endTxn 1 0 true []) 2 1),
      r.shows orders 0 = false ∧ r.offsets groupOffset.key = some groupOffset.entry := by
    decide +kernel
  refine ⟨Reachable.start.follow ?_, deferred_ending, by decide +kernel, fun r hr => ?_⟩
  · simp [deferring, begins, Permits, next]
  · obtain ⟨hshows, happlied⟩ := hevents r hr
    refine ⟨hshows, happlied, ?_⟩
    rintro (⟨hall, -⟩ | ⟨-, hnone⟩)
    · rw [hall orders 0 deferred_covered] at hshows
      cases hshows
    · rw [hnone] at happlied
      cases happlied

/-- The same commit, stopped before its offset file or after its marker file. -/
theorem deferred_commit_atomic : (∀ r ∈ deferred.next (.crash (.endTxn 1 0 true []) 1 1),
        Atomic deferred.offsets deferredTxn [] r) ∧ Atomic deferred.offsets deferredTxn []
        ((deferred.exec (.endTxn 1 0 true [])).exec (.restart 1)) := by
  have hall : deferredTxn.deferredOffsets ++ [] = [groupOffset] := by decide +kernel
  have hstorable : ∀ o ∈ deferredTxn.deferredOffsets ++ [], Storable o := by
    rw [hall, forall_mem_singleton]
    exact ⟨by decide +kernel, by decide +kernel, by decide +kernel⟩
  obtain ⟨hcut, hend⟩ :=
    commit_atomic_across_crashes deferred_reachable 1 0 [] deferred_ending hstorable
  refine ⟨fun r hr => hcut 1 1 r (by decide +kernel) (by decide +kernel) hr, ?_⟩
  exact hend (by decide +kernel) 1 (by decide +kernel)

end Volant.Broker.State
