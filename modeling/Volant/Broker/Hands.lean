-- SUMMARY: The invariant of interleaved transaction calls, and what each critical section does to it.
import Volant.Broker.Concurrent
import Volant.Broker.Moves

/-!
# Records between the tables

A transactional record is hidden from committed readers by the open table, the
prepared table or the aborted table. Between the append and the registration of
its range, and between leaving one table and entering the next, it is in none
of them but in the hands of the call that moves it. The invariant says of every
transactional record that its transaction is committed, or that a table or a
call's hands hold it; there is one lemma for each section that moves a record.
-/

namespace Volant.Broker

open Sections List

/-- The range is on the partition and holds the offset. -/
def WrittenRange.Holds (r : WrittenRange) (tp : TopicPartition) (o : Nat) : Prop :=
  r.tp = tp ∧ r.firstOffset ≤ o ∧ o < r.endOffset

instance (r : WrittenRange) (tp : TopicPartition) (o : Nat) : Decidable (r.Holds tp o) :=
  inferInstanceAs (Decidable (_ ∧ _ ∧ _))

theorem covered_of_holds {ranges : List WrittenRange} {r : WrittenRange} {tp : TopicPartition}
    {o : Nat} (hr : r ∈ ranges) (h : r.Holds tp o) : Covered ranges tp o := ⟨r, hr, h⟩

namespace Shared

variable {sh sh' : Shared} {t : Nat} {tp : TopicPartition} {o n : Nat}

/-! ## The condition and the invariant -/

/-- A batch is free of control headers and fits the counters; it is registered in the
transaction whose sequence was checked; no other prepared transaction is overwritten; and a
reader looks at a table when none of its records is about to enter it. -/
def Allowed : Label → Shared → Prop
  | .other, _ => True
  | .append tp messages, sh =>
    sh.state.BatchFits tp messages ∧ ∀ m ∈ messages, isTxnControl m.headers = false
  | .register producerId serial, sh =>
    ∀ txn ∈ sh.state.openTxns.lookup producerId, txn.serial = serial
  | .prepare transactionalId, sh => (sh.state.preparedTxns.lookup transactionalId).isNone
  | .scanOpen tp offsets, sh =>
    ∀ e ∈ sh.hands.entries, ∀ l ∈ e.2.appended, ∀ o ∈ offsets, ¬ l.2.Holds tp o
  | .scanPrepared tp offsets, sh =>
    ∀ e ∈ sh.hands.entries, ∀ l ∈ e.2.taken, ∀ o ∈ offsets, ¬ l.2.Holds tp o

/-- Where a record of transaction `n` is accounted for. -/
inductive Held (sh : Shared) (tp : TopicPartition) (o n : Nat) : Prop
  | ended (h : n ∈ sh.ended)
  | aborted (h : sh.state.Aborted tp o)
  | live (txn : OpenTxn) (hmem : txn ∈ sh.state.live) (hserial : txn.serial = n)
      (hcovered : Covered txn.written tp o)
  | appended (t : Nat) (r : WrittenRange) (hmem : (sh.hand t).appended = some (n, r))
      (hholds : r.Holds tp o)
  | taken (t : Nat) (r : WrittenRange) (hmem : (n, r) ∈ (sh.hand t).taken) (hholds : r.Holds tp o)

structure Ok (sh : Shared) : Prop where
  logs : LogsOk True sh.state.disk.logs sh.state.origins
  whole : ∀ tp p, sh.state.partitions tp = some p → p.Whole
  keyed : sh.state.Keyed
  held : ∀ tp o n, sh.state.originAt tp o = some (.txn n) → sh.Held tp o n

/-- The offset is in the open table or about to enter it. -/
def Young (sh : Shared) (tp : TopicPartition) (o : Nat) : Prop :=
  (∃ txn ∈ Assoc.values sh.state.openTxns, Covered txn.written tp o) ∨
    ∃ t, ∃ l ∈ (sh.hand t).appended, l.2.Holds tp o

/-- What never goes back, whatever the calls do. -/
structure Later (sh sh' : Shared) : Prop where
  origins : ∀ tp, sh.state.origins tp <+: sh'.state.origins tp
  ended : ∀ n ∈ sh.ended, n ∈ sh'.ended
  aborted : ∀ tp o, sh.state.Aborted tp o → sh'.state.Aborted tp o
  registered : ∀ l ∈ sh.registered, l ∈ sh'.registered
  young : ∀ tp o, o < (sh.state.origins tp).length → sh'.Young tp o → sh.Young tp o

theorem Later.refl (sh : Shared) : Later sh sh :=
  ⟨fun _ => prefix_rfl, fun _ h => h, fun _ _ h => h, fun _ h => h, fun _ _ _ h => h⟩

theorem Later.trans {sh'' : Shared} (h : Later sh sh') (h' : Later sh' sh'') : Later sh sh'' where
  origins tp := (h.origins tp).trans (h'.origins tp)
  ended n hn := h'.ended n (h.ended n hn)
  aborted tp o ha := h'.aborted tp o (h.aborted tp o ha)
  registered l hl := h'.registered l (h.registered l hl)
  young tp o ho hy := h.young tp o ho (h'.young tp o (ho.trans_le (h.origins tp).length_le) hy)

theorem Later.originAt (h : Later sh sh') {g : Origin} (ho : sh.state.originAt tp o = some g) :
    sh'.state.originAt tp o = some g := by
  obtain ⟨rest, hrest⟩ := h.origins tp
  unfold State.originAt at ho ⊢
  rw [← hrest, getElem?_append_left (List.getElem?_eq_some_iff.mp ho).1]
  exact ho

/-- What a call relies on: what is in its hands is its own. -/
structure Rely (t : Nat) (sh sh' : Shared) : Prop where
  later : Later sh sh'
  hand : sh'.hand t = sh.hand t
  checked : sh'.checked t = sh.checked t

theorem Rely.refl (t : Nat) (sh : Shared) : Rely t sh sh := ⟨.refl sh, rfl, rfl⟩

theorem Rely.trans {sh'' : Shared} (h : Rely t sh sh') (h' : Rely t sh' sh'') : Rely t sh sh'' :=
  ⟨h.later.trans h'.later, h'.hand.trans h.hand, h'.checked.trans h.checked⟩

def contract : Contract Label Shared where
  inv := Ok
  allowed := Allowed
  rely := Rely
  refl := Rely.refl
  trans _ _ _ _ h h' := h.trans h'

/-! ## Hands -/

@[simp] theorem hand_setAppended (sh : Shared) (t : Nat) (a : Option (Nat × WrittenRange)) :
    (sh.setAppended t a).hand t = { sh.hand t with appended := a } := by
  simp [hand, setAppended]

@[simp] theorem hand_setTaken (sh : Shared) (t : Nat) (l : List (Nat × WrittenRange)) :
    (sh.setTaken t l).hand t = { sh.hand t with taken := l } := by
  simp [hand, setTaken]

theorem hand_setAppended_of_ne (a : Option (Nat × WrittenRange)) {u : Nat} (hne : u ≠ t) :
    (sh.setAppended t a).hand u = sh.hand u := by
  simp [hand, setAppended, AList.lookup_insert_ne hne]

theorem hand_setTaken_of_ne (l : List (Nat × WrittenRange)) {u : Nat} (hne : u ≠ t) :
    (sh.setTaken t l).hand u = sh.hand u := by
  simp [hand, setTaken, AList.lookup_insert_ne hne]

theorem hand_appended_of_taken (l : List (Nat × WrittenRange)) (u : Nat) :
    ((sh.setTaken t l).hand u).appended = (sh.hand u).appended := by
  rcases eq_or_ne u t with rfl | hne
  · simp
  · rw [hand_setTaken_of_ne l hne]

theorem hand_taken_of_appended (a : Option (Nat × WrittenRange)) (u : Nat) :
    ((sh.setAppended t a).hand u).taken = (sh.hand u).taken := by
  rcases eq_or_ne u t with rfl | hne
  · simp
  · rw [hand_setAppended_of_ne a hne]

/-- What a label says of all hands holds of each. -/
theorem hand_of_entries {P : Hands → Prop} (hempty : P .empty)
    (h : ∀ e ∈ sh.hands.entries, P e.2) (t : Nat) : P (sh.hand t) := by
  unfold hand
  cases hlookup : sh.hands.lookup t with
  | none => exact hempty
  | some hands =>
    exact h ⟨t, hands⟩ (AList.mem_lookup_iff.mp hlookup)

/-- A section in which a call moves ranges between the tables and its own hands: whatever hides a
record before it hides the record afterwards. -/
structure Moved (t : Nat) (sh sh' : Shared) : Prop where
  partitions : sh'.state.partitions = sh.state.partitions
  origins : sh'.state.origins = sh.state.origins
  keyed : sh'.state.Keyed
  ended : ∀ n ∈ sh.ended, n ∈ sh'.ended
  aborted : ∀ tp o, sh.state.Aborted tp o → sh'.state.Aborted tp o
  registered : ∀ l ∈ sh.registered, l ∈ sh'.registered
  others : ∀ u ≠ t, sh'.hand u = sh.hand u
  hand : ∀ l ∈ (sh'.hand t).appended, l ∈ (sh.hand t).appended
  young : ∀ txn ∈ Assoc.values sh'.state.openTxns, ∀ tp o, Covered txn.written tp o → sh.Young tp o
  live : ∀ txn ∈ sh.state.live, ∀ tp o, Covered txn.written tp o → sh'.Held tp o txn.serial
  appended : ∀ n r, (sh.hand t).appended = some (n, r) → ∀ tp o, r.Holds tp o → sh'.Held tp o n
  taken : ∀ n r, (n, r) ∈ (sh.hand t).taken → ∀ tp o, r.Holds tp o → sh'.Held tp o n

theorem Moved.later (h : Moved t sh sh') : Later sh sh' := by
  refine ⟨fun tp => h.origins ▸ prefix_rfl, h.ended, h.aborted, h.registered, ?_⟩
  rintro tp o - (⟨txn, hmem, hcovered⟩ | ⟨u, l, hl, hholds⟩)
  · exact h.young txn hmem tp o hcovered
  · rcases eq_or_ne u t with rfl | hne
    · exact .inr ⟨u, l, h.hand l hl, hholds⟩
    · exact .inr ⟨u, l, h.others u hne ▸ hl, hholds⟩

theorem Ok.moved (h : Ok sh) (hm : Moved t sh sh') : Later sh sh' ∧ Ok sh' := by
  refine ⟨hm.later, ?_, hm.partitions ▸ h.whole, hm.keyed, fun tp o n ho => ?_⟩
  · have hlogs : sh'.state.disk.logs = sh.state.disk.logs := by simp [State.disk, hm.partitions]
    rw [hlogs, hm.origins]
    exact h.logs
  unfold State.originAt at ho
  rw [hm.origins] at ho
  cases h.held tp o n ho with
  | ended hn => exact .ended (hm.ended n hn)
  | aborted ha => exact .aborted (hm.aborted tp o ha)
  | live txn hmem hserial hcovered => exact hserial ▸ hm.live txn hmem tp o hcovered
  | appended u r hmem hholds =>
    rcases eq_or_ne u t with rfl | hne
    · exact hm.appended n r hmem tp o hholds
    · exact .appended u r (hm.others u hne ▸ hmem) hholds
  | taken u r hmem hholds =>
    rcases eq_or_ne u t with rfl | hne
    · exact hm.taken n r hmem tp o hholds
    · exact .taken u r (hm.others u hne ▸ hmem) hholds

/-- A section that keeps the tables, the aborted ranges, the logs and the history. -/
structure Quiet (sh sh' : Shared) : Prop where
  partitions : sh'.state.partitions = sh.state.partitions
  origins : sh'.state.origins = sh.state.origins
  openTxns : sh'.state.openTxns = sh.state.openTxns
  preparedTxns : sh'.state.preparedTxns = sh.state.preparedTxns
  abortedTxns : sh'.state.abortedTxns = sh.state.abortedTxns
  hands : sh'.hands = sh.hands
  ended : sh'.ended = sh.ended
  registered : sh'.registered = sh.registered

theorem Ok.quiet (h : Ok sh) (hq : Quiet sh sh') : Later sh sh' ∧ Ok sh' := by
  have hhand (u : Nat) : sh'.hand u = sh.hand u := by simp only [hand, hq.hands]
  refine h.moved (t := 0) ⟨hq.partitions, hq.origins, ?_, fun _ hn => hq.ended ▸ hn, fun tp o ha => ?_,
    fun _ hl => hq.registered ▸ hl, fun u _ => hhand u, fun _ hl => hhand 0 ▸ hl,
    fun txn hmem _ _ hc => .inl ⟨txn, hq.openTxns ▸ hmem, hc⟩,
    fun txn hmem _ _ hc => .live txn ?_ rfl hc,
    fun _ r hmem _ _ hholds => .appended 0 r (hhand 0 ▸ hmem) hholds,
    fun _ r hmem _ _ hholds => .taken 0 r (hhand 0 ▸ hmem) hholds⟩
  · unfold State.Keyed
    rw [hq.preparedTxns]
    exact h.keyed
  · unfold State.Aborted
    rwa [hq.abortedTxns]
  · unfold State.live
    rwa [hq.openTxns, hq.preparedTxns]

/-! ## Sections that append -/

theorem Ok.leo_eq (h : Ok sh) {p : Partition} (hp : sh.state.partitions tp = some p) :
    p.leo = (sh.state.origins tp).length := by
  rw [h.logs.length tp, State.disk_logs_of_some hp]
  exact (h.whole tp p hp).leo

/-- An append of records that belong to no transaction. -/
theorem Ok.produce (h : Ok sh) (tp : TopicPartition) {ms : List Message} {g : Origin}
    (hg : ∀ n, g ≠ .txn n) (hmarked : ∀ m ∈ ms, Marked True m.headers g) (step : DurableStep) :
    let sh' := { sh with state := (sh.state.produce tp ms g step).2 }
    Later sh sh' ∧ Ok sh' := by
  intro sh'
  cases hp : sh.state.partitions tp with
  | none =>
    have hsame : sh' = sh := by simp only [sh', State.produce, hp]
    rw [hsame]
    exact ⟨.refl sh, h⟩
  | some p =>
    rcases eq_or_ne ms [] with rfl | hms
    · have hq : Quiet sh sh' := by
        simp only [sh', State.produce_nil hp]
        exact ⟨rfl, rfl, rfl, rfl, rfl, rfl, rfl, rfl⟩
      exact h.quiet hq
    have hstate : sh'.state = (sh.state.appended tp p ms g).durable step := by
      simp [sh', State.produce_some hp hms]
    have hkeeps : State.Keeps sh.state sh'.state := hstate ▸ State.appended_keeps step
    have hyoung (tp : TopicPartition) (o : Nat) : sh'.Young tp o → sh.Young tp o := by
      intro hy
      unfold Young at hy ⊢
      rw [hkeeps.openTxns] at hy
      exact hy
    refine ⟨⟨hkeeps.origins, fun _ hn => hn, fun _ _ ha => by rwa [hkeeps.aborted], fun _ hl => hl,
      fun tp o _ => hyoung tp o⟩, ?_, ?_, ?_, ?_⟩
    · rw [hstate]
      exact State.appended_logsOk h.logs hp (h.whole tp p hp) hmarked
    · rw [hstate]
      exact State.appended_whole (g := g) h.whole hp
    · unfold State.Keyed
      rw [hkeeps.preparedTxns]
      exact h.keyed
    · intro tp' o n ho
      have hold : sh.state.originAt tp' o = some (.txn n) := by
        rw [hstate] at ho
        rcases appendOrigins_getElem?.mp ho with hold | ⟨-, -, -, hnew⟩
        · exact hold
        · exact absurd hnew.symm (hg n)
      cases h.held tp' o n hold with
      | ended hn => exact .ended hn
      | aborted ha => exact .aborted (by rwa [hkeeps.aborted])
      | live txn hmem hserial hcovered => exact .live txn (by rwa [hkeeps.live]) hserial hcovered
      | appended u r hmem hholds => exact .appended u r hmem hholds
      | taken u r hmem hholds => exact .taken u r hmem hholds

/-- The state after the append of a transactional batch. -/
def withBatch (sh : Shared) (t serial : Nat) (tp : TopicPartition) (baseSequence : Int)
    (messages : List Message) (p : Partition) : Shared :=
  { sh.setAppended t (some (serial, Program.rangeOf tp baseSequence messages p.leo)) with
    state := (sh.state.appended tp p messages (.txn serial)).durable .txnAppend }

theorem appendBatch_cases (sh : Shared) (t serial : Nat) (tp : TopicPartition) (baseSequence : Int)
    {messages : List Message} (hms : messages ≠ []) :
    Program.appendBatch t serial tp baseSequence messages sh = (none, sh) ∨
      ∃ p, sh.state.partitions tp = some p ∧
        Program.appendBatch t serial tp baseSequence messages sh =
          (some p.leo, sh.withBatch t serial tp baseSequence messages p) := by
  unfold Program.appendBatch withBatch
  cases hp : sh.state.partitions tp with
  | none => exact .inl (by simp only [State.produce, hp])
  | some p =>
    exact .inr ⟨p, rfl, by simp [State.produce_some hp hms, State.head?_stamp hms]⟩

section appended

variable {serial : Nat} {baseSequence : Int} {messages : List Message} {p : Partition}

/-- The range of a batch that fits is where the records are. -/
theorem holds_rangeOf (hallowed : Allowed (.append tp messages) sh)
    (hp : sh.state.partitions tp = some p) {tp' : TopicPartition} :
    (Program.rangeOf tp baseSequence messages p.leo).Holds tp' o ↔
      tp = tp' ∧ p.leo ≤ o ∧ o < p.leo + messages.length := by
  obtain ⟨⟨hcount, hfits⟩, -⟩ := hallowed
  have hend : saturatingAdd p.leo (State.messageCount messages) = p.leo + messages.length := by
    rw [State.messageCount, Nat.mod_eq_of_lt hcount]
    exact min_eq_left (hfits p hp)
  simp [WrittenRange.Holds, Program.rangeOf, hend]

theorem originAt_withBatch (h : Ok sh) (hp : sh.state.partitions tp = some p) {i : Nat}
    (hi : i < messages.length) :
    (sh.withBatch t serial tp baseSequence messages p).state.originAt tp (p.leo + i) =
      some (.txn serial) := by
  have hleo := h.leo_eq hp
  exact appendOrigins_getElem?.mpr (.inr ⟨rfl, by omega, by omega, rfl⟩)

theorem Ok.later_withBatch (h : Ok sh) (t serial : Nat) (baseSequence : Int)
    (hallowed : Allowed (.append tp messages) sh) (hp : sh.state.partitions tp = some p) :
    Later sh (sh.withBatch t serial tp baseSequence messages p) where
  origins := (State.appended_keeps .txnAppend).origins
  ended _ hn := hn
  aborted _ _ ha := ha
  registered _ hl := hl
  young tp' o ho hy := by
    refine hy.imp_right ?_
    rintro ⟨u, l, hl, hholds⟩
    rcases eq_or_ne u t with rfl | hne
    · -- the new range begins at the end of the log
      have hl' : l = (serial, Program.rangeOf tp baseSequence messages p.leo) := by
        have hown : (sh.withBatch u serial tp baseSequence messages p).hand u = _ :=
          hand_setAppended sh u _
        rw [hown] at hl
        exact (Option.mem_some_iff.mp hl).symm
      subst hl'
      obtain ⟨rfl, hge, -⟩ := (holds_rangeOf hallowed hp).mp hholds
      have hleo := h.leo_eq hp
      omega
    · have hother : (sh.withBatch t serial tp baseSequence messages p).hand u = sh.hand u :=
        hand_setAppended_of_ne _ hne
      exact ⟨u, l, hother ▸ hl, hholds⟩

/-- The append of a transactional batch, whose range is in the call's hands afterwards. -/
theorem Ok.withBatch (h : Ok sh) (hallowed : Allowed (.append tp messages) sh)
    (hp : sh.state.partitions tp = some p) (hnone : (sh.hand t).appended = none) :
    Ok (sh.withBatch t serial tp baseSequence messages p) where
  logs := State.appended_logsOk h.logs hp (h.whole tp p hp) fun m hm _ => hallowed.2 m hm
  whole := State.appended_whole (g := .txn serial) h.whole hp
  keyed := h.keyed
  held tp' o n ho := by
    have hown : (sh.withBatch t serial tp baseSequence messages p).hand t =
        { sh.hand t with
          appended := some (serial, Program.rangeOf tp baseSequence messages p.leo) } :=
      hand_setAppended sh t _
    rcases appendOrigins_getElem?.mp ho with hold | ⟨htp, hge, hlt, hnew⟩
    · cases h.held tp' o n hold with
      | ended hn => exact .ended hn
      | aborted ha => exact .aborted ha
      | live txn hmem hserial hcovered => exact .live txn hmem hserial hcovered
      | appended u r hmem hholds =>
        have hne : u ≠ t := by
          rintro rfl
          rw [hnone] at hmem
          cases hmem
        exact .appended u r ((congrArg Hands.appended (hand_setAppended_of_ne _ hne)).trans hmem)
          hholds
      | taken u r hmem hholds =>
        exact .taken u r ((hand_taken_of_appended _ u).symm ▸ hmem) hholds
    · cases hnew
      have hleo := h.leo_eq hp
      exact .appended t _ (by rw [hown])
        ((holds_rangeOf hallowed hp).mpr ⟨htp, by omega, by omega⟩)

end appended

/-! ## Sections on the tables -/

theorem mem_live_open {s : State} {txn : OpenTxn} (h : txn ∈ Assoc.values s.openTxns) :
    txn ∈ s.live := mem_append_left _ h

/-- A new transaction, which has written nothing. -/
theorem Ok.insertOpen (h : Ok sh) {pid : Nat} (nextSerial : Nat) (txn : OpenTxn)
    (hnone : sh.state.openTxns.lookup pid = none) (hwritten : txn.written = []) :
    let sh' := { sh with
      state := { sh.state with openTxns := sh.state.openTxns.insert pid txn, nextSerial } }
    Later sh sh' ∧ Ok sh' := by
  intro sh'
  have hvalues : Assoc.values sh'.state.openTxns = txn :: Assoc.values sh.state.openTxns :=
    Assoc.values_insert_of_none hnone
  refine h.moved (t := 0) ⟨rfl, rfl, h.keyed, fun _ hn => hn, fun _ _ ha => ha, fun _ hl => hl,
    fun _ _ => rfl, fun _ hl => hl, fun txn' hmem tp o hcovered => ?_,
    fun txn' hmem tp o hcovered => .live txn' ?_ rfl hcovered,
    fun _ r hmem _ _ hholds => .appended 0 r hmem hholds,
    fun _ r hmem _ _ hholds => .taken 0 r hmem hholds⟩
  · rw [hvalues] at hmem
    rcases mem_cons.mp hmem with rfl | hold
    · rw [hwritten] at hcovered
      simp [Covered] at hcovered
    · exact .inl ⟨txn', hold, hcovered⟩
  · rcases mem_append.mp hmem with hopen | hprep
    · exact mem_live_open (hvalues ▸ mem_cons_of_mem _ hopen)
    · exact mem_append_right _ hprep

variable {range : WrittenRange}

/-- The range that was in the call's hands is the last one written to the open transaction. -/
theorem Ok.register (h : Ok sh) {pid : Nat} {txn : OpenTxn} (txn' : OpenTxn)
    (hlookup : sh.state.openTxns.lookup pid = some txn)
    (hhand : (sh.hand t).appended = some (txn.serial, range)) (hserial : txn'.serial = txn.serial)
    (hwritten : txn'.written = txn.written ++ [range]) :
    let sh' := { sh.setAppended t none with
      state := { sh.state with openTxns := sh.state.openTxns.insert pid txn' }
      registered := (txn.serial, range) :: sh.registered }
    Later sh sh' ∧ Ok sh' := by
  intro sh'
  have hold := Assoc.values_perm_of_lookup hlookup
  have hnew : Assoc.values sh'.state.openTxns =
      txn' :: Assoc.values (sh.state.openTxns.erase pid) := Assoc.values_insert _ _ _
  have hself : sh'.hand t = { sh.hand t with appended := none } := hand_setAppended sh t none
  have hwrites {tp : TopicPartition} {o : Nat} (hcovered : Covered txn.written tp o ∨
      range.Holds tp o) : sh'.Held tp o txn.serial := by
    refine .live txn' (mem_live_open (hnew ▸ mem_cons_self)) hserial ?_
    rw [hwritten, covered_append, covered_singleton]
    exact hcovered
  refine h.moved ⟨rfl, rfl, h.keyed, fun _ hn => hn, fun _ _ ha => ha,
    fun _ hl => mem_cons_of_mem _ hl, fun u hne => hand_setAppended_of_ne none hne,
    by simp [hself], fun txn₂ hmem tp o hcovered => ?_, fun txn₂ hmem tp o hcovered => ?_,
    fun n r hmem tp o hholds => ?_, fun n r hmem tp o hholds => .taken t r ?_ hholds⟩
  · rcases mem_cons.mp hmem with rfl | hrest
    · rw [hwritten, covered_append, covered_singleton] at hcovered
      rcases hcovered with hcovered | hholds
      · exact .inl ⟨txn, Assoc.mem_values_of_lookup hlookup, hcovered⟩
      · exact .inr ⟨t, _, hhand, hholds⟩
    · exact .inl ⟨txn₂, hold.symm.subset (mem_cons_of_mem _ hrest), hcovered⟩
  · rcases mem_append.mp hmem with hopen | hprep
    · rcases mem_cons.mp (hold.subset hopen) with rfl | hrest
      · exact hwrites (.inl hcovered)
      · exact .live txn₂ (mem_live_open (hnew ▸ mem_cons_of_mem _ hrest)) rfl hcovered
    · exact .live txn₂ (mem_append_right _ hprep) rfl hcovered
  · rw [hhand] at hmem
    cases hmem
    exact hwrites (.inr hholds)
  · rw [hself]
    exact hmem

/-- The transaction is gone: the range that was in the call's hands is aborted. -/
theorem Ok.pushAbortedMarker (h : Ok sh) (pid : Nat) {serial : Nat}
    (hhand : (sh.hand t).appended = some (serial, range)) :
    let sh' := { sh.setAppended t none with
      state := sh.state.pushAbortedMarker range.tp
        { producerId := pid, firstOffset := range.firstOffset, endOffset := range.endOffset } }
    Later sh sh' ∧ Ok sh' := by
  intro sh'
  have haborted (tp : TopicPartition) (o : Nat) :=
    @State.pushAbortedMarker_aborted sh.state range.tp tp
      { producerId := pid, firstOffset := range.firstOffset, endOffset := range.endOffset } o
  have hself : sh'.hand t = { sh.hand t with appended := none } := hand_setAppended sh t none
  refine h.moved ⟨rfl, rfl, h.keyed, fun _ hn => hn, fun tp o ha => (haborted tp o).mpr (.inl ha),
    fun _ hl => hl, fun u hne => hand_setAppended_of_ne none hne, by simp [hself],
    fun txn hmem _ _ hcovered => .inl ⟨txn, hmem, hcovered⟩,
    fun txn hmem _ _ hcovered => .live txn hmem rfl hcovered, fun n r hmem tp o hholds => ?_,
    fun n r hmem tp o hholds => .taken t r ?_ hholds⟩
  · rw [hhand] at hmem
    cases hmem
    exact .aborted ((haborted tp o).mpr (.inr ⟨hholds.1.symm, hholds.2⟩))
  · rw [hself]
    exact hmem

theorem hand_leave_of_ne (commits : Bool) (txns : List OpenTxn) {u : Nat} (hne : u ≠ t) :
    (sh.leave t commits txns).hand u = sh.hand u := by
  cases commits with
  | true => rfl
  | false => exact hand_setTaken_of_ne _ hne

theorem hand_leave_appended (commits : Bool) (txns : List OpenTxn) (u : Nat) :
    ((sh.leave t commits txns).hand u).appended = (sh.hand u).appended := by
  cases commits with
  | true => rfl
  | false => exact hand_appended_of_taken _ u

/-- Transactions leave their table, by a commit or into the call's hands. -/
theorem Ok.leave (h : Ok sh) (commits : Bool) (txns : List OpenTxn)
    (openTxns : AList fun _ : Nat => OpenTxn) (preparedTxns : AList fun _ : String => PreparedTxn)
    (hempty : (sh.hand t).taken = [])
    (hopen : ∀ txn ∈ Assoc.values openTxns, txn ∈ Assoc.values sh.state.openTxns)
    (hlive : ∀ txn ∈ sh.state.live,
      txn ∈ txns ∨ txn ∈ ({ sh.state with openTxns, preparedTxns } : State).live)
    (hkeyed : ({ sh.state with openTxns, preparedTxns } : State).Keyed) :
    let sh' := { sh.leave t commits txns with state := { sh.state with openTxns, preparedTxns } }
    Later sh sh' ∧ Ok sh' := by
  intro sh'
  refine h.moved ⟨rfl, rfl, hkeyed, fun n hn => ?_, fun _ _ ha => ha, fun _ hl => ?_,
    fun u hne => hand_leave_of_ne commits txns hne, fun l hl => hand_leave_appended commits txns t ▸ hl,
    fun txn hmem _ _ hcovered => .inl ⟨txn, hopen txn hmem, hcovered⟩,
    fun txn hmem tp o hcovered => ?_, fun n r hmem _ _ hholds =>
      .appended t r ((hand_leave_appended commits txns t).trans hmem) hholds,
    by simp [hempty]⟩
  · cases commits with
    | true => exact mem_append_right _ hn
    | false => exact hn
  · cases commits <;> exact hl
  · rcases hlive txn hmem with hleft | hstays
    · cases commits with
      | true => exact .ended (mem_append_left _ (mem_map_of_mem hleft))
      | false =>
        obtain ⟨r, hr, hholds⟩ := hcovered
        have hhand : (sh'.hand t).taken =
            txns.flatMap fun txn => txn.written.map fun r => (txn.serial, r) :=
          congrArg Hands.taken (hand_setTaken sh t _)
        refine .taken t r ?_ hholds
        rw [hhand]
        exact mem_flatMap.mpr ⟨txn, hleft, mem_map.mpr ⟨r, hr, rfl⟩⟩
    · exact .live txn hstays rfl hcovered

/-- The ranges of a partition go from the call's hands to the aborted table. -/
theorem Ok.pushAbortedHull (h : Ok sh) (pid : Nat) (written : List WrittenRange)
    (tp : TopicPartition) :
    let sh' := { sh.setTaken t
        ((sh.hand t).taken.filter fun l => !decide (l.2 ∈ written ∧ l.2.tp = tp)) with
      state := sh.state.pushAbortedHull pid written tp }
    Later sh sh' ∧ Ok sh' := by
  intro sh'
  obtain ⟨abortedTxns, heq⟩ := State.pushAbortedHull_eq pid written sh.state tp
  have hstate : sh'.state = { sh.state with abortedTxns } := heq
  have haborted (tp' : TopicPartition) (o : Nat) :=
    @State.pushAbortedHull_aborted sh.state pid written tp tp' o
  refine h.moved ⟨by rw [hstate], by rw [hstate], by rw [hstate]; exact h.keyed, fun _ hn => hn,
    fun tp' o ha => (haborted tp' o).mpr (.inl ha), fun _ hl => hl,
    fun u hne => hand_setTaken_of_ne _ hne, fun l hl => hand_appended_of_taken _ t ▸ hl,
    fun txn hmem _ _ hcovered => .inl ⟨txn, ?_, hcovered⟩,
    fun txn hmem _ _ hcovered => .live txn (by rw [hstate]; exact hmem) rfl hcovered,
    fun n r hmem _ _ hholds => .appended t r ((hand_appended_of_taken _ t).trans hmem) hholds,
    fun n r hmem tp' o hholds => ?_⟩
  · rw [hstate] at hmem
    exact hmem
  · by_cases hpushed : r ∈ written ∧ r.tp = tp
    · obtain ⟨hr, rfl⟩ := hpushed
      obtain rfl := hholds.1
      exact .aborted ((haborted _ o).mpr (.inr ⟨rfl, .of_covered (covered_of_holds hr hholds)⟩))
    · have hhand : (sh'.hand t).taken = _ := congrArg Hands.taken (hand_setTaken sh t _)
      refine .taken t r ?_ hholds
      rw [hhand]
      exact mem_filter.mpr ⟨hmem, by rw [decide_eq_false hpushed]; rfl⟩

/-- The ranges in the call's hands go to the prepared table. -/
theorem Ok.insertPrepared (h : Ok sh) {id : String} (prep : PreparedTxn)
    (hid : prep.transactionalId = id) (hnone : sh.state.preparedTxns.lookup id = none)
    (hhand : ∀ l ∈ (sh.hand t).taken, l.1 = prep.body.serial ∧ l.2 ∈ prep.body.written) :
    let sh' := { sh.setTaken t [] with
      state := { sh.state with preparedTxns := sh.state.preparedTxns.insert id prep } }
    Later sh sh' ∧ Ok sh' := by
  intro sh'
  have hvalues : Assoc.values sh'.state.preparedTxns =
      prep :: Assoc.values sh.state.preparedTxns :=
    Assoc.values_insert_of_none hnone
  have hprep {p : PreparedTxn} (hp : p ∈ prep :: Assoc.values sh.state.preparedTxns) :
      p.body ∈ sh'.state.live :=
    mem_append_right _ (mem_map_of_mem (hvalues ▸ hp))
  refine h.moved ⟨rfl, rfl, Assoc.forall_mem_insert hid h.keyed, fun _ hn => hn, fun _ _ ha => ha,
    fun _ hl => hl, fun u hne => hand_setTaken_of_ne _ hne,
    fun l hl => hand_appended_of_taken _ t ▸ hl,
    fun txn hmem _ _ hcovered => .inl ⟨txn, hmem, hcovered⟩,
    fun txn hmem _ _ hcovered => .live txn ?_ rfl hcovered,
    fun n r hmem _ _ hholds => .appended t r ((hand_appended_of_taken _ t).trans hmem) hholds,
    fun n r hmem tp o hholds => ?_⟩
  · rcases mem_append.mp hmem with hopen | hold
    · exact mem_append_left _ hopen
    · obtain ⟨p, hp, rfl⟩ := mem_map.mp hold
      exact hprep (mem_cons_of_mem _ hp)
  · obtain ⟨hserial, hr⟩ := hhand _ hmem
    exact .live prep.body (hprep mem_cons_self) hserial.symm (covered_of_holds hr hholds)

end Shared

end Volant.Broker
