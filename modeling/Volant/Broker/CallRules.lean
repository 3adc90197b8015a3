-- SUMMARY: Rules for the transaction calls: each keeps the invariant between its sections and empties its hands.
import Volant.Broker.Hands

/-!
# Rules for the calls

Most programs keep to themselves. The ones that take a transaction out of its
table or append a batch have its ranges in their hands until they have
recorded them.
-/

namespace Volant.Broker

open Sections List

/-! ## Programs -/

namespace Program

open Shared

variable {α β : Type} {sh sh' : Shared} {t : Nat} {x : Program α} {txn : OpenTxn} {epoch : Nat}

/-- Programs that keep to themselves: nothing comes into the call's hands, and what holds of all
later states holds when they end. -/
def Calm (t : Nat) (x : Program α) : Prop :=
  ∀ sh (post : α → Shared → Prop), (∀ a sh', Rely t sh sh' → post a sh') →
    wp contract t x post sh

theorem calm_pure (a : α) : Calm t (pure a : Program α) := fun sh _ h => h a sh (.refl t sh)

theorem Calm.bind {y : α → Program β} (hx : Calm t x) (hy : ∀ a, Calm t (y a)) :
    Calm t (x >>= y) := by
  intro sh post h
  refine wp_bind (hx sh _ fun a sh₁ h₁ => hy a sh₁ post fun b sh₂ h₂ => h b sh₂ (h₁.trans h₂))

variable {run : Shared → α × Shared}

theorem calm_section {label : Label}
    (h : ∀ sh, Ok sh → Later sh (run sh).2 ∧ Ok (run sh).2 ∧ (run sh).2.hands = sh.hands ∧
      (run sh).2.checked = sh.checked) : Calm t (.section_ label run) := by
  intro sh post hpost
  refine wp_section fun sh' hrely hok _ => ?_
  obtain ⟨hlater, hok', hhands, hchecked⟩ := h sh' hok
  have hall (u : Nat) : Rely u sh' (run sh').2 :=
    ⟨hlater, by simp only [hand, hhands], by rw [hchecked]⟩
  exact ⟨fun u _ => hall u, hok', hpost _ _ (hrely.trans (hall t))⟩

theorem calm_of_quiet {label : Label}
    (h : ∀ sh, Quiet sh (run sh).2 ∧ (run sh).2.checked = sh.checked) :
    Calm t (.section_ label run) := by
  refine calm_section fun sh hok => ?_
  obtain ⟨hlater, hok'⟩ := hok.quiet (h sh).1
  exact ⟨hlater, hok', (h sh).1.hands, (h sh).2⟩

theorem calm_reads (read : State → α) : Calm t (reads read) :=
  calm_of_quiet fun _ => ⟨⟨rfl, rfl, rfl, rfl, rfl, rfl, rfl, rfl⟩, rfl⟩

theorem calm_forEach {body : β → Program Unit} (hbody : ∀ b, Calm t (body b)) (bs : List β) :
    Calm t (Prog.forEach body bs) := by
  induction bs with
  | nil => exact calm_pure ()
  | cons b bs ih => exact (hbody b).bind fun _ => ih

theorem calm_persistTxnMarkers (step : DurableStep) : Calm t (persistTxnMarkers step) := by
  refine (calm_reads _).bind fun _ => (calm_reads _).bind fun _ => ?_
  exact calm_of_quiet fun _ => ⟨⟨rfl, rfl, rfl, rfl, rfl, rfl, rfl, rfl⟩, rfl⟩

theorem calm_persistPreparedTxns : Calm t persistPreparedTxns := by
  refine (calm_reads _).bind fun _ => ?_
  exact calm_of_quiet fun _ => ⟨⟨rfl, rfl, rfl, rfl, rfl, rfl, rfl, rfl⟩, rfl⟩

theorem calm_appendTxnControlMarkers (pid epoch : Nat) (markerType : ControlMarkerType)
    (txn : OpenTxn) : Calm t (appendTxnControlMarkers pid epoch markerType txn) := by
  refine calm_forEach (fun tp => calm_section fun sh hok => ?_) _
  obtain ⟨hlater, hok'⟩ := hok.produce tp (g := .control) (by simp)
    (State.marked_txnControlMessage markerType pid epoch sh.state.nowMs) .controlAppend
  exact ⟨hlater, hok', rfl, rfl⟩

theorem calm_clearTxnAbortable (pid : Nat) : Calm t (modifies (·.clearTxnAbortable pid)) :=
  calm_of_quiet fun _ => ⟨⟨rfl, rfl, rfl, rfl, rfl, rfl, rfl, rfl⟩, rfl⟩

theorem calm_markTxnAbortable (pid : Nat) : Calm t (modifies (·.markTxnAbortable pid)) :=
  calm_of_quiet fun _ => ⟨⟨rfl, rfl, rfl, rfl, rfl, rfl, rfl, rfl⟩, rfl⟩

theorem calm_recordIdempotentProduce (pid epoch : Nat) (batch : WrittenRange) :
    Calm t (recordIdempotentProduce pid epoch batch) := by
  unfold recordIdempotentProduce
  split
  · exact calm_pure ()
  refine .bind (calm_of_quiet fun sh => ?_) fun found => ?_
  · unfold insertBatch
    split
    · exact ⟨⟨rfl, rfl, rfl, rfl, rfl, rfl, rfl, rfl⟩, rfl⟩
    · split
      · exact ⟨⟨rfl, rfl, rfl, rfl, rfl, rfl, rfl, rfl⟩, rfl⟩
      · exact ⟨⟨rfl, rfl, rfl, rfl, rfl, rfl, rfl, rfl⟩, rfl⟩
  · cases found with
    | false => exact calm_pure ()
    | true => exact calm_of_quiet fun _ => ⟨⟨rfl, rfl, rfl, rfl, rfl, rfl, rfl, rfl⟩, rfl⟩

theorem calm_commitOffset (o : DeferredOffset) : Calm t (modifies (·.commitOffset o)) := by
  refine calm_of_quiet fun sh => ⟨?_, rfl⟩
  unfold State.commitOffset
  cases o.fits with
  | false => exact ⟨rfl, rfl, rfl, rfl, rfl, rfl, rfl, rfl⟩
  | true => exact ⟨rfl, rfl, rfl, rfl, rfl, rfl, rfl, rfl⟩

/-! ## Aborting and expiry -/

/-- Everything the call has in its hands are taken ranges with this property. -/
def Holding (t : Nat) (P : Nat × WrittenRange → Prop) (sh : Shared) : Prop :=
  (sh.hand t).appended = none ∧ ∀ l ∈ (sh.hand t).taken, P l

/-- From `sh₀` on, with taken ranges of this kind in its hands. -/
def SoFar (t : Nat) (sh₀ : Shared) (P : Nat × WrittenRange → Prop) (sh : Shared) : Prop :=
  Later sh₀ sh ∧ sh.checked t = sh₀.checked t ∧ Holding t P sh

variable {sh₀ : Shared} {P Q : Nat × WrittenRange → Prop}

theorem holding_of_eq {hands : Hands} (hhand : sh.hand t = hands) (hnone : hands.appended = none)
    (htaken : ∀ l ∈ hands.taken, P l) : Holding t P sh := by
  subst hhand
  exact ⟨hnone, htaken⟩

theorem Holding.rely (h : Holding t P sh) (hrely : Rely t sh sh') : Holding t P sh' := by
  unfold Holding
  rwa [hrely.hand]

theorem Holding.mono (h : Holding t P sh) (hPQ : ∀ l, P l → Q l) : Holding t Q sh :=
  ⟨h.1, fun l hl => hPQ l (h.2 l hl)⟩

theorem SoFar.rely (h : SoFar t sh₀ P sh) (hrely : Rely t sh sh') : SoFar t sh₀ P sh' :=
  ⟨h.1.trans hrely.later, hrely.checked.trans h.2.1, h.2.2.rely hrely⟩

theorem SoFar.mono (h : SoFar t sh₀ P sh) (hPQ : ∀ l, P l → Q l) : SoFar t sh₀ Q sh :=
  ⟨h.1, h.2.1, h.2.2.mono hPQ⟩

theorem hand_eq_empty : Holding t (fun _ => False) sh ↔ sh.hand t = .empty := by
  constructor
  · rintro ⟨hnone, htaken⟩
    have htaken : (sh.hand t).taken = [] := eq_nil_iff_forall_not_mem.mpr htaken
    cases hhand : sh.hand t with
    | mk appended taken =>
      rw [hhand] at hnone htaken
      cases hnone
      cases htaken
      rfl
  · intro h
    rw [Holding, h]
    exact ⟨rfl, fun l hl => absurd hl not_mem_nil⟩

variable {pid : Nat}

theorem wp_recordAbortedFromTxn (h : SoFar t sh₀ (fun l => l.2 ∈ txn.written ∨ P l) sh)
    : wp contract t (recordAbortedFromTxn t pid txn) (fun _ => SoFar t sh₀ P) sh := by
  -- the ranges on the partitions still to come are in the call's hands
  let rest (tps : List TopicPartition) (l : Nat × WrittenRange) : Prop :=
    (l.2 ∈ txn.written ∧ l.2.tp ∈ tps) ∨ P l
  have hround (tp : TopicPartition) (tps : List TopicPartition) (sh : Shared)
      (h : SoFar t sh₀ (rest (tp :: tps)) sh) : wp contract t
        (pushAbortedHull t pid txn.written tp) (fun _ => SoFar t sh₀ (rest tps)) sh := by
    refine wp_section fun sh' hrely hok _ => ?_
    obtain ⟨hlater, hok'⟩ := hok.pushAbortedHull (t := t) pid txn.written tp
    obtain ⟨hbefore, hchecked, hnone, htaken⟩ := h.rely hrely
    refine ⟨fun u hne => ⟨hlater, hand_setTaken_of_ne _ hne, rfl⟩, hok', hbefore.trans hlater,
      hchecked, holding_of_eq (hand_setTaken sh' t _) hnone fun l hl => ?_⟩
    obtain ⟨hmem, hkept⟩ := mem_filter.mp hl
    refine (htaken l hmem).imp_left fun ⟨hw, htp⟩ => ⟨hw, ?_⟩
    refine (mem_cons.mp htp).resolve_left fun heq => ?_
    simp [hw, heq] at hkept
  have hstart : SoFar t sh₀ (rest (unseen [] (txn.written.map (·.tp)))) sh :=
    h.mono fun l hl => hl.imp_left fun hw =>
      ⟨hw, mem_unseen.mpr ⟨mem_map_of_mem hw, not_mem_nil⟩⟩
  have hloop := wp_forEach (fun tps => SoFar t sh₀ (rest tps)) hround hstart
  refine wp_bind (wp_mono (fun _ sh' h' => ?_) hloop)
  refine calm_persistTxnMarkers .markers sh' _ fun _ _ hrely => (h'.rely hrely).mono fun l hl => ?_
  exact hl.resolve_left fun h => absurd h.2 not_mem_nil

theorem wp_abortExpired (h : SoFar t sh₀ (fun l => l.2 ∈ txn.written ∨ P l) sh) :
    wp contract t (abortExpired t pid epoch txn) (fun _ => SoFar t sh₀ P) sh := by
  refine wp_bind (wp_mono (fun _ sh' h' => ?_) (wp_recordAbortedFromTxn h))
  exact ((calm_appendTxnControlMarkers pid epoch .abort txn).bind fun _ =>
    calm_markTxnAbortable pid) sh' _ fun _ _ hrely => h'.rely hrely

/-- The call has nothing in its hands. -/
abbrev Idle (t : Nat) (sh : Shared) : Prop := Holding t (fun _ => False) sh

theorem taken_eq_nil (h : Idle t sh) : (sh.hand t).taken = [] :=
  eq_nil_iff_forall_not_mem.mpr h.2

theorem SoFar.refl (h : Holding t P sh) : SoFar t sh P sh := ⟨.refl sh, rfl, h⟩

/-- A call that has come back with empty hands has moved as if it had kept to itself. -/
theorem SoFar.rely_of_idle (h : SoFar t sh₀ (fun _ => False) sh) (hidle : Idle t sh₀) :
    Rely t sh₀ sh := by
  refine ⟨h.1, ?_, h.2.1⟩
  rw [hand_eq_empty.mp h.2.2, hand_eq_empty.mp hidle]

/-- The ranges of transactions that have left their table without a commit. -/
theorem holding_leave (txns : List OpenTxn) (s : State) (hnone : (sh.hand t).appended = none) :
    Holding t (fun l => ∃ txn ∈ txns, l.1 = txn.serial ∧ l.2 ∈ txn.written)
      { sh.leave t false txns with state := s } := by
  refine holding_of_eq (hand_setTaken sh t _) hnone fun l hl => ?_
  obtain ⟨txn, htxn, hmem⟩ := mem_flatMap.mp hl
  obtain ⟨r, hr, rfl⟩ := mem_map.mp hmem
  exact ⟨txn, htxn, rfl, hr⟩

/-- The section that takes transactions out of their table. -/
theorem leave_section (hidle : Idle t sh) (hok : Ok sh) (commits : Bool) (txns : List OpenTxn)
    (openTxns : AList fun _ : Nat => OpenTxn) (preparedTxns : AList fun _ : String => PreparedTxn)
    (hopen : ∀ txn ∈ Assoc.values openTxns, txn ∈ Assoc.values sh.state.openTxns)
    (hlive : ∀ txn ∈ sh.state.live,
      txn ∈ txns ∨ txn ∈ ({ sh.state with openTxns, preparedTxns } : State).live)
    (hkeyed : ({ sh.state with openTxns, preparedTxns } : State).Keyed) :
    let sh' := { sh.leave t commits txns with state := { sh.state with openTxns, preparedTxns } }
    (∀ u, u ≠ t → Rely u sh sh') ∧ Ok sh' ∧ Later sh sh' ∧ (commits = false → Holding t
      (fun l => ∃ txn ∈ txns, l.1 = txn.serial ∧ l.2 ∈ txn.written) sh') := by
  obtain ⟨hlater, hok'⟩ := hok.leave (t := t) commits txns openTxns preparedTxns
    (taken_eq_nil hidle) hopen hlive hkeyed
  refine ⟨fun u hne => ⟨hlater, hand_leave_of_ne commits txns hne, ?_⟩, hok', hlater, ?_⟩
  · cases commits <;> rfl
  · rintro rfl
    exact holding_leave txns _ hidle.1

theorem wp_abortEach {es : List β} (pid epoch : β → Nat) (txn : β → OpenTxn)
    (h : SoFar t sh₀ (fun l => ∃ u ∈ es.map txn, l.1 = u.serial ∧ l.2 ∈ u.written) sh) :
    wp contract t (Prog.forEach (fun e => abortExpired t (pid e) (epoch e) (txn e)) es)
      (fun _ => SoFar t sh₀ fun _ => False) sh := by
  let rest (es : List β) (l : Nat × WrittenRange) : Prop := ∃ e ∈ es, l.2 ∈ (txn e).written
  have hround (e : β) (es : List β) (sh : Shared) (h : SoFar t sh₀ (rest (e :: es)) sh) :
      wp contract t (abortExpired t (pid e) (epoch e) (txn e))
        (fun _ => SoFar t sh₀ (rest es)) sh := by
    refine wp_abortExpired (h.mono fun l hl => ?_)
    obtain ⟨e', he', hw⟩ := hl
    rcases mem_cons.mp he' with rfl | hrest
    · exact .inl hw
    · exact .inr ⟨e', hrest, hw⟩
  have hstart : SoFar t sh₀ (rest es) sh := by
    refine h.mono fun l hl => ?_
    obtain ⟨u, hu, -, hw⟩ := hl
    obtain ⟨e, he, rfl⟩ := mem_map.mp hu
    exact ⟨e, he, hw⟩
  refine wp_mono (fun _ sh' h' => h'.mono fun l hl => ?_)
    (wp_forEach (fun es => SoFar t sh₀ (rest es)) hround hstart)
  obtain ⟨e, he, -⟩ := hl
  cases he

theorem wp_expireTimedOutOpenTxns (h : SoFar t sh₀ (fun _ => False) sh) :
    wp contract t (expireTimedOutOpenTxns t) (fun _ => SoFar t sh₀ fun _ => False) sh := by
  refine wp_bind (calm_reads _ sh _ fun nowMs sh₁ h₁ => ?_)
  refine wp_bind (wp_section fun sh₂ h₂ hok _ => ?_)
  let s : State := { sh₂.state with nowMs }
  have hperm := State.values_perm_expiredOpenTxns s
  obtain ⟨hbefore, hchecked, hidle⟩ := (h.rely h₁).rely h₂
  obtain ⟨hrely, hok', hlater, hhand⟩ := leave_section hidle hok false
    (s.expiredOpenTxns.map (·.2.2)) s.unexpiredOpenTxns sh₂.state.preparedTxns
    (fun txn htxn => hperm.symm.subset (mem_append_right _ htxn))
    (fun txn htxn => mem_append.mp ((State.live_takeOpen hperm).subset htxn)) hok.keyed
  refine ⟨hrely, hok', wp_bind (wp_mono (fun _ sh₃ h₃ => ?_) (wp_abortEach
    (fun e : Nat × Nat × OpenTxn => e.1) (fun e => e.2.1) (fun e => e.2.2)
    ⟨hbefore.trans hlater, hchecked, hhand rfl⟩))⟩
  split
  · exact h₃
  · exact calm_persistTxnMarkers .markers sh₃ _ fun _ _ hrely => h₃.rely hrely

theorem keyed_of_subset {s s' : State} (h : s.Keyed)
    (hsub : ∀ e ∈ s'.preparedTxns.entries, e ∈ s.preparedTxns.entries) : s'.Keyed :=
  fun e he => h e (hsub e he)

theorem wp_expireTimedOutPreparedTxns (h : SoFar t sh₀ (fun _ => False) sh) :
    wp contract t (expireTimedOutPreparedTxns t) (fun _ => SoFar t sh₀ fun _ => False) sh := by
  refine wp_bind (calm_reads _ sh _ fun nowMs sh₁ h₁ => ?_)
  refine wp_bind (wp_section fun sh₂ h₂ hok _ => ?_)
  let s : State := { sh₂.state with nowMs }
  have hperm := State.values_perm_expiredPreparedTxns (s := s) hok.keyed
  obtain ⟨hbefore, hchecked, hidle⟩ := (h.rely h₁).rely h₂
  obtain ⟨hrely, hok', hlater, hhand⟩ := leave_section hidle hok false
    (s.expiredPreparedTxns.map (·.body)) sh₂.state.openTxns s.unexpiredPreparedTxns
    (fun txn htxn => htxn)
    (fun txn htxn => mem_append.mp ((State.live_takePrepared hperm).subset htxn))
    (keyed_of_subset hok.keyed fun e he => Assoc.mem_of_mem_foldl_erase _ _ _ he)
  refine ⟨hrely, hok', wp_bind (wp_mono (fun _ sh₃ h₃ => ?_) (wp_abortEach
    (fun p : PreparedTxn => p.producerId) (fun p => p.producerEpoch) (fun p => p.body)
    ⟨hbefore.trans hlater, hchecked, hhand rfl⟩))⟩
  split
  · exact h₃
  · exact calm_persistPreparedTxns sh₃ _ fun _ _ hrely => h₃.rely hrely

/-- Expiry ends with empty hands. -/
theorem wp_expireTimedOutTxns (hidle : Idle t sh) {post : Unit → Shared → Prop}
    (hpost : ∀ sh', Rely t sh sh' → post () sh') :
    wp contract t (expireTimedOutTxns t) post sh := by
  refine wp_bind (wp_mono (fun _ sh₁ h₁ => ?_) (wp_expireTimedOutOpenTxns (.refl hidle)))
  exact wp_mono (fun _ sh₂ h₂ => hpost sh₂ (h₂.rely_of_idle hidle)) (wp_expireTimedOutPreparedTxns h₁)

/-! ## Beginning and ending -/

theorem Calm.ite {c : Prop} [Decidable c] {y : Program α} (hx : Calm t x) (hy : Calm t y) :
    Calm t (if c then x else y) := by
  split
  · exact hx
  · exact hy

theorem Calm.wp_true (hx : Calm t x) (sh : Shared) :
    wp contract t x (fun _ _ => True) sh := hx sh _ fun _ _ _ => trivial

theorem calm_insertOpen (pid epoch : Nat) (nowMs : Int) :
    Calm t (runs (insertOpen pid epoch nowMs)) := by
  refine calm_section fun sh hok => ?_
  unfold insertOpen
  cases hlookup : sh.state.openTxns.lookup pid with
  | some txn => exact ⟨.refl sh, hok, rfl, rfl⟩
  | none =>
    obtain ⟨hlater, hok'⟩ := hok.insertOpen (sh.state.nextSerial + 1)
      { openedAtMs := nowMs, producerEpoch := epoch, added := [], written := [], pending := ∅,
        deferredOffsets := [], serial := sh.state.nextSerial } hlookup rfl
    exact ⟨hlater, hok', rfl, rfl⟩

theorem wp_beginTxn (hidle : Idle t sh) (pid epoch : Nat) :
    wp contract t (beginTxn t pid epoch) (fun _ _ => True) sh := by
  refine wp_bind (wp_expireTimedOutTxns hidle fun sh₁ _ => Calm.wp_true ?_ sh₁)
  refine (calm_reads _).bind fun result => ?_
  cases result with
  | error code => exact calm_pure code
  | ok prod =>
    refine (calm_reads _).bind fun abortable => .ite (calm_pure _) ?_
    refine (calm_reads _).bind fun prepared => .ite (calm_pure _) ?_
    exact (calm_reads _).bind (calm_insertOpen pid epoch)

theorem wp_finalizeTxn {committed : Bool} {offsets : List DeferredOffset}
    (h : committed = false → Holding t (fun l => l.2 ∈ txn.written) sh) :
    wp contract t (finalizeTxn t pid epoch committed txn offsets) (fun _ _ => True) sh := by
  cases committed with
  | false =>
    refine wp_bind (wp_mono (fun _ sh' _ => Calm.wp_true ?_ sh')
      (wp_recordAbortedFromTxn (P := fun _ => False)
        ((SoFar.refl (h rfl)).mono fun l hl => .inl hl)))
    exact (calm_appendTxnControlMarkers pid epoch .abort txn).bind fun _ => calm_pure _
  | true =>
    refine Calm.wp_true ?_ sh
    refine (calm_forEach (calm_recordIdempotentProduce pid epoch) _).bind fun _ => ?_
    refine (calm_appendTxnControlMarkers pid epoch .commit txn).bind fun _ => ?_
    refine (calm_forEach calm_commitOffset _).bind fun _ => ?_
    exact (calm_persistTxnMarkers .commitMarkers).bind fun _ => calm_pure _

/-- The section that ends an open transaction. -/
theorem wp_takeOpen (hidle : Idle t sh) {commits : Bool}
    {post : Except ErrorCode OpenTxn → Shared → Prop} (herror : ∀ code sh', post (.error code) sh')
    (hok : ∀ txn sh', (commits = false →
      Holding t (fun l => l.1 = txn.serial ∧ l.2 ∈ txn.written) sh') → post (.ok txn) sh') :
    wp contract t (.section_ .other (takeOpen t pid commits)) post sh := by
  refine wp_section fun sh' hrely hinv _ => ?_
  have hidle' := hidle.rely hrely
  unfold takeOpen
  cases hlookup : sh'.state.openTxns.lookup pid with
  | none =>
    simp only
    split
    · have hq : Quiet sh' { sh' with state := sh'.state.clearTxnAbortable pid } :=
        ⟨rfl, rfl, rfl, rfl, rfl, rfl, rfl, rfl⟩
      obtain ⟨hlater, hok'⟩ := hinv.quiet hq
      exact ⟨fun u _ => ⟨hlater, rfl, rfl⟩, hok', herror _ _⟩
    · exact ⟨fun u _ => .refl u sh', hinv, herror _ _⟩
  | some txn =>
    have hperm := Assoc.values_perm_of_lookup hlookup
    obtain ⟨hrely', hok', -, hhand⟩ := leave_section hidle' hinv commits [txn]
      (sh'.state.openTxns.erase pid) sh'.state.preparedTxns
      (fun u hu => hperm.symm.subset (mem_cons_of_mem _ hu))
      (fun u hu => mem_append.mp ((State.live_takeOpen hperm).subset hu)) hinv.keyed
    refine ⟨hrely', hok', hok txn _ fun hcommits => (hhand hcommits).mono ?_⟩
    rintro l ⟨u, hu, hl⟩
    rwa [mem_singleton.mp hu] at hl

/-- The section that ends a prepared transaction. -/
theorem wp_takePrepared (hidle : Idle t sh) {committed : Bool} {id : String}
    {post : Option (Except ErrorCode PreparedTxn) → Shared → Prop}
    (hnone : ∀ sh', Rely t sh sh' → post none sh')
    (herror : ∀ code sh', post (some (.error code)) sh') (hok : ∀ prep sh', (committed = false →
      Holding t (fun l => l.2 ∈ prep.body.written) sh') → post (some (.ok prep)) sh') :
    wp contract t (.section_ .other (takePrepared t pid epoch committed id)) post sh := by
  refine wp_section fun sh' hrely hinv _ => ?_
  have hidle' := hidle.rely hrely
  unfold takePrepared
  cases hlookup : sh'.state.preparedTxns.lookup id with
  | none => exact ⟨fun u _ => .refl u sh', hinv, hnone sh' hrely⟩
  | some prep =>
    simp only
    split
    · exact ⟨fun u _ => .refl u sh', hinv, herror _ _⟩
    split
    · exact ⟨fun u _ => .refl u sh', hinv, herror _ _⟩
    split
    · exact ⟨fun u _ => .refl u sh', hinv, herror _ _⟩
    have hperm := Assoc.values_perm_of_lookup hlookup
    obtain ⟨hrely', hok', -, hhand⟩ := leave_section hidle' hinv committed [prep.body]
      sh'.state.openTxns (sh'.state.preparedTxns.erase id) (fun u hu => hu)
      (fun u hu => mem_append.mp ((@State.live_takePrepared _ _ [prep] hperm).subset hu))
      (keyed_of_subset hinv.keyed fun e he => Assoc.mem_of_mem_erase he)
    refine ⟨hrely', hok', hok prep _ fun hcommitted => (hhand hcommitted).mono ?_⟩
    rintro l ⟨u, hu, hl⟩
    rw [mem_singleton.mp hu] at hl
    exact hl.2

/-- The section that prepares a transaction whose ranges are in the call's hands. -/
theorem wp_insertPrepared (pid epoch : Nat) (committed : Bool) (id : String) (nowMs : Int)
    (h : Holding t (fun l => l.1 = txn.serial ∧ l.2 ∈ txn.written) sh) :
    wp contract t (.write (.prepare id) (insertPrepared t pid epoch committed id nowMs txn))
      (fun _ _ => True) sh := by
  refine wp_section fun sh' hrely hinv hallowed => ?_
  let prep : PreparedTxn :=
    { transactionalId := id, producerId := pid, producerEpoch := epoch, commit := committed,
      preparedAtMs := nowMs, body := txn }
  obtain ⟨hlater, hok⟩ := hinv.insertPrepared (t := t) prep rfl
    (Option.isNone_iff_eq_none.mp hallowed) (h.rely hrely).2
  exact ⟨fun u hne => ⟨hlater, hand_setTaken_of_ne _ hne, rfl⟩, hok, trivial⟩

theorem wp_completeOpen (hidle : Idle t sh) (pid epoch : Nat) (committed : Bool)
    (offsets : List DeferredOffset) (prod : Producer) :
    wp contract t (completeOpen t pid epoch committed offsets prod) (fun _ _ => True) sh := by
  unfold completeOpen
  generalize (prod.enable2pc && !prod.transactionalId.isEmpty) = twoPhase
  refine wp_bind (wp_takeOpen hidle (fun code sh' => trivial) fun txn sh₁ h₁ => ?_)
  refine wp_bind (calm_clearTxnAbortable pid sh₁ _ fun _ sh₂ h₂ => ?_)
  cases twoPhase with
  | true =>
    have hhand := (h₁ (by simp)).rely h₂
    refine wp_bind (calm_reads _ sh₂ _ fun nowMs sh₃ h₃ => ?_)
    refine wp_bind (wp_mono (fun _ sh₄ _ => Calm.wp_true ?_ sh₄)
      (wp_insertPrepared pid epoch committed prod.transactionalId nowMs (hhand.rely h₃)))
    exact (calm_persistTxnMarkers _).bind fun _ => calm_persistPreparedTxns.bind fun _ => calm_pure _
  | false =>
    refine wp_bind (wp_mono (fun _ sh₃ _ => Calm.wp_true (calm_pure _) sh₃)
      (wp_finalizeTxn fun hcommitted => ?_))
    exact ((h₁ (by simp [hcommitted])).rely h₂).mono fun l hl => hl.2

theorem wp_endTxn (hidle : Idle t sh) (pid epoch : Nat) (committed : Bool)
    (offsets : List DeferredOffset) :
    wp contract t (endTxn t pid epoch committed offsets) (fun _ _ => True) sh := by
  refine wp_bind (wp_expireTimedOutTxns hidle fun sh₁ h₁ => ?_)
  refine wp_bind (calm_reads _ sh₁ _ fun found sh₂ h₂ => ?_)
  have hidle₂ := (hidle.rely h₁).rely h₂
  cases found with
  | none => trivial
  | some prod =>
    simp only
    split
    · trivial
    split
    · exact wp_completeOpen hidle₂ pid epoch committed offsets prod
    refine wp_bind (wp_takePrepared hidle₂ (fun sh₃ h₃ => ?_) (fun code sh₃ => trivial)
      fun prep sh₃ h₃ => ?_)
    · exact wp_completeOpen (hidle₂.rely h₃) pid epoch committed offsets prod
    · refine wp_bind (calm_clearTxnAbortable pid sh₃ _ fun _ sh₄ h₄ => ?_)
      refine wp_bind (wp_mono (fun _ sh₅ _ => Calm.wp_true ?_ sh₅)
        (wp_finalizeTxn fun hcommitted => (h₃ hcommitted).rely h₄))
      exact calm_persistPreparedTxns.bind fun _ => calm_pure _

/-! ## Writing -/

/-- The records are those of the transaction that the sequence check found, and their offsets
were registered in it. -/
def Written (t : Nat) (tp : TopicPartition) (messages : List Message) (baseOffset : Nat)
    (sh : Shared) : Prop :=
  ∃ n, sh.checked t = some n ∧ ∀ i < messages.length,
    sh.state.originAt tp (baseOffset + i) = some (.txn n) ∧
      ∃ r, (n, r) ∈ sh.registered ∧ r.Holds tp (baseOffset + i)

theorem Written.rely {tp : TopicPartition} {messages : List Message} {baseOffset : Nat}
    (h : Written t tp messages baseOffset sh) (hrely : Rely t sh sh') :
    Written t tp messages baseOffset sh' := by
  obtain ⟨n, hchecked, hrecords⟩ := h
  refine ⟨n, hrely.checked.trans hchecked, fun i hi => ?_⟩
  obtain ⟨horigin, r, hr, hholds⟩ := hrecords i hi
  exact ⟨hrely.later.originAt horigin, r, hrely.later.registered _ hr, hholds⟩

/-- The answer of a produce keeps its promise. -/
def Keeps (t : Nat) (tp : TopicPartition) (messages : List Message) (check : State.IdempotentCheck)
    (sh : Shared) : Prop :=
  ∀ baseOffset, check = .accept baseOffset → Written t tp messages baseOffset sh

variable {serial pid : Nat} {tp : TopicPartition} {baseSequence : Int} {messages : List Message}

/-- The registration of a range that is in the call's hands. -/
theorem wp_register {range : WrittenRange} {post : Bool → Shared → Prop}
    (hhand : (sh.hand t).appended = some (serial, range))
    (hgone : ∀ sh', Rely t sh sh' → post false sh')
    (hdone : ∀ sh', Later sh sh' → sh'.checked t = sh.checked t → (serial, range) ∈ sh'.registered →
      post true sh') :
    wp contract t (.section_ (.register pid serial) (register t pid range)) post sh := by
  refine wp_section fun sh' hrely hok hallowed => ?_
  have hhand' : (sh'.hand t).appended = some (serial, range) := by rw [hrely.hand, hhand]
  unfold register
  cases hlookup : sh'.state.openTxns.lookup pid with
  | none => exact ⟨fun u _ => .refl u sh', hok, hgone sh' hrely⟩
  | some txn =>
    obtain rfl : txn.serial = serial := hallowed txn hlookup
    let batch : BatchState := ⟨range.baseSequence, range.count, range.firstOffset⟩
    obtain ⟨hlater, hok'⟩ := hok.register
      { txn with written := txn.written ++ [range], pending := txn.pending.insert range.tp batch }
      hlookup hhand' rfl rfl
    exact ⟨fun u hne => ⟨hlater, hand_setAppended_of_ne none hne, rfl⟩, hok',
      hdone _ (hrely.later.trans hlater) hrely.checked mem_cons_self⟩

theorem wp_writeThrough (hidle : Idle t sh) (hms : messages ≠ [])
    (hchecked : sh.checked t = some serial) :
    wp contract t (writeThrough t pid serial tp baseSequence messages) (Keeps t tp messages) sh := by
  refine wp_bind (wp_section fun sh₁ h₁ hok hallowed => ?_)
  rcases appendBatch_cases sh₁ t serial tp baseSequence hms with heq | ⟨p, hp, heq⟩
  · rw [heq]
    refine ⟨fun u _ => .refl u sh₁, hok, ?_⟩
    rintro baseOffset ⟨⟩
  rw [heq]
  let sh₂ := sh₁.withBatch t serial tp baseSequence messages p
  let range := rangeOf tp baseSequence messages p.leo
  have hnone := (hidle.rely h₁).1
  have hlater := hok.later_withBatch t serial baseSequence hallowed hp
  refine ⟨fun u hne => ⟨hlater, hand_setAppended_of_ne _ hne, rfl⟩,
    hok.withBatch hallowed hp hnone, ?_⟩
  have hhand : sh₂.hand t = { sh₁.hand t with appended := some (serial, range) } :=
    hand_setAppended sh₁ t _
  refine wp_bind (wp_register (by rw [hhand]) (fun sh₃ h₃ => ?_)
    fun sh₃ hlater₃ hchecked₃ hregistered => ?_)
  · -- the transaction is gone, and the range is recorded as aborted
    refine wp_bind (wp_section fun sh₄ h₄ hok₄ _ => ?_)
    have hhand₄ : (sh₄.hand t).appended = some (serial, range) := by rw [h₄.hand, h₃.hand, hhand]
    obtain ⟨hlater₄, hok₅⟩ := hok₄.pushAbortedMarker pid hhand₄
    refine ⟨fun u hne => ⟨hlater₄, hand_setAppended_of_ne none hne, rfl⟩, hok₅, ?_⟩
    refine wp_bind (calm_persistTxnMarkers .markers _ _ fun _ sh₆ h₆ => ?_)
    refine wp_bind (calm_reads _ sh₆ _ fun code sh₇ h₇ => ?_)
    rintro baseOffset ⟨⟩
  · have hwritten : Written t tp messages p.leo sh₃ := by
      refine ⟨serial, hchecked₃.trans (h₁.checked.trans hchecked), fun i hi => ?_⟩
      exact ⟨hlater₃.originAt (originAt_withBatch hok hp hi), range, hregistered,
        (holds_rangeOf hallowed hp).mpr ⟨rfl, by omega, by omega⟩⟩
    refine wp_bind (calm_persistTxnMarkers .markers sh₃ _ fun _ sh₄ h₄ => ?_)
    rintro baseOffset ⟨⟩
    exact hwritten.rely h₄

/-- The sequence check never ends a call with an accept. -/
theorem checkTxnSequence_ne_accept (s : State) {count : Nat} (baseOffset : Nat) :
    checkTxnSequence pid tp baseSequence count s ≠ .error (.accept baseOffset) := by
  unfold checkTxnSequence
  split
  · simp
  · dsimp only
    split
    · simp
    next answer hnot => exact fun heq => hnot baseOffset (Except.error.inj heq)

theorem wp_bufferTxnProduce (hidle : Idle t sh) (pid epoch : Nat) (tp : TopicPartition)
    (baseSequence : Int) (messages : List Message) :
    wp contract t (bufferTxnProduce t pid epoch tp baseSequence messages) (Keeps t tp messages)
      sh := by
  refine wp_bind (wp_expireTimedOutTxns hidle fun sh₁ h₁ => ?_)
  split
  · rintro baseOffset ⟨⟩
  next hcount =>
  have hms : messages ≠ [] := by
    rintro rfl
    exact hcount rfl
  refine wp_bind (calm_reads _ sh₁ _ fun result sh₂ h₂ => ?_)
  cases result with
  | error code => rintro baseOffset ⟨⟩
  | ok prod =>
    refine wp_bind (calm_reads _ sh₂ _ fun prepared sh₃ h₃ => ?_)
    have hidle₃ := ((hidle.rely h₁).rely h₂).rely h₃
    split
    · rintro baseOffset ⟨⟩
    refine wp_bind (wp_section fun sh₄ h₄ hok _ => ?_)
    unfold passSequence
    cases hcheck : checkTxnSequence pid tp baseSequence (State.messageCount messages) sh₄.state with
    | error check =>
      refine ⟨fun u _ => .refl u sh₄, hok, ?_⟩
      rintro baseOffset rfl
      exact absurd hcheck (checkTxnSequence_ne_accept _ _)
    | ok serial =>
      have hq : Quiet sh₄ { sh₄ with checked := Function.update sh₄.checked t (some serial) } :=
        ⟨rfl, rfl, rfl, rfl, rfl, rfl, rfl, rfl⟩
      obtain ⟨hlater, hok'⟩ := hok.quiet hq
      refine ⟨fun u hne => ⟨hlater, rfl, Function.update_of_ne hne _ _⟩, hok', ?_⟩
      have hidle₄ : Idle t sh₄ := hidle₃.rely h₄
      refine wp_writeThrough ?_ hms (Function.update_self t _ _)
      exact hidle₄

end Program

end Volant.Broker
