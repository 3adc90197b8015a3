-- SUMMARY: A producer's sequence numbers over long runs: where the broker's arithmetic follows them and where not.
import Volant.Client.InStep

/-!
# Sequence numbers over long runs

A producer numbers its batches with 31 bits and goes on at zero after the
largest number. The broker remembers one batch of each partition and adds its
count to its base sequence, in 32 bits and with saturation. The two agree on
the next number unless a batch reaches the end of the range.
-/

namespace Volant.Client

open Broker State List

/-! ## Batches -/

/-- The base sequence of the batch that follows `b`. -/
def nextSequence (b : Batch) : Int := (b.baseSequence + b.messages.length) % 2 ^ 31

/-- A batch as a request can carry it. -/
structure Sendable (b : Batch) : Prop where
  nonneg : 0 ≤ b.baseSequence
  lt : b.baseSequence < 2 ^ 31
  ne_nil : b.messages ≠ []
  count : b.messages.length < 2 ^ 32

/-- The batch ends inside the range, or wraps around all 32 bits. -/
def Unwrapped (b : Batch) : Prop :=
  b.baseSequence + b.messages.length < 2 ^ 31 ∨ 2 ^ 32 ≤ b.baseSequence + b.messages.length

instance (b : Batch) : Decidable (Unwrapped b) := inferInstanceAs (Decidable (_ ∨ _))

/-- The batch as the broker remembers it. -/
def remembered (b : Batch) (offset : Nat) : BatchState :=
  ⟨b.baseSequence, b.messages.length, offset⟩

section

variable {b c : Batch} {o : Nat}

theorem Sendable.messageCount_eq (h : Sendable b) : messageCount b.messages = b.messages.length :=
  Nat.mod_eq_of_lt h.count

theorem Sendable.length_pos (h : Sendable b) : 0 < b.messages.length :=
  length_pos_iff.mpr h.ne_nil

theorem expected_eq_iff (h : Sendable b) :
    saturateSigned 32 (b.baseSequence + castSigned 32 b.messages.length) = nextSequence b ↔
      Unwrapped b := by
  obtain ⟨hnonneg, hlt, -, hcount⟩ := h
  have hcast : castSigned 32 b.messages.length =
      if b.messages.length < 2 ^ 31 then (b.messages.length : Int)
      else b.messages.length - 2 ^ 32 := by
    unfold castSigned
    rw [Int.bmod_def]
    split_ifs <;> omega
  rw [hcast]
  unfold saturateSigned nextSequence Unwrapped
  split_ifs <;> omega

theorem Unwrapped.next_ne (hu : Unwrapped b) (h : Sendable b) :
    nextSequence b ≠ b.baseSequence := by
  have hpos := h.length_pos
  obtain ⟨hnonneg, hlt, -, hcount⟩ := h
  unfold Unwrapped at hu
  unfold nextSequence
  omega

/-! ## Answers -/

/-- What a broker that has taken `b` at offset `o` should answer. -/
structure Knows (answer : Batch → IdempotentCheck) (b : Batch) (o : Nat) : Prop where
  next : ∀ c, Sendable c → c.baseSequence = nextSequence b → ∃ o', answer c = .accept o'
  resend : answer b = .duplicate o b.messages.length
  other : ∀ c, Sendable c → c.baseSequence ≠ nextSequence b →
    ¬ (c.baseSequence = b.baseSequence ∧ c.messages.length = b.messages.length) →
    answer c = .reject .outOfOrderSequence

/-- Each batch is taken when it comes, and from then on known. -/
def TakesAll (send : State → Batch → IdempotentCheck × State) : State → List Batch → Prop
  | _, [] => True
  | s, b :: rest => ∃ o, (send s b).1 = .accept o ∧
      Knows (fun c => (send (send s b).2 c).1) b o ∧ TakesAll send (send s b).2 rest

/-- A way to send batches that asks the sequence check; `At last s` says that `last` is the batch
the broker remembers. -/
structure Gated (send : State → Batch → IdempotentCheck × State)
    (At : Option BatchState → State → Prop) : Prop where
  takes : ∀ {last s b}, At last s → Sendable b →
    checkSequence last b.baseSequence b.messages.length = .accept 0 →
    ∃ o, (send s b).1 = .accept o ∧ At (some (remembered b o)) (send s b).2
  turns : ∀ {last s b}, At last s → Sendable b →
    checkSequence last b.baseSequence b.messages.length ≠ .accept 0 →
    send s b = (checkSequence last b.baseSequence b.messages.length, s)

theorem checkSequence_remembered (c : Batch) (n : Nat) :
    checkSequence (some (remembered b o)) c.baseSequence n =
      if c.baseSequence = b.baseSequence ∧ n = b.messages.length then
        .duplicate o b.messages.length
      else if c.baseSequence = saturateSigned 32 (b.baseSequence + castSigned 32 b.messages.length)
        then .accept 0 else .reject .outOfOrderSequence := rfl

end

section

variable {send : State → Batch → IdempotentCheck × State} {At : Option BatchState → State → Prop}
  {s : State} {b : Batch} {o : Nat}

theorem Gated.knows_iff (hg : Gated send At) (hb : Sendable b)
    (hat : At (some (remembered b o)) s) : Knows (fun c => (send s c).1) b o ↔ Unwrapped b := by
  constructor
  · intro hknows
    by_contra hwrapped
    -- the next batch of the same size is not what the broker expects
    let c : Batch := { b with baseSequence := nextSequence b }
    have hc : Sendable c := by
      refine ⟨Int.emod_nonneg _ (by decide), Int.emod_lt_of_pos _ (by decide), hb.ne_nil, hb.count⟩
    have hcheck : checkSequence (some (remembered b o)) c.baseSequence c.messages.length ≠
        .accept 0 := by
      rw [checkSequence_remembered]
      split_ifs with hsame hnext
      · nofun
      · exact absurd hnext.symm (mt (expected_eq_iff hb).mp hwrapped)
      · nofun
    obtain ⟨o', haccept⟩ := hknows.next c hc rfl
    rw [hg.turns hat hc hcheck, checkSequence_remembered] at haccept
    split_ifs at haccept with hsame hnext
    exact absurd hnext.symm (mt (expected_eq_iff hb).mp hwrapped)
  · intro hu
    have hexpected := (expected_eq_iff hb).mpr hu
    have hcheck (c : Batch) := checkSequence_remembered (b := b) (o := o) c c.messages.length
    rw [hexpected] at hcheck
    refine ⟨fun c hc hnext => ?_, ?_, fun c hc hne hnot => ?_⟩
    · have haccept : checkSequence (some (remembered b o)) c.baseSequence c.messages.length =
          .accept 0 := by
        rw [hcheck, if_neg fun h => hu.next_ne hb (hnext.symm.trans h.1), if_pos hnext]
      obtain ⟨o', ho', -⟩ := hg.takes hat hc haccept
      exact ⟨o', ho'⟩
    · have hsame : checkSequence (some (remembered b o)) b.baseSequence b.messages.length =
          .duplicate o b.messages.length := if_pos ⟨rfl, rfl⟩
      rw [hg.turns hat hb (by rw [hsame]; nofun), hsame]
    · have hreject : checkSequence (some (remembered b o)) c.baseSequence c.messages.length =
          .reject .outOfOrderSequence := by
        rw [hcheck, if_neg hnot, if_neg hne]
      rw [hg.turns hat hc (by rw [hreject]; nofun), hreject]

theorem Gated.takesAll_iff (hg : Gated send At) {batches : List Batch} {last : Option BatchState}
    (hsend : ∀ b ∈ batches, Sendable b)
    (hchain : batches.IsChain fun b c => c.baseSequence = nextSequence b) (hat : At last s)
    (hfirst : ∀ b ∈ batches.head?,
      checkSequence last b.baseSequence b.messages.length = .accept 0) :
    TakesAll send s batches ↔ ∀ b ∈ batches, Unwrapped b := by
  induction batches generalizing s last with
  | nil => simp [TakesAll]
  | cons b rest ih =>
    obtain ⟨hb, hrest⟩ := forall_mem_cons.mp hsend
    obtain ⟨o, haccept, hat'⟩ := hg.takes hat hb (hfirst b rfl)
    have hknows := hg.knows_iff hb hat'
    -- once `b` ends inside the range, the batch behind it is the one the broker expects
    have htail (hu : Unwrapped b) := ih hrest hchain.tail hat' fun c hc => by
      have hnext : c.baseSequence = nextSequence b := by
        cases rest with
        | nil => cases hc
        | cons d rest =>
          obtain rfl : d = c := by simpa using hc
          exact (isChain_cons_cons.mp hchain).1
      rw [checkSequence_remembered, if_neg fun h => hu.next_ne hb (hnext.symm.trans h.1),
        if_pos (hnext.trans ((expected_eq_iff hb).mpr hu).symm)]
    rw [forall_mem_cons]
    constructor
    · rintro ⟨o', haccept', hk, hall⟩
      obtain rfl : o' = o := by
        rw [haccept] at haccept'
        exact (IdempotentCheck.accept.inj haccept').symm
      exact ⟨hknows.mp hk, (htail (hknows.mp hk)).mp hall⟩
    · rintro ⟨hu, hall⟩
      exact ⟨o, haccept, hknows.mpr hu, (htail hu).mpr hall⟩

end

/-! ## The two checks -/

section

variable {pid epoch : Nat} {tp : TopicPartition} {last : Option BatchState} {s : State}

/-- `check_idempotent_produce`, and `record_idempotent_produce` once the log has put the batch at an
offset. -/
def checkAndRecord (pid epoch : Nat) (tp : TopicPartition) (offsetOf : State → Batch → Nat)
    (s : State) (b : Batch) : IdempotentCheck × State :=
  match s.checkIdempotentProduce pid epoch tp b.baseSequence (messageCount b.messages) with
  | .accept _ => (.accept (offsetOf s b), s.recordIdempotentProduce pid epoch tp b.baseSequence
      (messageCount b.messages) (offsetOf s b))
  | check => (check, s)

/-- A plain producer whose last batch on the partition is `last`. -/
def Remembers (pid epoch : Nat) (tp : TopicPartition) (last : Option BatchState) (s : State) :
    Prop :=
  ∃ prod, s.producers.lookup pid = some prod ∧ prod.epoch = epoch ∧ prod.transactional = false ∧
    prod.partitions.lookup tp = last

theorem Remembers.check (h : Remembers pid epoch tp last s) (hpid : pid ≠ 0) {b : Batch}
    (hb : Sendable b) :
    s.checkIdempotentProduce pid epoch tp b.baseSequence (messageCount b.messages) =
      checkSequence last b.baseSequence b.messages.length := by
  obtain ⟨prod, hprod, hepoch, hplain, rfl⟩ := h
  have hgate : ¬ (pid = 0 ∨ b.baseSequence < 0) := not_or.mpr ⟨hpid, not_lt.mpr hb.nonneg⟩
  simp [checkIdempotentProduce, hgate, hprod, hepoch, hplain, hb.messageCount_eq, hb.ne_nil]

theorem Remembers.record (h : Remembers pid epoch tp last s) (hpid : pid ≠ 0) {b : Batch}
    (hb : Sendable b) (o : Nat) : Remembers pid epoch tp (some (remembered b o))
      (s.recordIdempotentProduce pid epoch tp b.baseSequence b.messages.length o) := by
  obtain ⟨prod, hprod, hepoch, hplain, -⟩ := h
  have hgate : ¬ (pid = 0 ∨ b.baseSequence < 0) := not_or.mpr ⟨hpid, not_lt.mpr hb.nonneg⟩
  refine ⟨prod.recorded tp (remembered b o), ?_, hepoch, hplain, AList.lookup_insert _⟩
  simp [recordIdempotentProduce, hgate, hprod, hepoch, persistProducerState, durable,
    Producer.recorded, remembered]

theorem gated_checkAndRecord (hpid : pid ≠ 0) (offsetOf : State → Batch → Nat) :
    Gated (checkAndRecord pid epoch tp offsetOf) (Remembers pid epoch tp) where
  takes {last s b} hat hb hcheck := by
    simp only [checkAndRecord, hat.check hpid hb, hcheck]
    exact ⟨_, rfl, by simpa [hb.messageCount_eq] using hat.record hpid hb (offsetOf s b)⟩
  turns {last s b} hat hb hcheck := by
    simp only [checkAndRecord, hat.check hpid hb]
    split
    next o haccept => exact absurd (accept_of_checkSequence haccept ▸ haccept) hcheck
    next => rfl

/-- A producer in a transaction, where its last batch on the partition is `last`. Nothing has timed
out. -/
structure RemembersOpen (pid epoch : Nat) (tp : TopicPartition) (last : Option BatchState)
    (s : State) : Prop where
  expiredOpen : s.expiredOpenTxns = []
  expiredPrepared : s.expiredPreparedTxns = []
  log : (s.partitions tp).isSome = true
  open_ : ∃ prod txn, s.checkTxnProducer pid epoch = .ok prod ∧
    s.isPrepared prod.transactionalId = false ∧ s.openTxns.lookup pid = some txn ∧
    (txn.pending.lookup tp).or (prod.partitions.lookup tp) = last

theorem RemembersOpen.eq (h : RemembersOpen pid epoch tp last s) : s.expireTimedOutTxns = s :=
  expireTimedOutTxns_of_nil h.expiredOpen h.expiredPrepared

theorem gated_bufferTxnProduce :
    Gated (fun s b => s.bufferTxnProduce pid epoch tp b.baseSequence b.messages)
      (RemembersOpen pid epoch tp) where
  takes {last s b} hat hb hcheck := by
    obtain ⟨prod, txn, hprod, hprepared, hopen, rfl⟩ := hat.open_
    obtain ⟨p, hp⟩ := Option.isSome_iff_exists.mp hat.log
    have hcount := hb.messageCount_eq
    let range : WrittenRange := ⟨tp, p.leo, saturatingAdd p.leo (messageCount b.messages),
      b.baseSequence, messageCount b.messages⟩
    let s' := { (s.appended tp p b.messages (.txn txn.serial)).durable .txnAppend with
      openTxns := s.openTxns.insert pid (withBatch txn tp range) }.persistTxnMarkers .markers
    have hrun : s.bufferTxnProduce pid epoch tp b.baseSequence b.messages = (.accept p.leo, s') := by
      have hopen' : ((s.appended tp p b.messages (.txn txn.serial)).durable
        .txnAppend).openTxns.lookup pid = some txn := hopen
      simp only [bufferTxnProduce, hat.eq, hcount, hb.length_pos.ne', if_false, hprod, hprepared,
        hopen, hcheck, writeThrough, produce_some hp hb.ne_nil, head?_stamp hb.ne_nil, hopen',
        Bool.false_eq_true]
      rw [← hcount]
      rfl
    have hstill : s.openTxnTimedOut pid txn = false := by
      have hnone := filter_eq_nil_iff.mp (map_eq_nil_iff.mp hat.expiredOpen)
      simpa using hnone ⟨pid, txn⟩ (AList.mem_lookup_iff.mp hopen)
    rw [hrun]
    refine ⟨p.leo, rfl, ?_, hat.expiredPrepared, ?_, prod, withBatch txn tp range, hprod, hprepared,
      AList.lookup_insert _, ?_⟩
    · exact map_eq_nil_iff.mpr (filter_eq_nil_iff.mpr (Assoc.forall_mem_insert
        (Bool.eq_false_iff.mp hstill) (filter_eq_nil_iff.mp (map_eq_nil_iff.mp hat.expiredOpen))))
    · simp [s', appended, persistTxnMarkers, durable]
    · rw [withBatch, AList.lookup_insert, Option.some_or, remembered, ← hcount]
  turns {last s b} hat hb hcheck := by
    obtain ⟨prod, txn, hprod, hprepared, hopen, rfl⟩ := hat.open_
    simp only [bufferTxnProduce, hat.eq, hb.messageCount_eq, hb.length_pos.ne', if_false, hprod,
      hprepared, hopen, Bool.false_eq_true]
    split
    next o haccept => exact absurd (accept_of_checkSequence haccept ▸ haccept) hcheck
    next => rfl

/-- Both checks follow a producer's numbers exactly as long as no batch reaches the end of the 31
bits. -/
theorem sequences_followed_iff {batches : List Batch} (hsend : ∀ b ∈ batches, Sendable b)
    (hchain : batches.IsChain fun b c => c.baseSequence = nextSequence b) :
    (∀ pid epoch tp offsetOf s, pid ≠ 0 → Remembers pid epoch tp none s →
      (TakesAll (checkAndRecord pid epoch tp offsetOf) s batches ↔ ∀ b ∈ batches, Unwrapped b)) ∧
    (∀ pid epoch tp s, RemembersOpen pid epoch tp none s →
      (TakesAll (fun s b => s.bufferTxnProduce pid epoch tp b.baseSequence b.messages) s batches ↔
        ∀ b ∈ batches, Unwrapped b)) := by
  refine ⟨fun pid epoch tp offsetOf s hpid hat => ?_, fun pid epoch tp s hat => ?_⟩
  · exact (gated_checkAndRecord hpid offsetOf).takesAll_iff hsend hchain hat fun _ _ => rfl
  · exact gated_bufferTxnProduce.takesAll_iff hsend hchain hat fun _ _ => rfl

end

theorem remembers_ready : Remembers 7 0 Trail.orders none (Trail.ready [1]) :=
  ⟨_, AList.lookup_insert _, rfl, rfl, rfl⟩

/-- Two batches at the start of the range. -/
theorem first_batches_followed :
    TakesAll (checkAndRecord 7 0 Trail.orders fun _ _ => 0) (Trail.ready [1])
      [Trail.first, Trail.second] := by
  have hsend : ∀ b ∈ [Trail.first, Trail.second], Sendable b := by
    rintro b hb
    rcases mem_pair.mp hb with rfl | rfl
    all_goals exact ⟨by decide, by decide, by decide, by decide⟩
  have hchain : [Trail.first, Trail.second].IsChain
      fun b c => c.baseSequence = nextSequence b := by
    simp [Trail.first, Trail.second, nextSequence]
  exact ((sequences_followed_iff hsend hchain).1 7 0 Trail.orders _ _ (by decide)
    remembers_ready).mpr (by decide)

/-- A batch that uses the last number, and the one that follows it. -/
def lastBatch : Batch := { Trail.first with baseSequence := 2147483646 }

def wrappedBatch : Batch := { Trail.second with baseSequence := 0 }

theorem wrapped_batch_rejected :
    let send := checkAndRecord 7 0 Trail.orders fun _ _ => 0
    wrappedBatch.baseSequence = nextSequence lastBatch ∧
      (send (send (Trail.ready [1]) lastBatch).2 wrappedBatch).1 = .reject .outOfOrderSequence ∧
      ¬ TakesAll send (Trail.ready [1]) [lastBatch, wrappedBatch] := by
  intro send
  have hreject : (send (send (Trail.ready [1]) lastBatch).2 wrappedBatch).1 =
      .reject .outOfOrderSequence := by decide +kernel
  refine ⟨by decide, hreject, ?_⟩
  rintro ⟨_, _, _, _, htaken, _⟩
  cases htaken

end Volant.Client
