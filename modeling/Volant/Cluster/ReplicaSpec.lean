-- SUMMARY: One broker's replica operations keep its high watermark below what the in-sync set holds.
import Volant.Cluster.Replica

/-!
# The high watermark of one broker

`Agrees id k` stands for: the log of broker `id` has the first `k` records of
this broker's log. A handle is in order if every log end it has noted down is
agreed on, and, when it leads, the whole in-sync set agrees up to its high
watermark. Each operation keeps a handle in order if what comes from outside
is: the offset that a follower fetches from, the in-sync set of an assignment.
-/

namespace Volant.Cluster

open List

open Broker (Partition)

/-- How far other logs agree with the log of broker `n`, which has `leo` records. -/
structure Agreement (n leo : Nat) (Agrees : Nat → Nat → Prop) : Prop where
  self : ∀ {k}, k ≤ leo → Agrees n k
  zero : ∀ id, Agrees id 0
  le : ∀ {id k}, Agrees id k → k ≤ leo
  mono : ∀ {id j k}, j ≤ k → Agrees id k → Agrees id j

/-- The handle of broker `n` is in order. -/
structure InOrder (n : Nat) (Agrees : Nat → Nat → Prop) (p : Partition) : Prop where
  whole : p.Whole
  hwm_le : p.committedHwm ≤ p.leo
  noted : ∀ id leo, p.followerLeo.lookup id = some leo → Agrees id leo
  leader_mem : p.leader = n → n ∈ p.isr
  inSync : p.leader = n → ∀ id ∈ p.isr, Agrees id p.committedHwm

open Replica

variable {n : Nat} {Agrees Agrees' : Nat → Nat → Prop} {p : Partition} {records : List Record}
  {cfg : ReplicaConfig} {live : List Nat} {now : Nat}

/-! ## Moving the high watermark -/

theorem foldl_min_le (l : List Nat) (f : Nat → Nat) (acc : Nat) :
    l.foldl (fun acc id => min acc (f id)) acc ≤ acc ∧
      ∀ id ∈ l, l.foldl (fun acc id => min acc (f id)) acc ≤ f id := by
  induction l generalizing acc with
  | nil => simp
  | cons a rest ih =>
    obtain ⟨hacc, hrest⟩ := ih (min acc (f a))
    refine ⟨hacc.trans (min_le_left _ _), fun id hid => ?_⟩
    rcases mem_cons.mp hid with rfl | hid
    · exact hacc.trans (min_le_right _ _)
    · exact hrest id hid

/-- A high watermark that moves is at most every in-sync log end. -/
theorem recomputeHwm_cases (p : Partition) : p.recomputeHwm = p ∨
    ∃ hwm, p.isr ≠ [] ∧ (∀ id ∈ p.isr, hwm ≤ p.knownLeo id) ∧
      p.recomputeHwm = { p with committedHwm := hwm } := by
  unfold Partition.recomputeHwm
  by_cases hempty : p.isr.isEmpty = true
  · exact .inl (if_pos hempty)
  simp only
  split_ifs with hmax hlt hlt
  · exact absurd hlt (Nat.not_lt_zero _)
  · exact .inl rfl
  · refine .inr ⟨_, fun hnil => hempty (isEmpty_iff.mpr hnil), fun id hid => ?_, rfl⟩
    exact (foldl_min_le p.isr p.knownLeo u64Max).2 id hid
  · exact .inl rfl

theorem agrees_noted (ha : Agreement n p.leo Agrees)
    (hnoted : ∀ id leo, p.followerLeo.lookup id = some leo → Agrees id leo) (id : Nat) :
    Agrees id ((p.followerLeo.lookup id).getD 0) := by
  cases hlookup : p.followerLeo.lookup id with
  | none => exact ha.zero id
  | some leo => exact hnoted id leo hlookup

/-- The log ends the leader reckons with are agreed on. -/
theorem agrees_knownLeo (ha : Agreement n p.leo Agrees) (hlead : p.leader = n)
    (hnoted : ∀ id leo, p.followerLeo.lookup id = some leo → Agrees id leo) (id : Nat) :
    Agrees id (p.knownLeo id) := by
  unfold Partition.knownLeo
  split_ifs with hid
  · rw [hid, hlead]
    exact ha.self le_rfl
  · exact agrees_noted ha hnoted id

theorem InOrder.recomputeHwm (ha : Agreement n p.leo Agrees) (hlead : p.leader = n)
    (h : InOrder n Agrees p) : InOrder n Agrees p.recomputeHwm := by
  rcases recomputeHwm_cases p with heq | ⟨hwm, -, hle, heq⟩
  · rw [heq]
    exact h
  · have hagrees : ∀ id ∈ p.isr, Agrees id hwm := fun id hid =>
      ha.mono (hle id hid) (agrees_knownLeo ha hlead h.noted id)
    rw [heq]
    exact ⟨h.whole, ha.le (hagrees n (h.leader_mem hlead)), h.noted, h.leader_mem, fun _ => hagrees⟩

/-- With nobody else in sync, the high watermark may go to the end of the log. -/
theorem InOrder.catchUpHwm (ha : Agreement n p.leo Agrees)
    (halone : p.leader = n → ∀ id ∈ p.isr, id = n) (h : InOrder n Agrees p) :
    InOrder n Agrees p.catchUpHwm := by
  unfold Partition.catchUpHwm
  split_ifs
  · refine ⟨h.whole, le_rfl, h.noted, h.leader_mem, fun hlead id hid => ?_⟩
    rw [halone hlead id hid]
    exact ha.self le_rfl
  · exact h

theorem eq_of_length_le_one {l : List Nat} (hlen : l.length ≤ 1) (hn : n ∈ l) :
    ∀ id ∈ l, id = n := by
  intro id hid
  match l, hlen with
  | [], _ => cases hid
  | [a], _ => rw [mem_singleton.mp hid, mem_singleton.mp hn]

theorem InOrder.advanceHwm {env : Partition.ProduceEnv} {acks : Nat} (hcluster : env.cluster ≠ none)
    (ha : Agreement n p.leo Agrees) (hlead : p.leader = n) (h : InOrder n Agrees p) :
    InOrder n Agrees (Partition.advanceHwm env acks p) := by
  have hsome : env.cluster.isNone = false := by
    rw [← Bool.not_eq_true, Option.isNone_iff_eq_none]
    exact hcluster
  unfold Partition.advanceHwm
  simp only [hsome, Bool.false_eq_true, if_false]
  split_ifs with _ hone
  · exact .catchUpHwm ha
      (fun hlead => eq_of_length_le_one (le_of_eq hone) (h.leader_mem hlead)) h
  · exact .recomputeHwm ha hlead h
  · exact .recomputeHwm ha hlead h

/-- The same handle with other agreements that go at least as far. -/
theorem InOrder.weaken (h : InOrder n Agrees p) (himp : ∀ id k, Agrees id k → Agrees' id k) :
    InOrder n Agrees' p :=
  ⟨h.whole, h.hwm_le, fun id leo hleo => himp id leo (h.noted id leo hleo), h.leader_mem,
    fun hlead id hid => himp id _ (h.inSync hlead id hid)⟩

/-- A longer log. -/
theorem InOrder.log (h : InOrder n Agrees p) {log : List Record} (hlog : p.log.length ≤ log.length)
    (epoch : Nat) : InOrder n Agrees { p with log, leaderEpoch := epoch } :=
  ⟨h.whole, h.hwm_le.trans (Nat.add_le_add_right hlog _), h.noted, h.leader_mem, h.inSync⟩

theorem gapFree_take {o : Nat} (h : Storage.GapFree o records) (k : Nat) :
    Storage.GapFree o (records.take k) := by
  rw [← take_append_drop k records, Storage.GapFree.append_iff] at h
  exact h.1

/-- The handle after a produce: unchanged, or a leader's with more records, whose high watermark
moves if the append succeeds. -/
theorem produceInner_snd (env : Partition.ProduceEnv) (messages : List Message) (acks : Nat)
    (p : Partition) : (Partition.produceInner env messages acks p).2 = p ∨
      ((env.cluster.isSome = true → p.leader = env.nodeId) ∧ ∃ records,
        Storage.GapFree p.leo records ∧
        ((Partition.produceInner env messages acks p).2 = { p with log := p.log ++ records } ∨
          (Partition.produceInner env messages acks p).2 =
            Partition.advanceHwm env acks { p with log := p.log ++ records })) := by
  by_cases hne : messages = []
  · exact .inl (by simp [Partition.produceInner, hne])
  · have hgap := Partition.gapFree_stamp env.nowMs p.leo messages
    rcases Partition.produceInner_inv hne rfl with
      ⟨heq, -⟩ | ⟨hlead, ⟨k, e, -, -, heq⟩ | ⟨-, heq, -⟩⟩
    · exact .inl heq
    · exact .inr ⟨hlead, _, gapFree_take hgap k, .inl heq⟩
    · exact .inr ⟨hlead, _, hgap, .inr heq⟩

theorem produceInner_gapFree (hwhole : p.Whole) (h : Storage.GapFree 0 p.log)
    (env : Partition.ProduceEnv) (messages : List Message) (acks : Nat) :
    Storage.GapFree 0 (Partition.produceInner env messages acks p).2.log := by
  rcases produceInner_snd env messages acks p with heq | ⟨-, new, hnew, heq | heq⟩
  · rw [heq]
    exact h
  · rw [heq]
    exact Partition.append_gapFree hwhole h hnew
  · rw [heq, Partition.advanceHwm_log]
    exact Partition.append_gapFree hwhole h hnew

/-- A produce in a cluster: only the leader appends. -/
theorem produceInner_spec {env : Partition.ProduceEnv} (hnode : env.nodeId = n)
    (hcluster : env.cluster ≠ none) (messages : List Message) (acks : Nat) (p : Partition) :
    let p' := (Partition.produceInner env messages acks p).2
    p'.leader = p.leader ∧ p'.isr = p.isr ∧ p.log <+: p'.log ∧ (p'.log = p.log ∨ p.leader = n) ∧
      ∀ A : Nat → Nat → Prop, InOrder n A p → Agreement n p'.log.length A → InOrder n A p' := by
  intro p'
  rcases produceInner_snd env messages acks p with heq | ⟨hlead, records, -, heq⟩
  · have hp' : p' = p := heq
    rw [hp']
    exact ⟨rfl, rfl, prefix_refl _, .inl rfl, fun _ h _ => h⟩
  have hlead : p.leader = n := hnode ▸ hlead (Option.isSome_iff_ne_none.mpr hcluster)
  rcases heq with heq | heq
  · have hp' : p' = { p with log := p.log ++ records } := heq
    rw [hp']
    exact ⟨rfl, rfl, prefix_append _ _, .inr hlead, fun A h _ =>
      InOrder.log h (prefix_append p.log records).length_le p.leaderEpoch⟩
  · have hp' : p' = Partition.advanceHwm env acks { p with log := p.log ++ records } := heq
    rw [hp']
    refine ⟨by simp, by simp, by simp, .inr hlead, fun A h ha => ?_⟩
    have hlog := InOrder.log h (prefix_append p.log records).length_le p.leaderEpoch
    rw [Partition.advanceHwm_log, ← hlog.whole.leo] at ha
    exact .advanceHwm hcluster ha hlead hlog

/-! ## Fetches -/

section Observe

variable {replicaId fromOffset : Nat}

/-- The handle before its high watermark is recomputed. -/
theorem observeFollower_eq (p : Partition) : ∃ isr caughtUpAt,
    observeFollower cfg now replicaId fromOffset p = Partition.recomputeHwm
      { p with isr, followerLeo := p.followerLeo.insert replicaId fromOffset,
               followerCaughtUpAt := caughtUpAt } ∧
    p.leader ∈ isr ∧ (p.isr.Nodup → isr.Nodup) ∧
    ∀ id ∈ isr, id = p.leader ∨ id ∈ p.isr ∨ (id = replicaId ∧ p.committedHwm ≤ fromOffset) := by
  unfold observeFollower
  simp only
  split_ifs
  all_goals
    refine ⟨_, _, rfl, leader_mem_reconcileIsr, nodup_reconcileIsr, fun id hid => ?_⟩
    rcases mem_of_mem_reconcileIsr hid with hlead | hold | ⟨leo, hfetch, -, hhwm⟩
    · exact .inl hlead
    · exact .inr (.inl hold)
    · cases hfetch
      exact .inr (.inr ⟨rfl, hhwm⟩)

theorem observeFollower_log (p : Partition) :
    (observeFollower cfg now replicaId fromOffset p).log = p.log := by
  obtain ⟨isr, caughtUpAt, heq, -⟩ := @observeFollower_eq cfg now replicaId fromOffset p
  rw [heq, Partition.recomputeHwm_log]

theorem observeFollower_leader (p : Partition) :
    (observeFollower cfg now replicaId fromOffset p).leader = p.leader := by
  obtain ⟨isr, caughtUpAt, heq, -⟩ := @observeFollower_eq cfg now replicaId fromOffset p
  rw [heq, Partition.recomputeHwm_leader]

/-- A follower is noted down and may join the in-sync set if its log agrees up to where it fetches
from. -/
theorem InOrder.observeFollower (ha : Agreement n p.leo Agrees) (hlead : p.leader = n)
    (hfrom : Agrees replicaId fromOffset) (h : InOrder n Agrees p) :
    InOrder n Agrees (observeFollower cfg now replicaId fromOffset p) := by
  obtain ⟨isr, caughtUpAt, heq, hleader, -, hmem⟩ :=
    @observeFollower_eq cfg now replicaId fromOffset p
  rw [heq]
  refine .recomputeHwm ha hlead ⟨h.whole, h.hwm_le, fun id leo hleo => ?_, fun _ => hlead ▸ hleader,
    fun _ id hid => ?_⟩
  · by_cases hid : id = replicaId
    · subst hid
      rw [AList.lookup_insert] at hleo
      exact Option.some.inj hleo ▸ hfrom
    · rw [AList.lookup_insert_ne hid] at hleo
      exact h.noted id leo hleo
  · rcases hmem id hid with rfl | hold | ⟨rfl, hhwm⟩
    · exact hlead ▸ ha.self h.hwm_le
    · exact h.inSync hlead id hold
    · exact ha.mono hhwm hfrom

theorem mem_log_of_handleReplicaFetch {nodeId taken : Nat} {code : FetchError} {hwm epoch : Nat}
    {p' : Partition} (h : handleReplicaFetch cfg nodeId now replicaId fromOffset taken p =
      ((code, hwm, epoch, records), p')) : ∀ x ∈ records, x ∈ p'.log := by
  unfold handleReplicaFetch at h
  split_ifs at h
  · cases h
    exact nofun
  · cases h
    exact fun x hx => mem_of_mem_drop (mem_of_mem_take hx)

end Observe

/-- What a follower appends continues its log. -/
theorem prefix_appendRecordsWithOffsets (log records : List Record) :
    log <+: appendRecordsWithOffsets log records := by
  induction records generalizing log with
  | nil => exact prefix_refl log
  | cons r rest ih =>
    unfold appendRecordsWithOffsets
    split_ifs
    · exact (prefix_append log [r]).trans (ih _)
    · exact prefix_refl log

theorem gapFree_appendRecordsWithOffsets {log : List Record} (h : Storage.GapFree 0 log)
    (records : List Record) : Storage.GapFree 0 (appendRecordsWithOffsets log records) := by
  induction records generalizing log with
  | nil => exact h
  | cons r rest ih =>
    unfold appendRecordsWithOffsets
    split_ifs with hoff
    · exact ih (Storage.GapFree.append_iff.mpr ⟨h, by rw [Nat.zero_add]; exact ⟨hoff, trivial⟩⟩)
    · exact h

/-- A log grows along one that has the records sent to it. -/
theorem prefix_appendRecords {log whole : List Record} (hpre : log <+: whole)
    (hrecords : ∀ x ∈ records, whole[x.offset]? = some x) :
    appendRecordsWithOffsets log records <+: whole := by
  induction records generalizing log with
  | nil => exact hpre
  | cons x rest ih =>
    unfold appendRecordsWithOffsets
    split_ifs with hoff
    · refine ih ?_ fun y hy => hrecords y (mem_cons_of_mem x hy)
      have hx := hrecords x mem_cons_self
      obtain ⟨tail, rfl⟩ := hpre
      rw [hoff, getElem?_append_right le_rfl, Nat.sub_self] at hx
      cases tail with
      | nil => cases hx
      | cons y tail =>
        obtain rfl : y = x := Option.some.inj hx
        exact ⟨tail, by simp⟩
    · exact hpre

section

variable (nodeId : Nat) (records : List Record) (epoch written : Nat) (p : Partition)

theorem appendReplicaRecords_log :
    (appendReplicaRecords nodeId records epoch written p).log = p.log ∨
      (appendReplicaRecords nodeId records epoch written p).log =
        appendRecordsWithOffsets p.log (records.take written) := by
  unfold appendReplicaRecords
  simp only
  split_ifs <;> simp

theorem prefix_appendReplicaRecords :
    p.log <+: (appendReplicaRecords nodeId records epoch written p).log := by
  rcases appendReplicaRecords_log nodeId records epoch written p with heq | heq
  · rw [heq]
  · rw [heq]
    exact prefix_appendRecordsWithOffsets _ _

theorem appendReplicaRecords_frame :
    let p' := appendReplicaRecords nodeId records epoch written p
    p'.leader = p.leader ∧ p'.isr = p.isr := by
  unfold appendReplicaRecords
  simp only
  split_ifs <;> simp

end

/-- A leader appends nothing that is sent to it. -/
theorem appendReplicaRecords_of_leader {epoch written : Nat} (h : p.leader = n) :
    appendReplicaRecords n records epoch written p = p := by
  unfold appendReplicaRecords
  simp [Partition.isLeader, h]

theorem InOrder.appendReplicaRecords {epoch written : Nat} (h : InOrder n Agrees p) :
    InOrder n Agrees (appendReplicaRecords n records epoch written p) := by
  by_cases hlead : p.leader = n
  · rw [appendReplicaRecords_of_leader hlead]
    exact h
  · have hlen := (prefix_appendRecordsWithOffsets p.log (records.take written)).length_le
    -- the bound on the high watermark is all that a follower has to keep
    have hfollower : ∀ hwm,
        hwm ≤ { p with log := appendRecordsWithOffsets p.log (records.take written) }.leo →
        InOrder n Agrees { p with
          leaderEpoch := epoch
          log := appendRecordsWithOffsets p.log (records.take written)
          committedHwm := hwm } :=
      fun hwm hle => ⟨h.whole, hle, h.noted, fun hn => absurd hn hlead, fun hn => absurd hn hlead⟩
    have hkept := h.hwm_le.trans (Nat.add_le_add_right hlen (p.logStart + p.holes))
    unfold Replica.appendReplicaRecords
    simp only [Partition.catchUpHwm]
    split_ifs
    · exact h
    · exact h
    · exact hfollower _ le_rfl
    · exact hfollower _ hkept
    · exact hfollower _ hkept

/-! ## Assignments -/

theorem InOrder.settleLeader (ha : Agreement n p.leo Agrees) (hlead : p.leader = n)
    (h : InOrder n Agrees p) : InOrder n Agrees (settleLeader p) := by
  have hkept : InOrder n Agrees { p with
      followerLeo := Assoc.retain (fun id _ => decide (id ∈ p.isr)) p.followerLeo
      followerCaughtUpAt :=
        Assoc.retain (fun id _ => decide (id ∈ p.isr)) p.followerCaughtUpAt } := by
    refine ⟨h.whole, h.hwm_le, fun id leo hleo => ?_, h.leader_mem, h.inSync⟩
    rw [Assoc.lookup_retain, Option.filter_eq_some_iff] at hleo
    exact h.noted id leo hleo.1
  unfold Replica.settleLeader
  simp only
  split_ifs with hone
  · exact .catchUpHwm ha (fun _ => eq_of_length_le_one hone (h.leader_mem hlead)) hkept
  · exact .recomputeHwm ha hlead hkept

@[simp] theorem settleLeader_log (p : Partition) : (settleLeader p).log = p.log := by
  unfold settleLeader
  simp only
  split_ifs <;> simp

@[simp] theorem settleLeader_leader (p : Partition) : (settleLeader p).leader = p.leader := by
  unfold settleLeader
  simp only
  split_ifs <;> simp

@[simp] theorem settleLeader_isr (p : Partition) : (settleLeader p).isr = p.isr := by
  unfold settleLeader
  simp only
  split_ifs <;> simp

/-- Who is in sync under a new assignment: the assigned members, and old ones whose noted log end
reaches the high watermark. -/
theorem mem_of_mem_overlayIsr {id : Nat} {prevIsr : List Nat}
    (h : id ∈ overlayIsr cfg live now prevIsr p) : id = p.leader ∨ id ∈ p.isr ∨
      (id ∈ prevIsr ∧ p.committedHwm ≤ (p.followerLeo.lookup id).getD 0) := by
  have hfold : ∀ (prev isr : List Nat), id ∈ prev.foldl
      (fun isr id => if keepsInSync cfg live p isr id then isr ++ [id] else isr) isr →
      id ∈ isr ∨ (id ∈ prev ∧ p.committedHwm ≤ (p.followerLeo.lookup id).getD 0) := by
    intro prev
    induction prev with
    | nil => exact fun isr hid => .inl hid
    | cons a rest ih =>
      intro isr hid
      rcases ih _ hid with hid | ⟨hid, hleo⟩
      · simp only at hid
        split_ifs at hid with hkeep
        · rcases mem_append.mp hid with hid | hid
          · exact .inl hid
          · obtain rfl := mem_singleton.mp hid
            simp only [keepsInSync, Bool.and_eq_true, decide_eq_true_eq] at hkeep
            exact .inr ⟨mem_cons_self, hkeep.2⟩
        · exact .inl hid
      · exact .inr ⟨mem_cons_of_mem a hid, hleo⟩
  rcases mem_of_mem_shrinkIsrByTime h with hlead | h
  · exact .inl hlead
  · rcases mem_of_mem_shrinkIsr h with hlead | h
    · exact .inl hlead
    · exact .inr (hfold prevIsr p.isr h)

theorem nodup_overlayIsr (prevIsr : List Nat) (h : p.isr.Nodup) :
    (overlayIsr cfg live now prevIsr p).Nodup := by
  have hfold : ∀ (prev isr : List Nat), isr.Nodup → (prev.foldl
      (fun isr id => if keepsInSync cfg live p isr id then isr ++ [id] else isr) isr).Nodup := by
    intro prev
    induction prev with
    | nil => exact fun isr hisr => hisr
    | cons a rest ih =>
      intro isr hisr
      refine ih _ ?_
      simp only
      split_ifs with hkeep
      · simp only [keepsInSync, Bool.and_eq_true, decide_eq_true_eq] at hkeep
        simpa using hisr.concat hkeep.1.1.1.1.1
      · exact hisr
  exact nodup_shrinkIsrByTime (nodup_shrinkIsr (hfold prevIsr p.isr h))

/-- What an assignment makes of a node. -/
theorem applyLocalAssignment_cases (cfg : ReplicaConfig) (live : List Nat) (now : Nat)
    (pa : PartitionAssignment) (node : Node) :
    applyLocalAssignment cfg n live now pa node = .closed node.log ∨
      ∃ p, applyLocalAssignment cfg n live now pa node = .opened p ∧ p.log = node.log ∧
        p.leader = pa.leader ∧ (pa.leader = n → pa.leader ∈ pa.isr → n ∈ p.isr) ∧
        (pa.leader = n → ∀ id ∈ p.isr, id = n ∨ id ∈ pa.isr ∨ id ∈ node.isr) ∧
        ((∀ q, node = .opened q → InOrder n Agrees q) → Agreement n node.log.length Agrees →
          (pa.leader = n → n ∈ pa.isr ∧ ∀ id ∈ pa.isr, Agrees id node.hwm) →
          InOrder n Agrees p) := by
  by_cases hrep : n ∈ pa.replicas
  swap
  · exact .inl (by simp [applyLocalAssignment, ensurePartition, hrep])
  refine .inr ?_
  by_cases hlead : pa.leader = n
  · cases node with
    | opened q =>
      refine ⟨settleLeader { reassigned pa q with
          isr := overlayIsr cfg live now q.isr (reassigned pa q) }, ?_, settleLeader_log _,
        settleLeader_leader _, fun _ _ => ?_, fun _ id hid => ?_, fun hq ha hassigned => ?_⟩
      · simp [applyLocalAssignment, ensurePartition, hrep, Partition.isLeader, hlead, reassigned]
      · rw [settleLeader_isr]
        exact hlead ▸ leader_mem_shrinkIsrByTime
      · rw [settleLeader_isr] at hid
        rcases mem_of_mem_overlayIsr hid with rfl | hassigned | ⟨hprev, -⟩
        · exact .inl hlead
        · exact .inr (.inl hassigned)
        · exact .inr (.inr hprev)
      · obtain ⟨hwhole, hhwm, hnoted, -, -⟩ := hq q rfl
        change Agreement n q.log.length Agrees at ha
        rw [← hwhole.leo] at ha
        refine .settleLeader ha hlead ⟨hwhole, hhwm, hnoted,
          fun _ => hlead ▸ leader_mem_shrinkIsrByTime, fun _ id hid => ?_⟩
        rcases mem_of_mem_overlayIsr hid with hid | hid | ⟨-, hleo⟩
        · rw [hid.trans hlead]
          exact ha.self hhwm
        · exact (hassigned hlead).2 id hid
        · exact ha.mono hleo (agrees_noted ha hnoted id)
    | closed log =>
      refine ⟨settleLeader (openHandle pa log), ?_, settleLeader_log _, settleLeader_leader _,
        fun _ hmem => ?_, fun _ id hid => ?_, fun _ ha hassigned => ?_⟩
      · simp [applyLocalAssignment, ensurePartition, hrep, Partition.isLeader, hlead, openHandle]
      · rw [settleLeader_isr]
        exact hlead ▸ hmem
      · rw [settleLeader_isr] at hid
        exact .inr (.inl hid)
      · exact .settleLeader ha hlead ⟨rfl, le_rfl, fun _ _ h => (by cases h),
          fun _ => (hassigned hlead).1, fun _ id hid => (hassigned hlead).2 id hid⟩
  · -- a follower keeps its observations; they matter again when it leads
    have hno : ∀ {P : Prop}, pa.leader = n → P := fun h => absurd h hlead
    cases node with
    | opened q =>
      refine ⟨reassigned pa q, ?_, rfl, rfl, hno, hno, fun hq _ _ => ?_⟩
      · simp [applyLocalAssignment, ensurePartition, hrep, Partition.isLeader, hlead, reassigned]
      · obtain ⟨hwhole, hhwm, hnoted, -, -⟩ := hq q rfl
        exact ⟨hwhole, hhwm, hnoted, hno, hno⟩
    | closed log =>
      refine ⟨openHandle pa log, ?_, rfl, rfl, hno, hno, fun _ _ _ => ?_⟩
      · simp [applyLocalAssignment, ensurePartition, hrep, Partition.isLeader, hlead, openHandle]
      · exact ⟨rfl, le_rfl, fun _ _ h => (by cases h), hno, hno⟩

theorem nodup_applyLocalAssignment {pa : PartitionAssignment} {node : Node} (hnodup : pa.isr.Nodup)
    (h : applyLocalAssignment cfg n live now pa node = .opened p) : p.isr.Nodup := by
  unfold applyLocalAssignment ensurePartition at h
  by_cases hrep : n ∈ pa.replicas
  swap
  · simp [hrep] at h
  rw [if_neg (not_not.mpr hrep)] at h
  cases node with
  | opened q =>
    simp only at h
    split_ifs at h
    · cases h
      exact hnodup
    · cases h
      rw [settleLeader_isr]
      exact nodup_overlayIsr q.isr hnodup
  | closed log =>
    simp only at h
    split_ifs at h
    · cases h
      exact hnodup
    · cases h
      rw [settleLeader_isr]
      exact hnodup

theorem shrinkLocalIsrForDead_cases (deadId : Nat) (p : Partition) :
    (shrinkLocalIsrForDead n deadId p).log = p.log ∧
      (shrinkLocalIsrForDead n deadId p).leader = p.leader ∧
      (shrinkLocalIsrForDead n deadId p).isr = p.isr.filter (· ≠ deadId) := by
  unfold shrinkLocalIsrForDead
  simp only
  split_ifs <;> simp

theorem InOrder.shrinkLocalIsrForDead {deadId : Nat} (hne : deadId ≠ n)
    (ha : Agreement n p.leo Agrees) (h : InOrder n Agrees p) :
    InOrder n Agrees (shrinkLocalIsrForDead n deadId p) := by
  have hmem : p.leader = n → n ∈ p.isr.filter (· ≠ deadId) := fun hlead =>
    mem_filter.mpr ⟨h.leader_mem hlead, by simpa using hne.symm⟩
  have hshrunk : InOrder n Agrees { p with
      isr := p.isr.filter (· ≠ deadId)
      followerLeo := p.followerLeo.erase deadId
      followerCaughtUpAt := p.followerCaughtUpAt.erase deadId } := by
    refine ⟨h.whole, h.hwm_le, fun id leo hleo => ?_, hmem, fun hlead id hid => ?_⟩
    · by_cases hid : id = deadId
      · rw [hid, AList.lookup_erase] at hleo
        cases hleo
      · rw [AList.lookup_erase_ne hid] at hleo
        exact h.noted id leo hleo
    · exact h.inSync hlead id (mem_filter.mp hid).1
  unfold Replica.shrinkLocalIsrForDead
  simp only
  split_ifs with _ hleader hone
  · exact hshrunk
  · exact hshrunk
  · exact .catchUpHwm ha (fun hlead => eq_of_length_le_one hone (hmem hlead)) hshrunk
  · exact .recomputeHwm ha (by simpa [Partition.isLeader] using hleader) hshrunk

end Volant.Cluster
