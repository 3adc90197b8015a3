-- SUMMARY: Committed records stay in place across leader changes, as long as leaders come from the in-sync set.
import Volant.Cluster.Replication

/-!
# Committed prefixes

What was once below a leader's high watermark is on the log of every later
leader, at the same offset. This needs more of a run than that its steps are
admissible: a broker takes over only out of the last leader's in-sync set, and
whoever joins an in-sync set has been seen at every offset that was ever
exposed. The code checks none of it: a new leader does not know how far its
predecessor's high watermark was, and a follower's log is never compared with
the leader's.
-/

namespace Volant.Cluster.System

open List

open Broker (Partition)

variable {s s' : System} {e : Event} {n : Nat} {p : Partition}

/-- Who comes into an in-sync set was in the last one, or has reported an offset that reaches
everything exposed. -/
def CleanJoins (s : System) : Event → Prop
  | .apply n i _ _ => ∀ pa ∈ s.published[i]?, n ∈ pa.replicas → pa.leader = n →
      (s.Leads n ∨ n ∈ s.inSync) ∧ ∀ id ∈ pa.isr ++ (s.nodes n).isr,
        id ∈ s.inSync ∨ s.exposed.length ≤ (s.nodes n).notedLeo id
  | .handle i _ _ => ∀ r ∈ s.requests[i]?, s.Leads r.leader →
      r.replica ∈ s.inSync ∨ s.exposed.length ≤ r.fromOffset
  | _ => True

/-- The condition on the steps. -/
def Clean (s : System) (e : Event) : Prop := Admissible s e ∧ CleanJoins s e

instance (s : System) (e : Event) : Decidable (CleanJoins s e) := by
  apply @Event.casesOn _ e <;> unfold CleanJoins <;> infer_instance

instance (s : System) (e : Event) : Decidable (Clean s e) :=
  instDecidableAnd

/-- Broker `id` has every record that was below a leader's high watermark. -/
def Covers (s : System) (id : Nat) : Prop := s.exposed <+: s.log id

structure Committed (s : System) : Prop where
  aligned : Aligned s
  inSync : ∀ id ∈ s.inSync, s.Covers id
  noted : ∀ n p, s.nodes n = .opened p → p.leader = n → p.log.take p.committedHwm <+: s.exposed

theorem committed_start (config : ReplicaConfig) {replicas : List Nat} (hne : replicas ≠ [])
    (hnodup : replicas.Nodup) : Committed (start config replicas) :=
  ⟨aligned_start config hne hnodup, fun _ _ => nil_prefix, nofun⟩

theorem Committed.of_idle (h : Committed s) (hidle : Idle s s') : Committed s' := by
  refine ⟨h.aligned.of_idle hidle, fun id hid => ?_, fun n p hp hlead => ?_⟩
  · rw [hidle.history] at hid
    rw [Covers, hidle.history, hidle.log]
    exact h.inSync id hid
  · rw [hidle.nodes] at hp
    rw [hidle.history]
    exact h.noted n p hp hlead

/-- A leader is in its in-sync set, which is the last one. -/
theorem Aligned.isr_of_leads (h : Aligned s) (hn : s.Leads n) :
    n ∈ s.inSync ∧ (s.nodes n).isr = s.inSync := by
  obtain ⟨p, hp, hlead⟩ := hn
  obtain ⟨-, hisr, -⟩ := h.leading n p hp hlead
  rw [hp, Node.isr, ← hisr]
  exact ⟨(h.inv.orderly n p hp).leader_mem hlead, rfl⟩

/-! ## A broker that leads after a step -/

theorem covers_of_agrees {id k : Nat} (hn : s.Covers n) (ha : s.Agrees n id k)
    (hk : s.exposed.length ≤ k) : s.Covers id := by
  obtain ⟨-, -, heq⟩ := ha
  have hpre : s.exposed <+: (s.log n).take k := prefix_take_iff.mpr ⟨hn, hk⟩
  rw [heq] at hpre
  exact hpre.trans <| take_prefix _ _

/-- Its in-sync set has every exposed record. -/
theorem Committed.leading_covers (h : Committed s) (hok : Clean s e)
    (hacts : Acts s e n (.opened p)) (hlead : p.leader = n) : ∀ id ∈ p.isr, s.Covers id := by
  obtain ⟨hadm, hclean⟩ := hok
  have hn : s.Covers n := by
    refine h.inSync n ?_
    rcases hacts.leads p rfl hlead with hn | ⟨i, live, now, rfl, pa, hpa, hrep, hpan⟩
    · exact (h.aligned.isr_of_leads hn).1
    · exact ((hclean pa hpa hrep hpan).1).elim (fun hn => (h.aligned.isr_of_leads hn).1) id
  -- what an assignment brings in
  have happly : ∀ {i live now}, e = .apply n i live now → ∀ pa ∈ s.published[i]?,
      n ∈ pa.replicas → pa.leader = n → ∀ id ∈ pa.isr ++ (s.nodes n).isr, s.Covers id := by
    rintro i live now rfl pa hpa hrep hpan id hid
    rcases (hclean pa hpa hrep hpan).2 id hid with hsync | hlen
    · exact h.inSync id hsync
    · exact covers_of_agrees hn (h.aligned.inv.agrees_notedLeo n id) hlen
  intro id hid
  rcases hacts.members p rfl hlead id hid with rfl | hold | hjoin
  · exact hn
  · rcases hacts.leads p rfl hlead with hn | ⟨i, live, now, rfl, pa, hpa, hrep, hpan⟩
    · exact h.inSync id ((h.aligned.isr_of_leads hn).2 ▸ hold)
    · exact happly rfl pa hpa hrep hpan id (mem_append_right _ hold)
  · cases e with
    | handle i now taken =>
      obtain ⟨r, hr, rfl, rfl⟩ := hjoin
      have hleads : s.Leads r.leader := (hacts.leads p rfl hlead).elim id (by simp)
      rcases hclean r hr hleads with hsync | hlen
      · exact h.inSync _ hsync
      · exact covers_of_agrees hn (h.aligned.held hadm r hr hleads) hlen
    | apply m i live now =>
      obtain ⟨rfl, pa, hpa, hrep, hpan, hin⟩ := hjoin
      exact happly rfl pa hpa hrep hpan id (mem_append_left _ hin)
    | _ => cases hjoin

/-- A step of a broker that leads afterwards. -/
theorem Committed.lead (h : Committed s) (hok : Clean s e) (hacts : Acts s e n (.opened p))
    (hbec : Becomes s s' n (.opened p)) (hlead : p.leader = n) (haligned : Aligned s') :
    Committed s' ∧ s.exposed <+: s'.exposed := by
  have hnodes : s'.nodes n = .opened p := by rw [hbec.nodes, Function.update_self]
  have hlog := log_opened hnodes
  have hgrow : Grows s s' := .of_nodes hbec.nodes hacts.grows
  have horder := haligned.inv.orderly n p hnodes
  obtain ⟨hlast, hisr, -⟩ := haligned.leading n p hnodes hlead
  have hold : ∀ id ∈ p.isr, s.exposed <+: s'.log id := fun id hid =>
    (h.leading_covers hok hacts hlead id hid).trans (hgrow id)
  have hown : s.exposed <+: p.log := hlog ▸ hold n (horder.leader_mem hlead)
  have hexp : s'.exposed =
      if s.exposed.length < p.committedHwm then p.log.take p.committedHwm else s.exposed := by
    rw [hbec.history, setNode_leading s hlead]
  refine ⟨⟨haligned, fun id hid => ?_, fun m q hq hqlead => ?_⟩, ?_⟩
  · -- whatever is exposed now is on the whole in-sync set
    rw [← hisr] at hid
    rw [Covers, hexp]
    split_ifs
    · obtain ⟨-, -, heq⟩ := horder.inSync hlead id hid
      rw [hlog] at heq
      rw [heq]
      exact take_prefix _ _
    · exact hold id hid
  · obtain rfl : m = n := ((haligned.leading m q hq hqlead).1).trans hlast.symm
    rw [hnodes] at hq
    cases hq
    rw [hexp]
    split_ifs with hlt
    · exact prefix_refl _
    · rw [take_of_begins hown (Nat.le_of_not_lt hlt)]
      exact take_prefix _ _
  · rw [hexp]
    split_ifs with hlt
    · exact prefix_take_iff.mpr ⟨hown, hlt.le⟩
    · exact prefix_refl _

/-- A step of a broker that does not lead afterwards. -/
theorem Committed.follow {node : Node} (h : Committed s) (hacts : Acts s e n node)
    (hbec : Becomes s s' n node) (hnot : ∀ p, node = .opened p → p.leader ≠ n)
    (haligned : Aligned s') : Committed s' ∧ s'.exposed = s.exposed := by
  have hgrow : Grows s s' := .of_nodes hbec.nodes hacts.grows
  have hist := hbec.history.trans (setNode_not_leading s hnot)
  refine ⟨⟨haligned, fun id hid => ?_, fun m q hq hqlead => ?_⟩, by rw [hist]⟩
  · rw [hist] at hid
    rw [Covers, hist]
    exact (h.inSync id hid).trans (hgrow id)
  · rw [hist]
    by_cases hm : m = n
    · subst hm
      rw [hbec.nodes, Function.update_self] at hq
      exact absurd hqlead (hnot q hq)
    · rw [hbec.nodes, Function.update_of_ne hm] at hq
      exact h.noted m q hq hqlead

theorem Committed.step (h : Committed s) (hok : Clean s e) :
    Committed (s.step e) ∧ s.exposed <+: (s.step e).exposed := by
  have haligned : Aligned (s.step e) := h.aligned.step hok.1
  rcases step_cases s e with hidle | ⟨n, node, hacts, hbec⟩
  · exact ⟨h.of_idle hidle, by rw [hidle.history]⟩
  · by_cases hlead : ∃ p, node = .opened p ∧ p.leader = n
    · obtain ⟨p, rfl, hlead⟩ := hlead
      exact h.lead hok hacts hbec hlead haligned
    · obtain ⟨hcommitted, hexp⟩ :=
        h.follow hacts hbec (fun p hp hn => hlead ⟨p, hp, hn⟩) haligned
      exact ⟨hcommitted, by rw [hexp]⟩

theorem Committed.run {events : List Event} (h : Committed s) (hok : Permits Clean s events) :
    Committed (s.follow events) ∧ s.exposed <+: (s.follow events).exposed := by
  induction events generalizing s with
  | nil => exact ⟨h, prefix_refl _⟩
  | cons e rest ih =>
    obtain ⟨hcommitted, hexp⟩ := h.step hok.1
    exact (ih hcommitted hok.2).imp_right hexp.trans

/-- The leader's own log shows the exposed records where they were. -/
theorem Committed.exposed_log (h : Committed s) (hp : s.nodes n = .opened p)
    (hlead : p.leader = n) : s.exposed <+: p.log := by
  have hcovers := h.inSync n (h.aligned.isr_of_leads ⟨p, hp, hlead⟩).1
  rwa [Covers, log_opened hp] at hcovers

/-- In every run whose steps satisfy the condition, the whole in-sync set agrees with the leader
below its high watermark, and every later leader has those records at the same offsets. -/
theorem committed_records_stay (config : ReplicaConfig) {replicas : List Nat} (hne : replicas ≠ [])
    (hnodup : replicas.Nodup) {events : List Event}
    (hok : Permits Clean (start config replicas) events) :
    let s := (start config replicas).follow events
    ∀ n p, s.nodes n = .opened p → p.leader = n → ∀ o < p.committedHwm,
      ∃ r, p.log[o]? = some r ∧ (∀ id ∈ p.isr, (s.log id)[o]? = some r) ∧
        ∀ later, Permits Clean s later → ∀ n' p', (s.follow later).nodes n' = .opened p' →
          p'.leader = n' → p'.log[o]? = some r := by
  intro s n p hp hlead o ho
  have h : Committed s := ((committed_start config hne hnodup).run hok).1
  have horder := h.aligned.inv.orderly n p hp
  have hlt : o < p.log.length := ho.trans_le (horder.hwm_le.trans_eq horder.whole.leo)
  refine ⟨p.log.get ⟨o, hlt⟩, getElem?_eq_getElem hlt, fun id hid => ?_, ?_⟩
  · obtain ⟨-, -, heq⟩ := horder.inSync hlead id hid
    rw [← getElem?_take_of_lt ho, ← heq, getElem?_take_of_lt ho, log_opened hp]
    exact getElem?_eq_getElem hlt
  · intro later hok' n' p' hp' hlead'
    obtain ⟨h', hexp⟩ := h.run hok'
    -- both logs begin with what was exposed, and offset `o` was
    have hpre : p.log.take p.committedHwm <+: p'.log :=
      ((h.noted n p hp hlead).trans hexp).trans (h'.exposed_log hp' hlead')
    have hlen : o < (p.log.take p.committedHwm).length := by
      rw [length_take]
      exact lt_min ho hlt
    obtain ⟨rest, hrest⟩ := hpre
    rw [← hrest, getElem?_append_left hlen, getElem?_take_of_lt ho]
    exact getElem?_eq_getElem hlt

/-! ## Failovers of two brokers -/

/-- The leader stops, the controller elects the follower, and it takes over. -/
def failover : List Event := [.stop 1, .brokerDeath [2] 1, .apply 2 1 [2] 0]

theorem failover_keeps_record :
    ((twoReplicas.follow replicated).follow failover).log 2 =
      (twoReplicas.follow replicated).log 1 := by
  have hbefore : Permits Clean twoReplicas replicated := by decide +kernel
  have hafter : Permits Clean (twoReplicas.follow replicated) failover := by decide +kernel
  have hhwm : ((twoReplicas.follow replicated).nodes 1).hwm = 1 := by decide +kernel
  have hold : ((twoReplicas.follow replicated).log 1).length = 1 := by decide +kernel
  have hnew : (((twoReplicas.follow replicated).follow failover).log 2).length = 1 := by
    decide +kernel
  obtain ⟨p, hp, hlead⟩ : (twoReplicas.follow replicated).Leads 1 := by decide +kernel
  obtain ⟨q, hq, hqlead⟩ : ((twoReplicas.follow replicated).follow failover).Leads 2 := by
    decide +kernel
  have hpos : 0 < p.committedHwm := by
    rw [hp, Node.hwm] at hhwm
    omega
  obtain ⟨r, hr, -, hlater⟩ := committed_records_stay ⟨10, 0, 2⟩ (by decide) (by decide)
    hbefore 1 p hp hlead 0 hpos
  have hlater := hlater failover hafter 2 q hq hqlead
  rw [log_opened hp] at hold
  rw [log_opened hq] at hnew
  rw [log_opened hp, log_opened hq]
  obtain ⟨a, ha⟩ := length_eq_one_iff.mp hold
  obtain ⟨b, hb⟩ := length_eq_one_iff.mp hnew
  rw [ha] at hr ⊢
  rw [hb] at hlater ⊢
  simpa using hlater.trans hr.symm

/-- The leader appends a record that nobody fetches, stops, and its follower takes over and appends
another. The old leader comes back, fetches from offset 1 and is in sync at once: the logs differ
at an offset below the high watermark. When it is elected again, the committed record is gone. -/
theorem rejoined_leader_diverges :
    let s := twoReplicas.follow [.apply 1 0 [1, 2] 0, .apply 2 0 [1, 2] 0,
      .produce 1 storageEnv [message 7] 1, .stop 1, .brokerDeath [2] 1, .apply 2 1 [2] 0,
      .produce 2 storageEnv [message 8] 1, .apply 1 1 [1, 2] 0, .request 1, .handle 0 0 10]
    let s' := s.follow [.isrReport 2, .stop 2, .brokerDeath [1] 2, .apply 1 3 [1] 0]
    s.Leads 2 ∧ 1 ∈ (s.nodes 2).isr ∧ (s.nodes 2).hwm = 1 ∧
      (s.log 2).map (·.value) = [[8]] ∧ (s.log 1).map (·.value) = [[7]] ∧
      s'.Leads 1 ∧ (s'.log 1).map (·.value) = [[7]] := by
  decide +kernel

end Volant.Cluster.System
