-- SUMMARY: A replicated partition as a system of brokers; the high watermark against the in-sync logs.
import Volant.Cluster.ControllerSpec
import Volant.Cluster.ReplicaSpec

/-!
# Replication of a partition

Any number of brokers with a replica of one partition, the controller's entry
for it, and the messages between them. Messages stay: a request or response may
be handled late, more than once, or never, and a broker may apply any entry the
controller has published. A broker that stops keeps its log and loses its
handle; it opens the partition again with the next assignment it applies.

Logs only grow, and nothing truncates a log. So an agreement between two logs
up to some offset never ends, and every invariant here rests on that. But a
broker whose log is longer than that of a new leader stays ahead of it with
records of its own: from then on it is stale. The log of any other broker is
the beginning of the last leader's.
-/

namespace Volant.Cluster

open List Function

open Broker (Partition)

structure FetchRequest where
  replica : Nat
  leader : Nat
  fromOffset : Nat

structure FetchResponse where
  replica : Nat
  leader : Nat
  records : List Record
  leaderEpoch : Nat

/-- What a run has shown; no broker reads it. -/
structure History where
  /-- The last broker that acted as leader. -/
  last : Nat
  /-- Whose log was longer than that of a leader when it took over. -/
  stale : Nat → Bool
  /-- The in-sync set of the last leader. -/
  inSync : List Nat
  /-- The high watermark of the last leader. -/
  shown : Nat
  /-- The longest prefix of a log that was below the high watermark of a leader. -/
  exposed : List Record

structure System extends History where
  config : ReplicaConfig
  nodes : Nat → Node
  requests : List FetchRequest
  responses : List FetchResponse
  /-- The controller's entry for the partition. -/
  entry : PartitionAssignment
  /-- All entries so far. -/
  published : List PartitionAssignment

inductive Event where
  | produce (n : Nat) (env : Partition.ProduceEnv) (messages : List Message) (acks : Nat)
  /-- A follower sends a fetch from its log end. -/
  | request (f : Nat)
  | handle (i now taken : Nat)
  | deliver (i written : Nat)
  | stop (n : Nat)
  /-- A broker notices that another one is dead. -/
  | observeDeath (n deadId : Nat)
  /-- The controller notices it, and elects a leader if it has to. -/
  | brokerDeath (live : List Nat) (deadId : Nat)
  /-- A leader's report reaches the controller. -/
  | isrReport (n : Nat)
  /-- A reassignment to the replicas that the request names or the placement gives. -/
  | reassign (replicas : List Nat)
  | electPreferred (live : List Nat)
  /-- A broker has joined the cluster, and up to `cap` brokers may be replicas. -/
  | addReplica (id cap : Nat)
  /-- An administrative request failed, and the controller restores an earlier entry. -/
  | restore (i : Nat)
  | apply (n i : Nat) (live : List Nat) (now : Nat)

namespace System

variable {s s' : System} {n : Nat}

def log (s : System) (n : Nat) : List Record := (s.nodes n).log

/-- What broker `n` shows if it acts as leader. -/
def observe (s : System) (n : Nat) : History :=
  match (s.nodes n).leading? n with
  | none => s.toHistory
  | some p =>
    { last := n
      stale := fun id => s.stale id ||
        decide (n ≠ s.last) && decide (p.log.length < (s.log id).length)
      inSync := p.isr
      shown := p.committedHwm
      exposed := if s.exposed.length < p.committedHwm then p.log.take p.committedHwm
        else s.exposed }

def setNode (s : System) (n : Nat) (node : Node) : System :=
  let s := { s with nodes := update s.nodes n node }
  { s with toHistory := s.observe n }

def publish (s : System) (entry : PartitionAssignment) : System :=
  { s with entry, published := s.published ++ [entry] }

/-- The environment of a produce on broker `n`. -/
def produceEnv (s : System) (n : Nat) (env : Partition.ProduceEnv) : Partition.ProduceEnv :=
  { env with nodeId := n, cluster := some s.config.minInsyncReplicas }

def step (s : System) : Event → System
  | .produce n env messages acks =>
    match s.nodes n with
    | .closed _ => s
    | .opened p =>
      s.setNode n (.opened (Partition.produceInner (s.produceEnv n env) messages acks p).2)
  | .request f =>
    match s.nodes f with
    | .closed _ => s
    | .opened p =>
      if decide (f ∈ p.replicas) && !p.isLeader f then
        { s with requests := s.requests ++ [⟨f, p.leader, p.leo⟩] }
      else s
  | .handle i now taken =>
    match s.requests[i]? with
    | none => s
    | some r =>
      match s.nodes r.leader with
      | .closed _ => s
      | .opened p =>
        match Replica.handleReplicaFetch s.config r.leader now r.replica r.fromOffset taken p with
        | ((_, _, epoch, records), p) =>
          { s.setNode r.leader (.opened p) with
            responses := s.responses ++ [⟨r.replica, r.leader, records, epoch⟩] }
  | .deliver i written =>
    match s.responses[i]? with
    | none => s
    | some r =>
      match s.nodes r.replica with
      | .closed _ => s
      | .opened p =>
        s.setNode r.replica
          (.opened (Replica.appendReplicaRecords r.replica r.records r.leaderEpoch written p))
  | .stop n => s.setNode n (.closed (s.log n))
  | .observeDeath n deadId =>
    match s.nodes n with
    | .closed _ => s
    | .opened p =>
      -- no broker declares itself dead
      if deadId = n then s else s.setNode n (.opened (Replica.shrinkLocalIsrForDead n deadId p))
  | .brokerDeath live deadId => s.publish (Controller.partitionDeath live deadId s.entry).1
  | .isrReport n =>
    match s.nodes n with
    | .closed _ => s
    | .opened p =>
      if p.isLeader n && decide (s.entry.leader = n) &&
          decide (s.entry.leaderEpoch ≤ p.leaderEpoch) && decide (n ∈ p.isr) then
        s.publish { s.entry with isr := Controller.reportedIsr n s.entry.replicas p.isr }
      else s
  | .reassign replicas =>
    match Controller.normalizeReplicaList replicas with
    | none => s
    | some replicas => s.publish (Controller.applyReplicaSet s.entry replicas)
  | .electPreferred live =>
    match electLeader s.entry.replicas s.entry.isr live with
    | none => s
    | some newLeader =>
      if s.entry.leader = newLeader then s
      else s.publish { s.entry with
        leader := newLeader
        isr := if newLeader ∈ s.entry.isr then s.entry.isr else s.entry.isr ++ [newLeader]
        leaderEpoch := saturatingSucc s.entry.leaderEpoch }
  | .addReplica id cap =>
    if id ∈ s.entry.replicas ∨ cap ≤ s.entry.replicas.dedup.length then s
    else s.publish { s.entry with replicas := s.entry.replicas ++ [id] }
  | .restore i =>
    match s.published[i]? with
    | none => s
    | some entry => s.publish entry
  | .apply n i live now =>
    match s.published[i]? with
    | none => s
    | some pa => s.setNode n (Replica.applyLocalAssignment s.config n live now pa (s.nodes n))

/-- A new partition: nobody has opened it yet. -/
def start (config : ReplicaConfig) (replicas : List Nat) : System :=
  let entry := Controller.newPartition 0 replicas
  { config, nodes := fun _ => .closed [], requests := [], responses := [], entry,
    published := [entry], last := entry.leader, stale := fun _ => false, inSync := replicas,
    shown := 0, exposed := [] }

def follow (s : System) (events : List Event) : System := events.foldl step s

/-- Every event satisfies the condition where it happens. -/
def Permits (ok : System → Event → Prop) : System → List Event → Prop
  | _, [] => True
  | s, e :: rest => ok s e ∧ Permits ok (s.step e) rest

instance decidablePermits {ok : System → Event → Prop} [∀ s e, Decidable (ok s e)] :
    ∀ (s : System) (events : List Event), Decidable (Permits ok s events)
  | _, [] => isTrue trivial
  | s, e :: rest =>
    have : Decidable (Permits ok (s.step e) rest) := decidablePermits (s.step e) rest
    inferInstanceAs (Decidable (_ ∧ _))

/-! ## Agreement of logs -/

/-- The logs of `n` and `id` have the same first `k` records. -/
def Agrees (s : System) (n id k : Nat) : Prop :=
  k ≤ (s.log n).length ∧ k ≤ (s.log id).length ∧ (s.log n).take k = (s.log id).take k

instance (s : System) (n id k : Nat) : Decidable (s.Agrees n id k) :=
  inferInstanceAs (Decidable (_ ∧ _ ∧ _))

theorem agreement (s : System) (n : Nat) : Agreement n (s.log n).length (s.Agrees n) where
  self h := ⟨h, h, rfl⟩
  zero id := ⟨Nat.zero_le _, Nat.zero_le _, by simp⟩
  le h := h.1
  mono := by
    rintro id j k hjk ⟨hn, hid, heq⟩
    refine ⟨hjk.trans hn, hjk.trans hid, ?_⟩
    have := congrArg (take j) heq
    rwa [take_take, take_take, min_eq_left hjk] at this

/-- A log that is the beginning of another agrees with it to its end. -/
theorem agrees_of_begins {id k : Nat} (h : s.log id <+: s.log n) (hk : k ≤ (s.log id).length) :
    s.Agrees n id k := by
  refine ⟨hk.trans h.length_le, hk, ?_⟩
  obtain ⟨rest, hrest⟩ := h
  rw [← hrest, take_append_of_le_length hk]

/-- Two logs that agree with a third one agree. -/
theorem Agrees.trans {m id k : Nat} (h : s.Agrees m n k) (h' : s.Agrees m id k) : s.Agrees n id k :=
  ⟨h.2.1, h'.2.1, h.2.2.symm.trans h'.2.2⟩

theorem take_of_begins {l l' : List Record} (h : l <+: l') {k : Nat} (hk : k ≤ l.length) :
    l'.take k = l.take k := by
  obtain ⟨t, rfl⟩ := h
  exact take_append_of_le_length hk

/-- Logs only grow. -/
def Grows (s s' : System) : Prop := ∀ n, s.log n <+: s'.log n

theorem Agrees.mono (hgrow : Grows s s') {id k : Nat} (h : s.Agrees n id k) : s'.Agrees n id k := by
  obtain ⟨hn, hid, heq⟩ := h
  refine ⟨hn.trans (hgrow n).length_le, hid.trans (hgrow id).length_le, ?_⟩
  rw [take_of_begins (hgrow n) hn, take_of_begins (hgrow id) hid, heq]

/-! ## What a step does -/

theorem log_of_nodes {node : Node} (h : s'.nodes = update s.nodes n node) (m : Nat) :
    s'.log m = if m = n then node.log else s.log m := by
  unfold log
  rw [h]
  split_ifs with hm
  · rw [hm, update_self]
  · rw [update_of_ne hm]

theorem Grows.of_nodes {node : Node} (h : s'.nodes = update s.nodes n node)
    (hlog : s.log n <+: node.log) : Grows s s' := by
  intro m
  rw [log_of_nodes h]
  split_ifs with hm
  · rw [hm]
    exact hlog
  · exact prefix_refl _

theorem log_opened {p : Partition} (hp : s.nodes n = .opened p) : s.log n = p.log := by
  rw [log, hp, Node.log]

/-- Broker `n` takes itself for the leader. -/
def Leads (s : System) (n : Nat) : Prop := ∃ p, s.nodes n = .opened p ∧ p.leader = n

/-- By this event, `id` may come into the in-sync set of `n`. -/
def Joins (s : System) (n id : Nat) : Event → Prop
  | .handle i _ _ => ∃ r ∈ s.requests[i]?, r.leader = n ∧ id = r.replica
  | .apply m i _ _ => m = n ∧ ∃ pa ∈ s.published[i]?, n ∈ pa.replicas ∧ pa.leader = n ∧ id ∈ pa.isr
  | _ => False

/-- What comes from outside agrees with the log of the leader that uses it. -/
def Held (s : System) : Event → Prop
  | .handle i _ _ => ∀ r ∈ s.requests[i]?, s.Leads r.leader →
      s.Agrees r.leader r.replica r.fromOffset
  | .apply n i _ _ => ∀ pa ∈ s.published[i]?, n ∈ pa.replicas → pa.leader = n →
      ∀ id ∈ pa.isr, s.Agrees n id (s.nodes n).hwm
  | _ => True

/-- Whether a log ends up longer by this event: not at all, by an append of the leader, or by a
response. -/
def Lengthens (s : System) (e : Event) (n : Nat) (node : Node) : Prop :=
  node.log = s.log n ∨ (s.Leads n ∧ ∃ p, node = .opened p ∧ p.leader = n) ∨
    ∃ i written r, e = .deliver i written ∧ s.responses[i]? = some r ∧ r.replica = n ∧
      node.log = Replica.appendRecordsWithOffsets (s.log n) (r.records.take written)

/-- The event gives broker `n` the new node `node`. -/
structure Acts (s : System) (e : Event) (n : Nat) (node : Node) : Prop where
  grows : s.log n <+: node.log
  lengthens : Lengthens s e n node
  gapFree : (∀ p, s.nodes n = .opened p → p.Whole) → Storage.GapFree 0 (s.log n) →
    Storage.GapFree 0 node.log
  orderly : ∀ A : Nat → Nat → Prop, Held s e → (∀ pa ∈ s.published, pa.WellFormed) →
    (∀ p, s.nodes n = .opened p → InOrder n A p) → Agreement n node.log.length A →
    (∀ id k, s.Agrees n id k → A id k) → ∀ p, node = .opened p → InOrder n A p
  leads : ∀ p, node = .opened p → p.leader = n → s.Leads n ∨
    ∃ i live now, e = .apply n i live now ∧ ∃ pa ∈ s.published[i]?, n ∈ pa.replicas ∧ pa.leader = n
  members : ∀ p, node = .opened p → p.leader = n → ∀ id ∈ p.isr,
    id = n ∨ id ∈ (s.nodes n).isr ∨ Joins s n id e

variable {e : Event}

/-- An event of one broker's own: the handle changes, its leader does not. -/
theorem Acts.of_handle {p p' : Partition} (hp : s.nodes n = .opened p)
    (hleader : p'.leader = p.leader) (hgrows : p.log <+: p'.log)
    (hlengthens : Lengthens s e n (.opened p'))
    (hgap : p.Whole → Storage.GapFree 0 p.log → Storage.GapFree 0 p'.log)
    (hisr : ∀ id ∈ p'.isr, id ∈ p.isr)
    (horder : ∀ A : Nat → Nat → Prop, InOrder n A p → Agreement n p'.log.length A → InOrder n A p')
    : Acts s e n (.opened p') where
  grows := log_opened hp ▸ hgrows
  lengthens := hlengthens
  gapFree hwhole h := hgap (hwhole p hp) (log_opened hp ▸ h)
  orderly A _ _ hold ha _ q hq := by
    cases hq
    exact horder A (hold p hp) ha
  leads q hq hlead := by
    cases hq
    exact .inl ⟨p, hp, hleader ▸ hlead⟩
  members q hq _ id hid := by
    cases hq
    exact .inr (.inl (by simpa [hp, Node.isr] using hisr id hid))

/-- A closed handle has only its log. -/
theorem Acts.closed : Acts s e n (.closed (s.log n)) :=
  ⟨prefix_refl _, .inl rfl, fun _ h => h, nofun, nofun, nofun⟩

/-- Nothing that a broker holds changes. The controller may publish an entry, and a follower may
send a fetch. -/
structure Idle (s s' : System) : Prop where
  nodes : s'.nodes = s.nodes
  history : s'.toHistory = s.toHistory
  published : s.entry.WellFormed → (∀ e ∈ s.published, e.WellFormed) →
    s'.entry.WellFormed ∧ ∀ e ∈ s'.published, e.WellFormed
  requests : ∀ r ∈ s'.requests, r ∈ s.requests ∨
    ∃ p, s.nodes r.replica = .opened p ∧ r.fromOffset = p.leo
  responses : s'.responses = s.responses

theorem Idle.refl (s : System) : Idle s s :=
  ⟨rfl, rfl, fun hentry hpub => ⟨hentry, hpub⟩, fun _ h => .inl h, rfl⟩

theorem Idle.publish {entry : PartitionAssignment}
    (h : s.entry.WellFormed → (∀ e ∈ s.published, e.WellFormed) → entry.WellFormed) :
    Idle s (s.publish entry) := by
  refine ⟨rfl, rfl, fun hentry hpub => ⟨h hentry hpub, ?_⟩, fun _ h => .inl h, rfl⟩
  exact forall_mem_append.mpr ⟨hpub, forall_mem_singleton.mpr (h hentry hpub)⟩

theorem acts_handle {i now taken : Nat} {r : FetchRequest} {p p' : Partition}
    {answer : Replica.FetchError × Nat × Nat × List Record} (hr : s.requests[i]? = some r)
    (hp : s.nodes r.leader = .opened p)
    (h : Replica.handleReplicaFetch s.config r.leader now r.replica r.fromOffset taken p =
      (answer, p')) : Acts s (.handle i now taken) r.leader (.opened p') := by
  by_cases hlead : p.leader = r.leader
  swap
  · simp only [Replica.handleReplicaFetch, Partition.isLeader, hlead, decide_false, Bool.not_false,
      if_true] at h
    cases h
    exact .of_handle hp rfl (prefix_refl _) (.inl (log_opened hp).symm) (fun _ h => h)
      (fun _ hid => hid) fun _ hold _ => hold
  simp only [Replica.handleReplicaFetch, Partition.isLeader, hlead, decide_true, Bool.not_true,
    Bool.false_eq_true, if_false] at h
  cases h
  have hlog := @observeFollower_log s.config now r.replica r.fromOffset p
  obtain ⟨isr, caughtUpAt, heq, -, -, hmem⟩ :=
    @observeFollower_eq s.config now r.replica r.fromOffset p
  have hsame : Node.log (.opened (Replica.observeFollower s.config now r.replica r.fromOffset p)) =
      s.log r.leader := hlog.trans (log_opened hp).symm
  refine ⟨hsame ▸ prefix_refl _, .inl hsame, fun _ h => hsame ▸ h,
    fun A hheld _ hold ha himp q hq => ?_,
    fun q hq _ => .inl ⟨p, hp, hlead⟩, fun q hq _ id hid => ?_⟩
  · cases hq
    rw [Node.log, hlog, ← (hold p hp).whole.leo] at ha
    exact (hold p hp).observeFollower ha hlead (himp _ _ (hheld r hr ⟨p, hp, hlead⟩))
  · cases hq
    rw [heq, Partition.recomputeHwm_isr] at hid
    rcases hmem id hid with hid | hid | ⟨hid, -⟩
    · exact .inl (hid.trans hlead)
    · exact .inr (.inl (by simpa [hp, Node.isr] using hid))
    · exact .inr (.inr ⟨r, hr, rfl, hid⟩)

theorem acts_apply {i now : Nat} {live : List Nat} {pa : PartitionAssignment}
    (hpa : s.published[i]? = some pa) : Acts s (.apply n i live now) n
      (Replica.applyLocalAssignment s.config n live now pa (s.nodes n)) := by
  rcases @applyLocalAssignment_cases n (fun _ _ => True) s.config live now pa (s.nodes n)
    with heq | ⟨p, heq, hlog, hleader, -, hmem, -⟩
  · rw [heq]
    exact .closed
  have hreplica : n ∈ pa.replicas := by
    by_contra hnot
    simp [Replica.applyLocalAssignment, Replica.ensurePartition, hnot] at heq
  have hopened {q : Partition} (hq : Replica.applyLocalAssignment s.config n live now pa
      (s.nodes n) = .opened q) : q = p := by
    cases heq.symm.trans hq
    rfl
  have hsame : (Replica.applyLocalAssignment s.config n live now pa (s.nodes n)).log = s.log n := by
    rw [heq, Node.log, hlog, log]
  refine ⟨hsame ▸ prefix_refl _, .inl hsame, fun _ h => hsame ▸ h,
    fun A hheld hwf hold ha himp q hq => ?_, fun q hq hlead => ?_, fun q hq hlead id hid => ?_⟩
  · rcases @applyLocalAssignment_cases n A s.config live now pa (s.nodes n)
      with hclosed | ⟨p', hp', -, -, -, -, horder⟩
    · cases heq.symm.trans hclosed
    · rw [hopened hq, ← hopened hp']
      rw [heq, Node.log, hlog] at ha
      refine horder hold ha fun hlead => ⟨?_, fun id hid => ?_⟩
      · exact hlead ▸ (hwf pa (mem_of_getElem? hpa)).leader_mem
      · exact himp _ _ (hheld pa hpa hreplica hlead id hid)
  · rw [hopened hq] at hlead
    exact .inr ⟨i, live, now, rfl, pa, hpa, hreplica, hleader ▸ hlead⟩
  · rw [hopened hq] at hlead hid
    have hn : pa.leader = n := hleader ▸ hlead
    rcases hmem hn id hid with hid | hid | hid
    · exact .inl hid
    · exact .inr (.inr ⟨rfl, pa, hpa, hreplica, hn, hid⟩)
    · exact .inr (.inl hid)

/-- Broker `n` has a new node, the history takes note of it, and responses with records of its log
may be under way. -/
structure Becomes (s s' : System) (n : Nat) (node : Node) : Prop where
  nodes : s'.nodes = update s.nodes n node
  entry : s'.entry = s.entry
  published : s'.published = s.published
  history : s'.toHistory = (s.setNode n node).toHistory
  requests : s'.requests = s.requests
  responses : ∀ r ∈ s'.responses, r ∈ s.responses ∨
    (r.leader = n ∧ ∀ x ∈ r.records, x ∈ node.log)

theorem becomes_setNode (s : System) (n : Nat) (node : Node) :
    Becomes s (s.setNode n node) n node :=
  ⟨rfl, rfl, rfl, rfl, rfl, fun _ hr => .inl hr⟩

/-- A step changes nothing that a broker holds, or one broker acts. -/
theorem step_cases (s : System) (e : Event) : Idle s (s.step e) ∨
    ∃ n node, Acts s e n node ∧ Becomes s (s.step e) n node := by
  cases e with
  | produce n env messages acks =>
    dsimp only [step]
    split
    · exact .inl (.refl s)
    next p hn =>
      obtain ⟨hleader, hisr, hgrows, happends, horder⟩ := produceInner_spec
        (show (s.produceEnv n env).nodeId = n from rfl)
        (show (s.produceEnv n env).cluster ≠ none from Option.some_ne_none _) messages acks p
      refine .inr ⟨n, _, .of_handle hn hleader hgrows ?_
        (fun hwhole hgap => produceInner_gapFree hwhole hgap _ messages acks)
        (fun id hid => hisr ▸ hid) horder, becomes_setNode ..⟩
      rcases happends with hsame | hlead
      · exact .inl (hsame.trans (log_opened hn).symm)
      · exact .inr (.inl ⟨⟨p, hn, hlead⟩, _, rfl, hleader.trans hlead⟩)
  | request f =>
    refine .inl ?_
    dsimp only [step]
    split
    · exact .refl s
    next p hp =>
      split_ifs
      · refine ⟨rfl, rfl, fun hentry hpub => ⟨hentry, hpub⟩, fun r hr => ?_, rfl⟩
        refine (mem_append.mp hr).imp_right fun hnew => ?_
        rw [mem_singleton.mp hnew]
        exact ⟨p, hp, rfl⟩
      · exact .refl s
  | handle i now taken =>
    dsimp only [step]
    split
    · exact .inl (.refl s)
    next r hr =>
      split
      · exact .inl (.refl s)
      next p hp =>
        obtain ⟨hnodes, hentry, hpub, hhist, hreq, -⟩ := becomes_setNode s r.leader (.opened _)
        refine .inr ⟨r.leader, _, acts_handle hr hp rfl, hnodes, hentry, hpub, hhist, hreq,
          fun r' hr' => ?_⟩
        refine (mem_append.mp hr').imp_right fun hnew => ?_
        rw [mem_singleton.mp hnew]
        exact ⟨rfl, mem_log_of_handleReplicaFetch rfl⟩
  | deliver i written =>
    dsimp only [step]
    split
    · exact .inl (.refl s)
    next r hr =>
      split
      · exact .inl (.refl s)
      next p hp =>
        have hcases := appendReplicaRecords_log r.replica r.records r.leaderEpoch written p
        obtain ⟨hleader, hisr⟩ :=
          appendReplicaRecords_frame r.replica r.records r.leaderEpoch written p
        have hlog := log_opened hp
        refine .inr ⟨r.replica, _, .of_handle hp hleader
          (prefix_appendReplicaRecords ..) (hcases.imp (fun h => h.trans hlog.symm) fun h =>
            .inr ⟨i, written, r, rfl, hr, rfl, hlog.symm ▸ h⟩) (fun _ hgap => ?_)
          (fun id hid => ?_) (fun A hold _ => hold.appendReplicaRecords), becomes_setNode ..⟩
        · rcases hcases with heq | heq
          · exact heq ▸ hgap
          · exact heq ▸ gapFree_appendRecordsWithOffsets hgap _
        · exact hisr ▸ hid
  | stop n =>
    exact .inr ⟨n, .closed (s.log n), .closed, becomes_setNode ..⟩
  | observeDeath n deadId =>
    dsimp only [step]
    split
    · exact .inl (.refl s)
    next p hn =>
      split_ifs with hself
      · exact .inl (.refl s)
      · obtain ⟨hlog, hleader, hisr⟩ := @shrinkLocalIsrForDead_cases n deadId p
        refine .inr ⟨n, _, .of_handle hn hleader (by rw [hlog])
          (.inl (hlog.trans (log_opened hn).symm)) (fun _ hgap => hlog ▸ hgap)
          (fun id hid => ?_) (fun A hold ha => ?_), becomes_setNode ..⟩
        · rw [hisr] at hid
          exact (mem_filter.mp hid).1
        · rw [hlog, ← hold.whole.leo] at ha
          exact hold.shrinkLocalIsrForDead hself ha
  | brokerDeath live deadId =>
    have hevolves := @Controller.partitionDeath_evolves (.brokerDeath deadId) "" s.entry live deadId
    exact .inl (.publish fun hentry _ => hevolves.wellFormed hentry)
  | isrReport n =>
    refine .inl ?_
    dsimp only [step]
    split
    · exact .refl s
    next p _ =>
      split_ifs with hreport
      · simp only [Bool.and_eq_true, decide_eq_true_eq] at hreport
        have hevolves := @Controller.reportedIsr_evolves (.brokerDeath n) "" s.entry n p.isr
          hreport.1.1.2
        exact .publish fun hentry _ => hevolves.wellFormed hentry
      · exact .refl s
  | reassign replicas =>
    refine .inl ?_
    dsimp only [step]
    split
    · exact .refl s
    next rs hrs =>
      refine .publish fun hentry _ => ?_
      obtain ⟨hne, hnodup⟩ := Controller.normalizeReplicaList_some hrs
      have hevolves := @Controller.applyReplicaSet_evolves "" s.entry 0 replicas rs hne hnodup
      exact hevolves.wellFormed hentry
  | electPreferred live =>
    refine .inl ?_
    dsimp only [step]
    split
    · exact .refl s
    next newLeader helect =>
      split
      · exact .refl s
      · have hevolves := @Controller.Evolves.elect (.electPreferred "" 0) "" s.entry live s.entry.isr
          newLeader (fun _ h => h) (fun h => h) helect
        exact .publish fun hentry _ => hevolves.wellFormed hentry
  | addReplica id cap =>
    refine .inl ?_
    dsimp only [step]
    split_ifs with hskip
    · exact .refl s
    · refine .publish fun hentry _ => ⟨by simp, ?_, hentry.leader_mem, hentry.isr_nodup,
        fun id hid => mem_append_left _ (hentry.isr_subset id hid)⟩
      simpa using hentry.replicas_nodup.concat fun hmem => hskip (.inl hmem)
  | restore i =>
    refine .inl ?_
    dsimp only [step]
    split
    · exact .refl s
    next entry hentry => exact .publish fun _ hpub => hpub entry (mem_of_getElem? hentry)
  | apply n i live now =>
    dsimp only [step]
    split
    · exact .inl (.refl s)
    next pa hpa => exact .inr ⟨n, _, acts_apply hpa, becomes_setNode ..⟩

/-! ## The invariant -/

structure Inv (s : System) : Prop where
  orderly : ∀ n p, s.nodes n = .opened p → InOrder n (s.Agrees n) p
  entry : s.entry.WellFormed
  published : ∀ e ∈ s.published, e.WellFormed

theorem inv_start (config : ReplicaConfig) {replicas : List Nat} (hne : replicas ≠ [])
    (hnodup : replicas.Nodup) : Inv (start config replicas) := by
  have hentry := Controller.newPartition_wellFormed 0 hne hnodup
  exact ⟨nofun, hentry, forall_mem_singleton.mpr hentry⟩

theorem Idle.log (h : Idle s s') : s'.log = s.log := by
  funext n
  rw [System.log, System.log, h.nodes]

theorem Inv.of_idle (h : Inv s) (hidle : Idle s s') : Inv s' := by
  obtain ⟨hentry, hpub⟩ := hidle.published h.entry h.published
  refine ⟨fun n p hp => ?_, hentry, hpub⟩
  rw [hidle.nodes] at hp
  exact (h.orderly n p hp).weaken fun _ _ hk => hk.mono fun m => by rw [hidle.log]

theorem Inv.step (h : Inv s) (hheld : Held s e) : Inv (s.step e) := by
  rcases step_cases s e with hidle | ⟨n, node, hacts, hbec⟩
  · exact h.of_idle hidle
  · have hgrow : Grows s (s.step e) := .of_nodes hbec.nodes hacts.grows
    refine ⟨fun m p hp => ?_, hbec.entry ▸ h.entry, hbec.published ▸ h.published⟩
    have hlift : ∀ {q}, s.nodes m = .opened q → InOrder m ((s.step e).Agrees m) q := fun hq =>
      (h.orderly m _ hq).weaken fun _ _ hk => hk.mono hgrow
    by_cases hm : m = n
    · subst hm
      rw [hbec.nodes, update_self] at hp
      have hlog : (s.step e).log m = node.log := by rw [log_of_nodes hbec.nodes, if_pos rfl]
      exact hacts.orderly _ hheld h.published (fun q hq => hlift hq)
        (hlog ▸ (s.step e).agreement m) (fun _ _ hk => hk.mono hgrow) p hp
    · rw [hbec.nodes, update_of_ne hm] at hp
      exact hlift hp

/-! ## The logs and the last leader -/

/-- The condition on the steps. A stale broker neither fetches from the leader nor sends a late
response to others. A broker takes over while nobody leads, is not stale, and its high watermark,
which is the end of its log when it opens the partition, is not above the last leader's. An
assignment brings into its in-sync set only members of the last one, or those it has seen at its
high watermark. -/
def Admissible (s : System) : Event → Prop
  | .handle i _ _ => ∀ r ∈ s.requests[i]?, s.Leads r.leader → s.stale r.replica = false
  | .deliver i _ => ∀ r ∈ s.responses[i]?, s.stale r.leader = true → s.stale r.replica = true
  | .apply n i _ _ => ∀ pa ∈ s.published[i]?, n ∈ pa.replicas → pa.leader = n →
      (s.Leads n ∨ (s.stale n = false ∧ ¬ s.Leads s.last ∧ (s.nodes n).hwm ≤ s.shown)) ∧
        ∀ id ∈ pa.isr, id = n ∨ id ∈ s.inSync ∨ (s.nodes n).hwm ≤ (s.nodes n).notedLeo id
  | _ => True

instance (s : System) (n : Nat) : Decidable (s.Leads n) :=
  decidable_of_iff (((s.nodes n).leading? n).isSome = true) <| by
    cases hn : s.nodes n with
    | closed log => simp [Leads, hn, Node.leading?]
    | opened p => simp [Leads, hn, Node.leading?, Partition.isLeader]

instance (s : System) (e : Event) : Decidable (Admissible s e) := by
  cases e <;> unfold Admissible <;> infer_instance

/-- Every log that is not stale is the beginning of the last leader's, the messages under way are
true of the logs, and the last in-sync set agrees with the last leader below its high watermark. -/
structure Aligned (s : System) : Prop where
  inv : Inv s
  leading : ∀ n p, s.nodes n = .opened p → p.leader = n →
    n = s.last ∧ p.isr = s.inSync ∧ p.committedHwm = s.shown
  last : s.stale s.last = false
  follows : ∀ n, s.stale n = false → s.log n <+: s.log s.last
  gapFree : ∀ n, Storage.GapFree 0 (s.log n)
  requests : ∀ r ∈ s.requests, r.fromOffset ≤ (s.log r.replica).length
  responses : ∀ r ∈ s.responses, ∀ x ∈ r.records, (s.log r.leader)[x.offset]? = some x
  inSync : ∀ id ∈ s.inSync, s.Agrees s.last id s.shown

theorem aligned_start (config : ReplicaConfig) {replicas : List Nat} (hne : replicas ≠ [])
    (hnodup : replicas.Nodup) : Aligned (start config replicas) where
  inv := inv_start config hne hnodup
  leading := nofun
  last := rfl
  follows _ _ := prefix_refl _
  gapFree _ := trivial
  requests := forall_mem_nil _
  responses := forall_mem_nil _
  inSync id _ := ((start config replicas).agreement _).zero id

theorem Inv.hwm_le (h : Inv s) (n : Nat) : (s.nodes n).hwm ≤ (s.log n).length := by
  unfold log
  cases hn : s.nodes n with
  | closed log => exact le_rfl
  | opened p =>
    have horder := h.orderly n p hn
    exact horder.hwm_le.trans_eq horder.whole.leo

/-- What a handle has noted down is agreed on. -/
theorem Inv.agrees_notedLeo (h : Inv s) (n id : Nat) : s.Agrees n id ((s.nodes n).notedLeo id) := by
  have ha := s.agreement n
  cases hn : s.nodes n with
  | closed log => exact ha.zero id
  | opened p =>
    have horder := h.orderly n p hn
    rw [log_opened hn, ← horder.whole.leo] at ha
    exact agrees_noted ha horder.noted id

/-- What the leader takes for granted is so. -/
theorem Aligned.held (h : Aligned s) (hok : Admissible s e) : Held s e := by
  cases e with
  | handle i now taken =>
    rintro r hr ⟨p, hp, hlead⟩
    obtain ⟨hlast, -⟩ := h.leading r.leader p hp hlead
    have hpre := h.follows r.replica (hok r hr ⟨p, hp, hlead⟩)
    rw [← hlast] at hpre
    exact agrees_of_begins hpre (h.requests r (mem_of_getElem? hr))
  | apply n i live now =>
    intro pa hpa hrep hlead id hid
    obtain ⟨hhow, hmembers⟩ := hok pa hpa hrep hlead
    have ha := s.agreement n
    rcases hmembers id hid with rfl | hsync | hnoted
    · exact ha.self (h.inv.hwm_le id)
    · -- the last leader agrees with both
      have hagrees := h.inSync id hsync
      rcases hhow with ⟨p, hp, hself⟩ | ⟨hfresh, -, hshown⟩
      · obtain ⟨hlast, -, hhwm⟩ := h.leading n p hp hself
        rwa [hp, Node.hwm, hhwm, hlast]
      · have hown := agrees_of_begins (h.follows n hfresh) (h.inv.hwm_le n)
        exact hown.trans ((s.agreement s.last).mono hshown hagrees)
    · exact ha.mono hnoted (h.inv.agrees_notedLeo n id)
  | _ => trivial

theorem Aligned.of_idle (h : Aligned s) (hidle : Idle s s') : Aligned s' := by
  have hgrow : Grows s s' := fun m => by rw [hidle.log]
  have hist := hidle.history
  refine ⟨h.inv.of_idle hidle, fun n p hp hlead => ?_, ?_, fun n hn => ?_, fun n => ?_,
    fun r hr => ?_, fun r hr => ?_, fun id hid => ?_⟩
  · rw [hidle.nodes] at hp
    rw [hist]
    exact h.leading n p hp hlead
  · rw [hist]
    exact h.last
  · rw [hist] at hn ⊢
    rw [hidle.log]
    exact h.follows n hn
  · rw [hidle.log]
    exact h.gapFree n
  · rw [hidle.log]
    rcases hidle.requests r hr with hold | ⟨p, hp, hfrom⟩
    · exact h.requests r hold
    · rw [hfrom, (h.inv.orderly _ p hp).whole.leo, log_opened hp]
  · rw [hidle.responses] at hr
    rw [hidle.log]
    exact h.responses r hr
  · rw [hist] at hid ⊢
    exact (h.inSync id hid).mono hgrow

/-- The messages under way stay true when broker `n` acts. -/
theorem Aligned.messages {node : Node} (h : Aligned s) (hacts : Acts s e n node)
    (hbec : Becomes s s' n node) : (∀ m, Storage.GapFree 0 (s'.log m)) ∧
      (∀ r ∈ s'.requests, r.fromOffset ≤ (s'.log r.replica).length) ∧
      ∀ r ∈ s'.responses, ∀ x ∈ r.records, (s'.log r.leader)[x.offset]? = some x := by
  have hgrow : Grows s s' := .of_nodes hbec.nodes hacts.grows
  have hnew : s'.log n = node.log := by rw [log_of_nodes hbec.nodes, if_pos rfl]
  have hgap : ∀ m, Storage.GapFree 0 (s'.log m) := by
    intro m
    rw [log_of_nodes hbec.nodes]
    split_ifs with hm
    · exact hacts.gapFree (fun p hp => (h.inv.orderly n p hp).whole) (h.gapFree n)
    · exact h.gapFree m
  refine ⟨hgap, fun r hr => ?_, fun r hr x hx => ?_⟩
  · rw [hbec.requests] at hr
    exact (h.requests r hr).trans (hgrow _).length_le
  · rcases hbec.responses r hr with hold | ⟨rfl, hrecords⟩
    · obtain ⟨rest, hrest⟩ := hgrow r.leader
      have hat := h.responses r hold x hx
      rwa [← hrest, getElem?_append_left (List.getElem?_eq_some_iff.mp hat).1]
    · obtain ⟨i, hi⟩ := mem_iff_getElem?.mp (hrecords x hx)
      have hoffset := (hnew ▸ hgap r.leader).offset_eq hi
      rw [hnew, hoffset, Nat.zero_add, hi]

theorem setNode_leading {p : Partition} (s : System) (hlead : p.leader = n) :
    (s.setNode n (.opened p)).toHistory =
      { last := n
        stale := fun id => s.stale id || decide (n ≠ s.last) &&
          decide (p.log.length < ({ s with nodes := update s.nodes n (.opened p) }.log id).length)
        inSync := p.isr
        shown := p.committedHwm
        exposed := if s.exposed.length < p.committedHwm then p.log.take p.committedHwm
          else s.exposed } := by
  simp [setNode, observe, Node.leading?, Partition.isLeader, hlead]

theorem setNode_not_leading (s : System) {node : Node} (h : ∀ p, node = .opened p → p.leader ≠ n) :
    (s.setNode n node).toHistory = s.toHistory := by
  cases node with
  | closed log => simp [setNode, observe, Node.leading?]
  | opened p => simp [setNode, observe, Node.leading?, Partition.isLeader, h p rfl]

/-- Nobody else leads when a broker does. -/
theorem Aligned.alone {p : Partition} (h : Aligned s) (hok : Admissible s e)
    (hacts : Acts s e n (.opened p)) (hlead : p.leader = n) {m : Nat} (hm : s.Leads m) : m = n := by
  have hlast : ∀ {k}, s.Leads k → k = s.last := fun ⟨q, hq, hqlead⟩ => (h.leading _ q hq hqlead).1
  rcases hacts.leads p rfl hlead with hn | ⟨i, live, now, rfl, pa, hpa, hrep, hpan⟩
  · exact (hlast hm).trans (hlast hn).symm
  · rcases (hok pa hpa hrep hpan).1 with hn | ⟨-, hnone, -⟩
    · exact (hlast hm).trans (hlast hn).symm
    · exact absurd (hlast hm ▸ hm) hnone

/-- A broker that leads after a step is not stale. If it takes over from another one, its log is
still the beginning of that one's. -/
theorem Aligned.leader_begins {p : Partition} (h : Aligned s) (hok : Admissible s e)
    (hacts : Acts s e n (.opened p)) (hlead : p.leader = n) :
    s.stale n = false ∧ (n ≠ s.last → p.log <+: s.log s.last) := by
  by_cases hn : s.Leads n
  · obtain ⟨q, hq, hqlead⟩ := hn
    obtain ⟨hlast, -⟩ := h.leading n q hq hqlead
    exact ⟨hlast ▸ h.last, fun hne => absurd hlast hne⟩
  · obtain ⟨i, live, now, rfl, pa, hpa, hrep, hpan⟩ := (hacts.leads p rfl hlead).resolve_left hn
    obtain ⟨hfresh, -⟩ := ((hok pa hpa hrep hpan).1).resolve_left hn
    refine ⟨hfresh, fun _ => ?_⟩
    rcases hacts.lengthens with hsame | ⟨hn', -⟩ | ⟨_, _, _, hdeliver, -⟩
    · have hlog : p.log = s.log n := hsame
      exact hlog ▸ h.follows n hfresh
    · exact absurd hn' hn
    · cases hdeliver

/-- A broker that is not stale and does not lead stays behind the last leader. -/
theorem Aligned.within {node : Node} (h : Aligned s) (hok : Admissible s e)
    (hacts : Acts s e n node) (hnot : ∀ p, node = .opened p → p.leader ≠ n)
    (hfresh : s.stale n = false) : node.log <+: s.log s.last := by
  have hpre := h.follows n hfresh
  rcases hacts.lengthens with hsame | ⟨-, p, hp, hlead⟩ | ⟨i, written, r, rfl, hr, rfl, heq⟩
  · exact hsame ▸ hpre
  · exact absurd hlead (hnot p hp)
  · have hsender : s.stale r.leader = false := by
      by_contra hstale
      rw [Bool.not_eq_false] at hstale
      exact Bool.false_ne_true (hfresh.symm.trans (hok r hr hstale))
    rw [heq]
    refine prefix_appendRecords hpre fun x hx => ?_
    have hat := h.responses r (mem_of_getElem? hr) x (mem_of_mem_take hx)
    obtain ⟨rest, hrest⟩ := h.follows r.leader hsender
    rwa [← hrest, getElem?_append_left (List.getElem?_eq_some_iff.mp hat).1]

/-- A step of a broker that leads afterwards. -/
theorem Aligned.lead {p : Partition} (h : Aligned s) (hok : Admissible s e)
    (hacts : Acts s e n (.opened p)) (hbec : Becomes s s' n (.opened p)) (hlead : p.leader = n)
    (hinv : Inv s') : Aligned s' := by
  have hnodes : s'.nodes n = .opened p := by rw [hbec.nodes, update_self]
  have hnew := log_opened hnodes
  have hist := hbec.history.trans (setNode_leading s hlead)
  obtain ⟨hgap, hrequests, hresponses⟩ := h.messages hacts hbec
  have hlogs : { s with nodes := update s.nodes n (.opened p) }.log = s'.log := by
    funext m
    rw [log, log, hbec.nodes]
  rw [hlogs] at hist
  obtain ⟨hfresh, hown⟩ := h.leader_begins hok hacts hlead
  refine ⟨hinv, fun m q hq hqlead => ?_, ?_, fun m hm => ?_, hgap, hrequests, hresponses,
    fun id hid => ?_⟩
  · obtain rfl : m = n := by
      by_contra hne
      rw [hbec.nodes, update_of_ne hne] at hq
      exact hne (h.alone hok hacts hlead ⟨q, hq, hqlead⟩)
    rw [hnodes] at hq
    cases hq
    simp [hist]
  · simp [hist, hfresh, hnew]
  · simp only [hist, Bool.or_eq_false_iff, Bool.and_eq_false_imp, decide_eq_true_eq,
      decide_eq_false_iff_not, not_lt] at hm ⊢
    by_cases hmn : m = n
    · rw [hmn]
    have hsame : s'.log m = s.log m := by rw [log_of_nodes hbec.nodes, if_neg hmn]
    have hpre := h.follows m hm.1
    rw [hsame] at hm
    rw [hsame, hnew]
    by_cases hlast : n = s.last
    · rw [← hlast] at hpre
      exact hpre.trans hacts.grows
    · exact prefix_of_prefix_length_le hpre (hown hlast) (hm.2 hlast)
  · simp only [hist] at hid ⊢
    exact (hinv.orderly n p hnodes).inSync hlead id hid

/-- A step of a broker that does not lead afterwards. -/
theorem Aligned.follow {node : Node} (h : Aligned s) (hok : Admissible s e)
    (hacts : Acts s e n node) (hbec : Becomes s s' n node)
    (hnot : ∀ p, node = .opened p → p.leader ≠ n) (hinv : Inv s') : Aligned s' := by
  have hgrow : Grows s s' := .of_nodes hbec.nodes hacts.grows
  have hist := hbec.history.trans (setNode_not_leading s hnot)
  obtain ⟨hgap, hrequests, hresponses⟩ := h.messages hacts hbec
  refine ⟨hinv, fun m q hq hqlead => ?_, ?_, fun m hm => ?_, hgap, hrequests, hresponses,
    fun id hid => ?_⟩
  · rw [hist]
    by_cases hmn : m = n
    · subst hmn
      rw [hbec.nodes, update_self] at hq
      exact absurd hqlead (hnot q hq)
    · rw [hbec.nodes, update_of_ne hmn] at hq
      exact h.leading m q hq hqlead
  · rw [hist]
    exact h.last
  · rw [hist] at hm ⊢
    refine IsPrefix.trans ?_ (hgrow s.last)
    rw [log_of_nodes hbec.nodes]
    split_ifs with hmn
    · subst hmn
      exact h.within hok hacts hnot hm
    · exact h.follows m hm
  · rw [hist] at hid ⊢
    exact (h.inSync id hid).mono hgrow

theorem Aligned.step (h : Aligned s) (hok : Admissible s e) : Aligned (s.step e) := by
  have hinv : Inv (s.step e) := h.inv.step (h.held hok)
  rcases step_cases s e with hidle | ⟨n, node, hacts, hbec⟩
  · exact h.of_idle hidle
  · by_cases hlead : ∃ p, node = .opened p ∧ p.leader = n
    · obtain ⟨p, rfl, hlead⟩ := hlead
      exact h.lead hok hacts hbec hlead hinv
    · exact h.follow hok hacts hbec (fun p hp hn => hlead ⟨p, hp, hn⟩) hinv

theorem Aligned.run {events : List Event} (h : Aligned s) (hok : Permits Admissible s events) :
    Aligned (s.follow events) := by
  induction events generalizing s with
  | nil => exact h
  | cons e rest ih => exact ih (h.step hok.1) hok.2

/-- In every run whose steps are admissible, the whole in-sync set has every record below the
leader's high watermark. -/
theorem in_sync_replicas_hold_exposed_records (config : ReplicaConfig) {replicas : List Nat}
    (hne : replicas ≠ []) (hnodup : replicas.Nodup) {events : List Event}
    (hok : Permits Admissible (start config replicas) events) :
    let s := (start config replicas).follow events
    ∀ n p, s.nodes n = .opened p → p.leader = n → ∀ id ∈ p.isr,
      p.committedHwm ≤ (s.log id).length ∧
        ∀ o < p.committedHwm, (s.log id)[o]? = p.log[o]? := by
  intro s n p hp hlead id hid
  have hinv : Inv s := ((aligned_start config hne hnodup).run hok).inv
  obtain ⟨hn, hlen, heq⟩ := (hinv.orderly n p hp).inSync hlead id hid
  refine ⟨hlen, fun o ho => ?_⟩
  rw [← getElem?_take_of_lt ho, ← heq, getElem?_take_of_lt ho, log_opened hp]

/-! ## Runs of two brokers -/

def twoReplicas : System := start ⟨10, 0, 2⟩ [1, 2]

def message (b : UInt8) : Message := ⟨none, [b], none, []⟩

def storageEnv : Partition.ProduceEnv :=
  { nodeId := 0, cluster := none, groupCommit := false, nowMs := 0, appendFails := none,
    flushFails := none }

/-- Both brokers open the partition; the leader appends one record and the follower fetches it. -/
def replicated : List Event :=
  [.apply 1 0 [1, 2] 0, .apply 2 0 [1, 2] 0, .produce 1 storageEnv [message 7] 1, .request 2,
    .handle 0 0 10, .deliver 0 10, .request 2, .handle 1 0 10]

theorem replicated_record_held :
    (twoReplicas.follow replicated).log 2 = (twoReplicas.follow replicated).log 1 ∧
      1 ≤ ((twoReplicas.follow replicated).log 2).length := by
  have hpermits : Permits Admissible twoReplicas replicated := by decide +kernel
  have hhwm : ((twoReplicas.follow replicated).nodes 1).hwm = 1 := by decide +kernel
  have hisr : 2 ∈ ((twoReplicas.follow replicated).nodes 1).isr := by decide +kernel
  obtain ⟨p, hp, hlead⟩ : (twoReplicas.follow replicated).Leads 1 := by decide +kernel
  rw [hp] at hhwm hisr
  have hheld := in_sync_replicas_hold_exposed_records ⟨10, 0, 2⟩ (by decide) (by decide)
    hpermits 1 p hp hlead 2 hisr
  exact ⟨by decide +kernel, hhwm ▸ hheld.1⟩

/-- The leader restarts before its follower has fetched: the record that only it has is below its
high watermark at once, and the follower is in the in-sync set. -/
theorem restart_exposes_unreplicated_record :
    let s := twoReplicas.follow [.apply 1 0 [1, 2] 0, .apply 2 0 [1, 2] 0,
      .produce 1 storageEnv [message 7] 1, .stop 1, .apply 1 0 [1, 2] 0]
    ((s.nodes 1).leading? 1).isSome = true ∧ (s.nodes 1).hwm = 1 ∧ 2 ∈ (s.nodes 1).isr ∧
      s.log 2 = [] := by
  decide +kernel

end System

end Volant.Cluster
