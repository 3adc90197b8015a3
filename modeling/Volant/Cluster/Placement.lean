-- SUMMARY: Replica placement of a new topic, round robin or spread over racks.
import Volant.Broker.Partition
import Mathlib.Data.List.Destutter
import Mathlib.Data.List.GetD
import Mathlib.Data.List.Sort

/-!
# Replica placement

The controller places the replicas of a partition on `rf` of the configured
brokers, round robin over their sorted ids, or, when at least two racks are
configured, with one rack after the other. A broker's rack is the configured
one, trimmed, and absent if that leaves nothing. There are fewer than `2 ^ 31`
brokers.

Either way the replicas of a partition are `min rf n` different brokers, at
least one; in particular the rack-aware loop always finds a broker to pick.
-/

namespace Volant.Cluster

open List

/-- FNV-1a over the bytes of the name, in 32 bits. -/
def topicHash (name : String) : Nat :=
  name.toUTF8.toList.foldl (fun h b => (Nat.xor h b.toNat * 0x01000193) % 2 ^ 32) 0x811c9dc5

structure BrokerEntry where
  id : Nat
  rack : Option String
deriving DecidableEq, Repr

/-- `sort_unstable` and `dedup`. -/
def sortDedup (ids : List Nat) : List Nat := (ids.insertionSort (· ≤ ·)).destutter (· ≠ ·)

/-- The brokers by id, each id once. -/
def sortBrokers (brokers : List BrokerEntry) : List BrokerEntry :=
  (brokers.insertionSort (·.id ≤ ·.id)).destutter (·.id ≠ ·.id)

def distinctConfiguredRacks (brokers : List BrokerEntry) : Nat :=
  (brokers.filterMap (·.rack)).dedup.length

/-- The number of replicas that a placement on `n` brokers gives. -/
def effectiveRf (rf n : Nat) : Nat := max (min rf n) 1

def assignReplicasRoundRobin (topicName : String) (numPartitions : Nat) (brokerIds : List Nat)
    (rf : Nat) : List (List Nat) :=
  let ids := sortDedup brokerIds
  let n := ids.length
  (List.range numPartitions).map fun p =>
    let start := ((p + topicHash topicName) % 2 ^ 32) % n
    (List.range (effectiveRf rf n)).map fun i => ids.getD ((start + i) % n) 0

/-! ## Racks -/

/-- A broker without a rack is a rack of its own. -/
def rackKey (b : BrokerEntry) : String := b.rack.getD s!"norack-{b.id}"

def rackKeys (brokers : List BrokerEntry) : List String :=
  ((brokers.map rackKey).insertionSort (· ≤ ·)).destutter (· ≠ ·)

def rackMembers (brokers : List BrokerEntry) (key : String) : List Nat :=
  sortDedup ((brokers.filter (rackKey · = key)).map (·.id))

/-- The first member that is not chosen yet, and how many members were passed to get there. -/
def pickMember (chosen : List Nat) : List Nat → Option Nat × Nat
  | [] => (none, 0)
  | id :: rest =>
    if id ∈ chosen then
      let (picked, passed) := pickMember chosen rest
      (picked, passed + 1)
    else (some id, 1)

/-- Try the racks in turn, each from where it was left. -/
def pickRack (racks : List (List Nat)) (first : Nat) (chosen : List Nat) :
    Nat → Nat → (Nat → Nat) → Option Nat × (Nat → Nat)
  | _, 0, nextInRack => (none, nextInRack)
  | attempt, more + 1, nextInRack =>
    let ri := (first + attempt) % racks.length
    match pickMember chosen ((racks.getD ri []).drop (nextInRack ri)) with
    | (some id, passed) => (some id, Function.update nextInRack ri (nextInRack ri + passed))
    | (none, passed) =>
      pickRack racks first chosen (attempt + 1) more
        (Function.update nextInRack ri (nextInRack ri + passed))

/-- The replicas from slot `slot` on; `none` if there is no broker left to pick. -/
def fillSlots (ids : List Nat) (racks : List (List Nat)) (start : Nat) :
    Nat → Nat → (Nat → Nat) → List Nat → Option (List Nat)
  | _, 0, _, replicas => some replicas
  | slot, more + 1, nextInRack, replicas =>
    let (picked, nextInRack) := pickRack racks (start + slot) replicas 0 racks.length nextInRack
    -- any remaining broker, when the racks gave none
    match picked.or (ids.find? (· ∉ replicas)) with
    | none => none
    | some id => fillSlots ids racks start (slot + 1) more nextInRack (replicas ++ [id])

def assignReplicasRackAware (topicName : String) (numPartitions : Nat)
    (brokers : List BrokerEntry) (rf : Nat) : Option (List (List Nat)) :=
  let racks := (rackKeys brokers).map (rackMembers brokers)
  (List.range numPartitions).mapM fun p =>
    fillSlots (brokers.map (·.id)) racks (((p + topicHash topicName) % 2 ^ 32) % racks.length)
      0 (effectiveRf rf brokers.length) (fun _ => 0) []

/-- One replica list per partition; `none` where the code panics. `rackAware` is the environment
switch. -/
def assignReplicas (rackAware : Bool) (topicName : String) (numPartitions : Nat)
    (brokers : List BrokerEntry) (rf : Nat) : Option (List (List Nat)) :=
  if brokers.isEmpty then none
  else
    let list := sortBrokers brokers
    if rackAware && decide (2 ≤ distinctConfiguredRacks list) then
      assignReplicasRackAware topicName numPartitions list rf
    else some (assignReplicasRoundRobin topicName numPartitions (list.map (·.id)) rf)

/-! ## Sorting -/

/-- Without equal neighbours, a sorted list is strictly sorted. -/
theorem pairwise_lt_of_destutter {α : Type} (f : α → Nat) {l : List α}
    (hle : l.Pairwise (f · ≤ f ·)) (hne : l.IsChain (f · ≠ f ·)) : l.Pairwise (f · < f ·) := by
  induction hne with
  | nil => exact List.Pairwise.nil
  | singleton a => exact pairwise_singleton _ a
  | @cons_cons a b rest hab _ ih =>
    obtain ⟨hhead, htail⟩ := pairwise_cons.mp hle
    have hlt : f a < f b := lt_of_le_of_ne (hhead b mem_cons_self) hab
    refine pairwise_cons.mpr ⟨fun x hx => ?_, ih htail⟩
    rcases mem_cons.mp hx with rfl | hx
    · exact hlt
    · exact hlt.trans_le ((pairwise_cons.mp htail).1 x hx)

theorem nodup_sortDedup (ids : List Nat) : (sortDedup ids).Nodup := by
  have hle : (sortDedup ids).Pairwise (· ≤ ·) :=
    (pairwise_insertionSort (· ≤ ·) ids).sublist (destutter_sublist _ _)
  exact (pairwise_lt_of_destutter id hle (isChain_destutter _ _)).imp ne_of_lt

variable {ids : List Nat}

theorem sortDedup_ne_nil (h : ids ≠ []) : sortDedup ids ≠ [] := by
  rw [sortDedup, Ne, destutter_eq_nil]
  intro hnil
  exact h (perm_nil.mp (hnil ▸ (perm_insertionSort (· ≤ ·) ids).symm))

theorem nodup_sortBrokers (brokers : List BrokerEntry) :
    ((sortBrokers brokers).map (·.id)).Nodup := by
  have hle : (sortBrokers brokers).Pairwise (·.id ≤ ·.id) := by
    exact (pairwise_insertionSort _ brokers).sublist (destutter_sublist _ _)
  have hlt := pairwise_lt_of_destutter BrokerEntry.id hle (isChain_destutter _ _)
  exact pairwise_map.mpr (hlt.imp ne_of_lt)

variable {brokers : List BrokerEntry}

theorem sortBrokers_ne_nil (h : brokers ≠ []) : sortBrokers brokers ≠ [] := by
  rw [sortBrokers, Ne, destutter_eq_nil]
  intro hnil
  exact h (perm_nil.mp (hnil ▸ (perm_insertionSort (·.id ≤ ·.id) brokers).symm))

/-! ## A placement is a list of different brokers -/

theorem effectiveRf_pos (rf n : Nat) : 0 < effectiveRf rf n := by
  unfold effectiveRf
  omega

theorem effectiveRf_le {rf n : Nat} (h : 0 < n) : effectiveRf rf n ≤ n := by
  unfold effectiveRf
  omega

/-- Consecutive places around a ring of `n` are different, for at most `n` of them. -/
theorem roundRobin_nodup (hids : ids.Nodup) {k start : Nat} (hk : k ≤ ids.length) :
    ((range k).map fun i => ids.getD ((start + i) % ids.length) 0).Nodup := by
  refine nodup_range.map_on fun i hi j hj heq => ?_
  have hi := mem_range.mp hi
  have hj := mem_range.mp hj
  have hpos : 0 < ids.length := by omega
  have hlt : ∀ m, (start + m) % ids.length < ids.length := fun m => Nat.mod_lt _ hpos
  rw [getD_eq_getElem _ _ (hlt i), getD_eq_getElem _ _ (hlt j), hids.getElem_inj_iff] at heq
  have hmod : i % ids.length = j % ids.length := Nat.ModEq.add_left_cancel' start heq
  rwa [Nat.mod_eq_of_lt (by omega), Nat.mod_eq_of_lt (by omega)] at hmod

theorem pickMember_notMem {chosen members : List Nat} {id : Nat}
    (h : (pickMember chosen members).1 = some id) : id ∉ chosen := by
  induction members with
  | nil => cases h
  | cons m rest ih =>
    simp only [pickMember] at h
    split_ifs at h with hm
    · exact ih h
    · cases h
      exact hm

variable {racks : List (List Nat)}

theorem pickRack_notMem {first : Nat} {chosen : List Nat}
    {attempt more : Nat} {next next' : Nat → Nat} {id : Nat}
    (h : pickRack racks first chosen attempt more next = (some id, next')) : id ∉ chosen := by
  induction more generalizing attempt next with
  | zero => cases h
  | succ more ih =>
    simp only [pickRack] at h
    split at h
    · rename_i passed hpick
      cases h
      exact pickMember_notMem (congrArg Prod.fst hpick)
    · exact ih h

/-- The slots are filled with brokers that are not there yet, as long as there are any. -/
theorem fillSlots_spec {start slot more : Nat}
    {next : Nat → Nat} {replicas : List Nat} (hids : ids.Nodup) (hrep : replicas.Nodup)
    (hroom : replicas.length + more ≤ ids.length) :
    ∃ out, fillSlots ids racks start slot more next replicas = some out ∧ out.Nodup ∧
      out.length = replicas.length + more := by
  induction more generalizing slot next replicas with
  | zero => exact ⟨replicas, rfl, hrep, rfl⟩
  | succ more ih =>
    rcases hpick : pickRack racks (start + slot) replicas 0 racks.length next with ⟨picked, next'⟩
    have hleft : ∃ id ∈ ids, id ∉ replicas := by
      by_contra hnone
      push Not at hnone
      have := (hids.subperm hnone).length_le
      omega
    obtain ⟨id, hid, hnew⟩ : ∃ id, picked.or (ids.find? (· ∉ replicas)) = some id ∧
        id ∉ replicas := by
      cases picked with
      | some id => exact ⟨id, rfl, pickRack_notMem hpick⟩
      | none =>
        obtain ⟨x, hx, hxnew⟩ := hleft
        have hfound : (ids.find? (· ∉ replicas)).isSome = true :=
          find?_isSome.mpr ⟨x, hx, by simpa using hxnew⟩
        obtain ⟨id, hid⟩ := Option.isSome_iff_exists.mp hfound
        exact ⟨id, hid, by simpa using find?_some hid⟩
    have hgrow : (replicas ++ [id]).Nodup := by simpa using hrep.concat hnew
    obtain ⟨out, hout, hnodup, hlen⟩ := @ih (slot + 1) next' (replicas ++ [id]) hgrow
      (by simp; omega)
    refine ⟨out, ?_, hnodup, by simp at hlen; omega⟩
    simp only [fillSlots, hpick, hid]
    exact hout

theorem mapM_fillSlots (ps : List Nat) (hids : ids.Nodup) (start : Nat → Nat)
    (racks : List (List Nat)) {rf : Nat} (hpos : 0 < rf) (hle : rf ≤ ids.length) :
    ∃ sets, ps.mapM (fun p => fillSlots ids racks (start p) 0 rf (fun _ => 0) []) = some sets ∧
      sets.length = ps.length ∧ ∀ replicas ∈ sets, replicas ≠ [] ∧ replicas.Nodup := by
  induction ps with
  | nil => exact ⟨[], rfl, rfl, by simp⟩
  | cons p rest ih =>
    obtain ⟨sets, hsets, hlen, hall⟩ := ih
    obtain ⟨out, hout, hnodup, hsize⟩ := @fillSlots_spec ids racks (start p) 0 rf (fun _ => 0) []
      hids nodup_nil (by simpa using hle)
    refine ⟨out :: sets, by simp [hout, hsets], by simp [hlen], fun replicas hmem => ?_⟩
    rcases mem_cons.mp hmem with rfl | hmem
    · refine ⟨?_, hnodup⟩
      rintro rfl
      omega
    · exact hall replicas hmem

/-- What the controller relies on: a replica list per partition, none empty, none with a broker
twice. -/
theorem assignReplicas_spec (rackAware : Bool) (name : String) (n rf : Nat) (h : brokers ≠ []) :
    ∃ sets, assignReplicas rackAware name n brokers rf = some sets ∧ sets.length = n ∧
      ∀ replicas ∈ sets, replicas ≠ [] ∧ replicas.Nodup := by
  have hempty : brokers.isEmpty = false := by simpa using h
  have hlist : sortBrokers brokers ≠ [] := sortBrokers_ne_nil h
  simp only [assignReplicas, hempty, Bool.false_eq_true, if_false]
  split_ifs
  · -- racks: every partition's slots can be filled
    have hpos : 0 < (sortBrokers brokers).length := length_pos_iff.mpr hlist
    obtain ⟨sets, hsets, hall⟩ := mapM_fillSlots (range n) (nodup_sortBrokers brokers)
      (fun p => (((p + topicHash name) % 2 ^ 32) %
        ((rackKeys (sortBrokers brokers)).map (rackMembers (sortBrokers brokers))).length))
      ((rackKeys (sortBrokers brokers)).map (rackMembers (sortBrokers brokers)))
      (effectiveRf_pos rf _) (by rw [length_map]; exact effectiveRf_le hpos)
    exact ⟨sets, hsets, by simpa using hall.1, hall.2⟩
  · refine ⟨_, rfl, by simp [assignReplicasRoundRobin], fun replicas hmem => ?_⟩
    have hids : (sortBrokers brokers).map (·.id) ≠ [] := by simpa using hlist
    have hpos : 0 < (sortDedup ((sortBrokers brokers).map (·.id))).length :=
      length_pos_iff.mpr (sortDedup_ne_nil hids)
    obtain ⟨p, -, rfl⟩ := mem_map.mp hmem
    refine ⟨?_, roundRobin_nodup (nodup_sortDedup _) (effectiveRf_le hpos)⟩
    have := effectiveRf_pos rf (sortDedup ((sortBrokers brokers).map (·.id))).length
    rw [← length_pos_iff]
    simpa using this

end Volant.Cluster
