-- SUMMARY: In-sync replica sets: shrinking, expanding, and electing a leader from them.
import Volant.Broker.Partition

/-!
# In-sync replicas

How a leader decides which replicas are in sync, and how the controller picks a
leader among them. Broker ids are numbers, instants are nanoseconds.

Every function that changes an in-sync set returns one that begins with the
leader and, besides the leader, has only members of the old set and at most one
replica that asked to join. The order of the set never matters to its readers.
-/

namespace Volant.Cluster

open List Function

/-- Drop the followers that are more than `maxLag` records behind. -/
def shrinkIsr (leader : Nat) (isr : List Nat) (leaderLeo maxLag : Nat) (leoOf : Nat → Nat) :
    List Nat :=
  leader :: isr.filter fun id => decide (id ≠ leader) && decide (leaderLeo - leoOf id ≤ maxLag)

/-- `push` of an id that is not there yet. -/
def pushNew (out : List Nat) (id : Nat) : List Nat :=
  if id ∈ out then out else out ++ [id]

/-- Drop the followers that were last seen caught up more than `maxLagMs` ago. -/
def shrinkIsrByTime (leader : Nat) (isr : List Nat) (maxLagMs now : Nat)
    (lastCaughtUp : Nat → Option Nat) : List Nat :=
  if maxLagMs = 0 then isr.foldl pushNew [leader]
  else
    leader :: isr.filter fun id => decide (id ≠ leader) &&
      (lastCaughtUp id).all fun seen => decide (now - seen ≤ maxLagMs * 10 ^ 6)

def isrRejoinEligible (replicaId : Nat) (replicas : List Nat)
    (leaderLeo replicaLeo committedHwm maxLag : Nat) : Bool :=
  decide (replicaId ∈ replicas) && decide (leaderLeo - replicaLeo ≤ maxLag) &&
    decide (committedHwm ≤ replicaLeo)

/-- Add a replica that is eligible. -/
def expandIsr (leader : Nat) (isr replicas : List Nat) (replicaId : Nat)
    (leaderLeo replicaLeo committedHwm maxLag : Nat) : List Nat :=
  let out := isr.foldl pushNew [leader]
  if decide (replicaId ∉ out) &&
      isrRejoinEligible replicaId replicas leaderLeo replicaLeo committedHwm maxLag then
    out ++ [replicaId]
  else out

/-- The in-sync set after the leader has seen the log end of a fetching replica. -/
def reconcileIsr (leader : Nat) (isr replicas : List Nat)
    (leaderLeo committedHwm maxLag maxLagMs now : Nat) (fetching : Option (Nat × Nat))
    (leoOf : Nat → Nat) (lastCaughtUp : Nat → Option Nat) : List Nat :=
  let afterOffset := shrinkIsr leader isr leaderLeo maxLag leoOf
  let afterTime := shrinkIsrByTime leader afterOffset maxLagMs now lastCaughtUp
  let out := match fetching with
    | some (replicaId, replicaLeo) =>
      expandIsr leader afterTime replicas replicaId leaderLeo replicaLeo committedHwm maxLag
    | none => afterTime
  if leader ∈ out then out else leader :: out

/-- The first live in-sync replica in the order of the replica list. -/
def electLeader (replicas isr live : List Nat) : Option Nat :=
  (replicas.find? fun r => decide (r ∈ isr) && decide (r ∈ live)).or
    (isr.find? fun r => decide (r ∈ live))

/-! ## Members -/

@[simp] theorem mem_pushNew {out : List Nat} {id x : Nat} :
    x ∈ pushNew out id ↔ x ∈ out ∨ x = id := by
  unfold pushNew
  split_ifs with h
  · refine ⟨.inl, ?_⟩
    rintro (hx | rfl)
    · exact hx
    · exact h
  · simp

variable {isr out : List Nat}

theorem mem_foldl_pushNew {x : Nat} : x ∈ isr.foldl pushNew out ↔ x ∈ out ∨ x ∈ isr := by
  induction isr generalizing out with
  | nil => simp
  | cons id rest ih =>
    rw [foldl_cons, ih, mem_pushNew, mem_cons, or_assoc]

theorem nodup_foldl_pushNew (h : out.Nodup) : (isr.foldl pushNew out).Nodup := by
  induction isr generalizing out with
  | nil => exact h
  | cons id rest ih =>
    refine ih ?_
    unfold pushNew
    split_ifs with hid
    · exact h
    · simpa using h.concat hid

section Shrink

variable {leader leaderLeo maxLag maxLagMs now x : Nat} {isr : List Nat} {leoOf : Nat → Nat}
  {lastCaughtUp : Nat → Option Nat}

theorem mem_of_mem_shrinkIsr (h : x ∈ shrinkIsr leader isr leaderLeo maxLag leoOf) :
    x = leader ∨ x ∈ isr :=
  (mem_cons.mp h).imp_right fun hx => (mem_filter.mp hx).1

theorem leader_mem_shrinkIsrByTime :
    leader ∈ shrinkIsrByTime leader isr maxLagMs now lastCaughtUp := by
  unfold shrinkIsrByTime
  split_ifs
  · exact mem_foldl_pushNew.mpr (.inl mem_cons_self)
  · exact mem_cons_self

theorem mem_of_mem_shrinkIsrByTime
    (h : x ∈ shrinkIsrByTime leader isr maxLagMs now lastCaughtUp) : x = leader ∨ x ∈ isr := by
  unfold shrinkIsrByTime at h
  split_ifs at h
  · exact (mem_foldl_pushNew.mp h).imp_left mem_singleton.mp
  · exact (mem_cons.mp h).imp_right fun hx => (mem_filter.mp hx).1

/-- The set without its leader has no duplicates if it had none. -/
theorem nodup_cons_filter {p : Nat → Bool} (h : isr.Nodup) :
    (leader :: isr.filter fun id => decide (id ≠ leader) && p id).Nodup := by
  refine nodup_cons.mpr ⟨fun hmem => ?_, h.filter _⟩
  simp at hmem

theorem nodup_shrinkIsr (h : isr.Nodup) : (shrinkIsr leader isr leaderLeo maxLag leoOf).Nodup :=
  nodup_cons_filter h

theorem nodup_shrinkIsrByTime (h : isr.Nodup) :
    (shrinkIsrByTime leader isr maxLagMs now lastCaughtUp).Nodup := by
  unfold shrinkIsrByTime
  split_ifs
  · exact nodup_foldl_pushNew (nodup_singleton leader)
  · exact nodup_cons_filter h

end Shrink

section Reconcile

variable {leader leaderLeo committedHwm maxLag maxLagMs now replicaId replicaLeo x : Nat}
  {isr replicas : List Nat} {fetching : Option (Nat × Nat)} {leoOf : Nat → Nat}
  {lastCaughtUp : Nat → Option Nat}

theorem leader_mem_expandIsr : leader ∈ expandIsr leader isr replicas replicaId leaderLeo replicaLeo
    committedHwm maxLag := by
  have hout : leader ∈ isr.foldl pushNew [leader] :=
    mem_foldl_pushNew.mpr (.inl mem_cons_self)
  simp only [expandIsr]
  split_ifs
  · exact mem_append_left _ hout
  · exact hout

/-- A new member of the set is a replica whose log reaches the high watermark. -/
theorem mem_of_mem_expandIsr (h : x ∈ expandIsr leader isr replicas replicaId leaderLeo replicaLeo
    committedHwm maxLag) : x = leader ∨ x ∈ isr ∨
      (x = replicaId ∧ x ∈ replicas ∧ committedHwm ≤ replicaLeo) := by
  simp only [expandIsr] at h
  split_ifs at h with hjoin
  · rcases mem_append.mp h with hout | hnew
    · exact (mem_foldl_pushNew.mp hout).imp mem_singleton.mp Or.inl
    · obtain rfl := mem_singleton.mp hnew
      simp only [isrRejoinEligible, Bool.and_eq_true, decide_eq_true_eq] at hjoin
      exact .inr (.inr ⟨rfl, hjoin.2.1.1, hjoin.2.2⟩)
  · exact (mem_foldl_pushNew.mp h).imp mem_singleton.mp Or.inl

theorem nodup_expandIsr : (expandIsr leader isr replicas replicaId leaderLeo replicaLeo committedHwm
    maxLag).Nodup := by
  have hout : (isr.foldl pushNew [leader]).Nodup :=
    nodup_foldl_pushNew (nodup_singleton leader)
  simp only [expandIsr]
  split_ifs with hjoin
  · simp only [Bool.and_eq_true, decide_eq_true_eq] at hjoin
    simpa using hout.concat hjoin.1
  · exact hout

theorem leader_mem_reconcileIsr : leader ∈ reconcileIsr leader isr replicas leaderLeo committedHwm
    maxLag maxLagMs now fetching leoOf lastCaughtUp := by
  simp only [reconcileIsr]
  split_ifs with h
  · exact h
  · exact mem_cons_self

/-- Who is in sync afterwards. -/
theorem mem_of_mem_reconcileIsr (h : x ∈ reconcileIsr leader isr replicas leaderLeo committedHwm
    maxLag maxLagMs now fetching leoOf lastCaughtUp) : x = leader ∨ x ∈ isr ∨
      ∃ replicaLeo, fetching = some (x, replicaLeo) ∧ x ∈ replicas ∧ committedHwm ≤ replicaLeo := by
  have hshrunk : ∀ {y}, y ∈ shrinkIsrByTime leader (shrinkIsr leader isr leaderLeo maxLag leoOf)
      maxLagMs now lastCaughtUp → y = leader ∨ y ∈ isr := by
    intro y hy
    rcases mem_of_mem_shrinkIsrByTime hy with rfl | hy
    · exact .inl rfl
    · exact mem_of_mem_shrinkIsr hy
  simp only [reconcileIsr] at h
  cases fetching with
  | none =>
    rw [if_pos leader_mem_shrinkIsrByTime] at h
    exact (hshrunk h).imp_right Or.inl
  | some f =>
    obtain ⟨replicaId, replicaLeo⟩ := f
    rw [if_pos leader_mem_expandIsr] at h
    rcases mem_of_mem_expandIsr h with rfl | hx | ⟨rfl, hrep, hhwm⟩
    · exact .inl rfl
    · exact (hshrunk hx).imp_right Or.inl
    · exact .inr (.inr ⟨replicaLeo, rfl, hrep, hhwm⟩)

theorem nodup_reconcileIsr (h : isr.Nodup) : (reconcileIsr leader isr replicas leaderLeo
    committedHwm maxLag maxLagMs now fetching leoOf lastCaughtUp).Nodup := by
  simp only [reconcileIsr]
  cases fetching with
  | none =>
    rw [if_pos leader_mem_shrinkIsrByTime]
    exact nodup_shrinkIsrByTime (nodup_shrinkIsr h)
  | some f =>
    rw [if_pos leader_mem_expandIsr]
    exact nodup_expandIsr

end Reconcile

/-! ## Reconciling is exact -/

theorem foldl_pushNew_eq (h : isr.Nodup) : isr.foldl pushNew out = out ++ isr.filter (· ∉ out) := by
  induction isr generalizing out with
  | nil => simp
  | cons id rest ih =>
    obtain ⟨hid, hrest⟩ := nodup_cons.mp h
    rw [foldl_cons, ih hrest, pushNew]
    split_ifs with hmem
    · simp [hmem]
    · have hsame : rest.filter (· ∉ out ++ [id]) = rest.filter (· ∉ out) := by
        refine filter_congr fun x hx => ?_
        have hne : x ≠ id := fun heq => hid (heq ▸ hx)
        simp [hne]
      rw [hsame, append_assoc, singleton_append, filter_cons_of_pos (by simpa using hmem)]

/-- What `reconcile_isr` is called with. -/
structure Observation where
  leader : Nat
  isr : List Nat
  replicas : List Nat
  leaderLeo : Nat
  committedHwm : Nat
  maxLag : Nat
  maxLagMs : Nat
  now : Nat
  fetching : Option (Nat × Nat)
  leoOf : Nat → Nat
  lastCaughtUp : Nat → Option Nat

namespace Observation

variable (o : Observation)

def afterOffset : List Nat := shrinkIsr o.leader o.isr o.leaderLeo o.maxLag o.leoOf

def afterTime : List Nat :=
  shrinkIsrByTime o.leader o.afterOffset o.maxLagMs o.now o.lastCaughtUp

/-- Both results: the new set, and how many followers the time lag alone takes out. -/
def reconcile : List Nat × Nat :=
  (reconcileIsr o.leader o.isr o.replicas o.leaderLeo o.committedHwm o.maxLag o.maxLagMs o.now
    o.fetching o.leoOf o.lastCaughtUp,
    (o.afterOffset.filter fun id => decide (id ≠ o.leader) && decide (id ∉ o.afterTime)).length)

def InOffsetLag (leo : Nat) : Prop := o.leaderLeo - leo ≤ o.maxLag

/-- Without a limit, or without an observation, a follower is in time. -/
def InTimeLag (id : Nat) : Prop :=
  o.maxLagMs = 0 ∨ ∀ seen ∈ o.lastCaughtUp id, o.now - seen ≤ o.maxLagMs * 10 ^ 6

instance (leo : Nat) : Decidable (o.InOffsetLag leo) := inferInstanceAs (Decidable (_ ≤ _))

instance (id : Nat) : Decidable (o.InTimeLag id) := inferInstanceAs (Decidable (_ ∨ _))

/-- A replica that fetches from `leo` may come back. -/
def Rejoins (id : Nat) : Prop :=
  ∃ leo, o.fetching = some (id, leo) ∧ id ∈ o.replicas ∧ o.InOffsetLag leo ∧ o.committedHwm ≤ leo

/-- The same once more, with the new set, and the fetching replica's log end and time on record. -/
def again : Observation :=
  { o with
    isr := o.reconcile.1
    leoOf := o.fetching.elim o.leoOf fun f => update o.leoOf f.1 f.2
    lastCaughtUp := o.fetching.elim o.lastCaughtUp fun f => update o.lastCaughtUp f.1 (some o.now) }

/-- The followers within both lags. -/
def kept : List Nat :=
  o.isr.filter fun id => id ≠ o.leader ∧ o.InOffsetLag (o.leoOf id) ∧ o.InTimeLag id

/-- The fetching replica, if it comes back. -/
def rejoining : List Nat :=
  o.fetching.elim [] fun f => if decide (f.1 ∉ o.leader :: o.kept) &&
    isrRejoinEligible f.1 o.replicas o.leaderLeo f.2 o.committedHwm o.maxLag then [f.1] else []

variable {o} {id : Nat}

theorem afterTime_eq (h : o.isr.Nodup) : o.afterTime = o.leader :: o.kept := by
  have hoffset : o.afterOffset.Nodup := nodup_shrinkIsr h
  unfold afterTime shrinkIsrByTime
  split_ifs with hzero
  · rw [foldl_pushNew_eq hoffset, singleton_append, afterOffset, shrinkIsr,
      filter_cons_of_neg (by simp), filter_filter]
    refine congrArg _ (filter_congr fun id _ => ?_)
    simp [InOffsetLag, InTimeLag, hzero]
  · rw [afterOffset, shrinkIsr, filter_cons_of_neg (by simp), filter_filter]
    refine congrArg _ (filter_congr fun id _ => ?_)
    rw [Bool.eq_iff_iff]
    simp only [InTimeLag, hzero, Bool.and_eq_true, decide_eq_true_eq, Option.all_eq_true, false_or]
    simp only [InOffsetLag, Option.mem_def]
    tauto

theorem mem_kept : id ∈ o.kept ↔
    id ∈ o.isr ∧ id ≠ o.leader ∧ o.InOffsetLag (o.leoOf id) ∧ o.InTimeLag id := by
  simp [kept]

theorem mem_rejoining : id ∈ o.rejoining ↔ id ∉ o.leader :: o.kept ∧ o.Rejoins id := by
  unfold rejoining Rejoins
  cases o.fetching with
  | none => simp
  | some f =>
    obtain ⟨replicaId, replicaLeo⟩ := f
    simp only [Option.elim_some, mem_ite_nil_right, isrRejoinEligible, Bool.and_eq_true,
      decide_eq_true_eq, mem_singleton, Option.some.injEq, Prod.mk.injEq]
    constructor
    · rintro ⟨⟨hnew, ⟨hrep, hlag⟩, hhwm⟩, rfl⟩
      exact ⟨hnew, replicaLeo, ⟨rfl, rfl⟩, hrep, hlag, hhwm⟩
    · rintro ⟨hnew, leo, ⟨rfl, rfl⟩, hrep, hlag, hhwm⟩
      exact ⟨⟨hnew, ⟨hrep, hlag⟩, hhwm⟩, rfl⟩

theorem leader_notMem_kept : o.leader ∉ o.kept := fun hmem => (mem_kept.mp hmem).2.1 rfl

theorem reconcile_eq (h : o.isr.Nodup) : o.reconcile.1 = o.leader :: (o.kept ++ o.rejoining) := by
  have hset := afterTime_eq h
  have hkept : (o.leader :: o.kept).Nodup := nodup_cons.mpr ⟨leader_notMem_kept, h.filter _⟩
  unfold afterTime afterOffset at hset
  simp only [reconcile, reconcileIsr, hset, rejoining]
  cases o.fetching with
  | none => simp
  | some f =>
    have hout : (o.leader :: o.kept).foldl pushNew [o.leader] = o.leader :: o.kept := by
      rw [foldl_pushNew_eq hkept, filter_cons_of_neg (by simp), singleton_append]
      refine congrArg _ (filter_eq_self.mpr fun id hid => ?_)
      simpa using (mem_kept.mp hid).2.1
    rw [if_pos leader_mem_expandIsr]
    simp only [expandIsr, Option.elim_some, hout]
    split_ifs <;> simp

theorem nodup_reconcile (h : o.isr.Nodup) : o.reconcile.1.Nodup := nodup_reconcileIsr h

theorem mem_tail_reconcile (h : o.isr.Nodup) : id ∈ o.reconcile.1.tail ↔ id ≠ o.leader ∧
    (id ∈ o.isr ∧ o.InOffsetLag (o.leoOf id) ∧ o.InTimeLag id ∨ o.Rejoins id) := by
  rw [reconcile_eq h, tail_cons, mem_append, mem_rejoining, mem_cons, mem_kept]
  tauto

theorem reconcile_snd (h : o.isr.Nodup) : o.reconcile.2 = (o.isr.filter fun id =>
    id ≠ o.leader ∧ o.InOffsetLag (o.leoOf id) ∧ ¬ o.InTimeLag id).length := by
  simp only [reconcile, afterTime_eq h, afterOffset, shrinkIsr]
  rw [filter_cons_of_neg (by simp), filter_filter]
  refine congrArg _ (filter_congr fun id hid => ?_)
  rw [Bool.eq_iff_iff]
  simp only [mem_cons, mem_kept, hid, Bool.and_eq_true, decide_eq_true_eq]
  unfold InOffsetLag
  tauto

/-- Whoever is in the new set stays in it. -/
theorem kept_again (h : o.isr.Nodup) (hleo : ∀ f ∈ o.fetching, o.leoOf f.1 = f.2) :
    o.again.kept = o.kept ++ o.rejoining := by
  have hleoOf : o.again.leoOf = o.leoOf := by
    unfold again
    cases hfetch : o.fetching with
    | none => simp
    | some f => simpa [hfetch] using (hleo f hfetch).symm
  have htime : ∀ id, o.InTimeLag id ∨ o.Rejoins id → o.again.InTimeLag id := by
    intro id hid
    unfold InTimeLag again
    cases hfetch : o.fetching with
    | none => simpa [hfetch, Rejoins, InTimeLag] using hid
    | some f =>
      rcases eq_or_ne id f.1 with rfl | hne
      · simp
      · simpa [hfetch, hne, Rejoins, InTimeLag, Prod.ext_iff, hne.symm] using hid
  have hisr : o.again.isr = o.leader :: (o.kept ++ o.rejoining) := reconcile_eq h
  rw [kept, hisr, filter_cons_of_neg (by simp [again]), hleoOf]
  refine filter_eq_self.mpr fun id hid => decide_eq_true ?_
  rcases mem_append.mp hid with hid | hid
  · obtain ⟨-, hne, hnear, hseen⟩ := mem_kept.mp hid
    exact ⟨hne, hnear, htime id (.inl hseen)⟩
  · obtain ⟨hnew, hjoins⟩ := mem_rejoining.mp hid
    have htime := htime id (.inr hjoins)
    obtain ⟨leo, hfetch, -, hnear, -⟩ := hjoins
    have hrecord : o.leoOf id = leo := hleo _ hfetch
    exact ⟨fun heq => hnew (heq ▸ mem_cons_self), hrecord ▸ hnear, htime⟩

theorem reconcile_again (h : o.isr.Nodup) (hleo : ∀ f ∈ o.fetching, o.leoOf f.1 = f.2) :
    o.again.reconcile.1 = o.reconcile.1 := by
  have hnodup : o.again.isr.Nodup := nodup_reconcile h
  have hnone : o.again.rejoining = [] := by
    refine eq_nil_iff_forall_not_mem.mpr fun id hid => ?_
    obtain ⟨hnew, hjoins⟩ := mem_rejoining.mp hid
    rw [kept_again h hleo, mem_cons, mem_append, not_or, not_or] at hnew
    refine hnew.2.2 (mem_rejoining.mpr ⟨fun hmem => ?_, hjoins⟩)
    exact (mem_cons.mp hmem).elim hnew.1 hnew.2.1
  rw [reconcile_eq hnodup, hnone, kept_again h hleo, append_nil, reconcile_eq h]
  rfl

/-- The set after an observation has the leader first, the old followers within both lags, and the
fetching replica if it is a replica within the offset lag that has what is committed. The time lag
counts whom it alone takes out. The same again changes nothing, if the leader had the fetching
replica's log end on record, and a follower whose log is longer stays. -/
theorem reconcile_exact (h : o.isr.Nodup) :
    o.reconcile.1.Nodup ∧ o.reconcile.1.head? = some o.leader ∧
      (∀ id, id ∈ o.reconcile.1.tail ↔ id ≠ o.leader ∧
        (id ∈ o.isr ∧ o.InOffsetLag (o.leoOf id) ∧ o.InTimeLag id ∨ o.Rejoins id)) ∧
      o.reconcile.2 = (o.isr.filter fun id =>
        id ≠ o.leader ∧ o.InOffsetLag (o.leoOf id) ∧ ¬ o.InTimeLag id).length ∧
      ((∀ f ∈ o.fetching, o.leoOf f.1 = f.2) → o.again.reconcile.1 = o.reconcile.1) ∧
      ∀ id leoOf fetching, o.leoOf id ≤ leoOf id →
        (∀ leo, o.fetching = some (id, leo) → ∃ leo', leo ≤ leo' ∧ fetching = some (id, leo')) →
        id ∈ o.reconcile.1.tail → id ∈ { o with leoOf, fetching }.reconcile.1.tail := by
  refine ⟨nodup_reconcile h, by rw [reconcile_eq h]; rfl, fun id => mem_tail_reconcile h,
    reconcile_snd h, reconcile_again h, fun id leoOf fetching hleo hfetch hid => ?_⟩
  rw [mem_tail_reconcile h] at hid
  refine (mem_tail_reconcile (o := { o with leoOf, fetching }) h).mpr ⟨hid.1, hid.2.imp ?_ ?_⟩
  · rintro ⟨hold, hnear, htime⟩
    exact ⟨hold, le_trans (Nat.sub_le_sub_left hleo _) hnear, htime⟩
  · rintro ⟨leo, heq, hrep, hnear, hhwm⟩
    obtain ⟨leo', hle, heq'⟩ := hfetch leo heq
    exact ⟨leo', heq', hrep, le_trans (Nat.sub_le_sub_left hle _) hnear, hhwm.trans hle⟩

/-- Replica 2 fetches from offset 3 and comes back into the set. -/
def comesBack : Observation :=
  { leader := 1, isr := [1, 3], replicas := [1, 2, 3], leaderLeo := 5, committedHwm := 2, maxLag := 4
    maxLagMs := 1000, now := 7, fetching := some (2, 3), leoOf := fun _ => 3
    lastCaughtUp := fun _ => none }

theorem comes_back_in_sync : comesBack.reconcile.1 = [1, 3, 2] ∧
    comesBack.again.reconcile.1 = comesBack.reconcile.1 :=
  ⟨by decide +kernel, (reconcile_exact (o := comesBack) (by decide)).2.2.2.2.1 (by decide)⟩

/-- Replica 2 stays in the set by the log end on record, and leaves it when its fetch is recorded. -/
def fellBack : Observation :=
  { comesBack with isr := [1, 2], leaderLeo := 9, fetching := some (2, 0), leoOf := fun _ => 9 }

theorem reconcile_again_differs : fellBack.isr.Nodup ∧ fellBack.leader ∈ fellBack.isr ∧
    fellBack.isr ⊆ fellBack.replicas ∧ fellBack.reconcile.1 = [1, 2] ∧
    fellBack.again.reconcile.1 = [1] := by
  decide +kernel

end Observation
variable {replicas isr live : List Nat}

theorem mem_of_electLeader {r : Nat}
    (h : electLeader replicas isr live = some r) : r ∈ isr ∧ r ∈ live := by
  rcases Option.or_eq_some_iff.mp h with hfirst | ⟨-, hany⟩
  · have := find?_some hfirst
    simpa using this
  · have hlive := find?_some hany
    exact ⟨mem_of_find?_eq_some hany, by simpa using hlive⟩

/-- A live in-sync replica is enough for an election. -/
theorem electLeader_isSome {r : Nat} (hisr : r ∈ isr)
    (hlive : r ∈ live) : (electLeader replicas isr live).isSome = true := by
  have hany : (isr.find? fun r => decide (r ∈ live)).isSome = true :=
    find?_isSome.mpr ⟨r, hisr, by simpa using hlive⟩
  simp [electLeader, hany]

end Volant.Cluster
