-- SUMMARY: Safety of the partition Raft logs of a cluster, in runs without stale or shortening appends.
import Volant.Cluster.PartitionRaft
import Mathlib.Data.Fintype.Pi
import Mathlib.Data.Set.Finite.Lemmas

/-!
# Safety of the partition Raft logs

A cluster of replicas, with messages that leaders build from their logs and
that arrive in any order, twice, or never. Terms begin one after the other, and
whoever begins a term holds every entry committed so far.

The logs of leaders explain every log: up to an entry of term `t`, a log is
that of the leader of term `t`. This holds whatever arrives. Committed entries
are safe as long as no append is older than the replica's term, none cuts into
what is committed without putting it back, none commits what it has not
compared, and only the newest leader commits. The code checks none of these.
-/

namespace Volant.Cluster

open List Function

/-! ## The functions on logs without gaps -/

/-- The entries carry the indices after `from_`. -/
def NumberedFrom (from_ : Nat) (log : List PartitionRaftEntry) : Prop :=
  ∀ i e, log[i]? = some e → e.index = from_ + i + 1

theorem NumberedFrom.take {from_ : Nat} {log : List PartitionRaftEntry} (h : NumberedFrom from_ log)
    (k : Nat) : NumberedFrom from_ (log.take k) := by
  intro i e he
  rw [getElem?_take] at he
  split at he
  · exact h i e he
  · cases he

namespace PartitionRaft

variable {g : PartitionRaft} {log more : List PartitionRaftEntry} {prevLogIndex : Nat}

theorem lastIndexOf_of_numbered (h : NumberedFrom 0 log) : lastIndexOf log = log.length := by
  unfold lastIndexOf
  rw [getLast?_eq_getElem?]
  cases hlast : log[log.length - 1]? with
  | none =>
    have := getElem?_eq_none_iff.mp hlast
    simp only [Option.map_none, Option.getD_none]
    omega
  | some e =>
    have hlt := (List.getElem?_eq_some_iff.mp hlast).1
    simp only [Option.map_some, Option.getD_some]
    rw [h _ e hlast]
    omega

theorem NumberedFrom.append (h : NumberedFrom 0 log) (hmore : NumberedFrom log.length more) :
    NumberedFrom 0 (log ++ more) := by
  intro i e he
  rcases Nat.lt_or_ge i log.length with hlt | hge
  · rw [getElem?_append_left hlt] at he
    exact h i e he
  · rw [getElem?_append_right hge] at he
    rw [hmore _ e he]
    omega

theorem pushEntries_of_numbered (h : NumberedFrom 0 log) (hmore : NumberedFrom log.length more) :
    pushEntries log more = (true, log ++ more) := by
  induction more generalizing log with
  | nil => simp [pushEntries]
  | cons e rest ih =>
    have hindex : e.index = lastIndexOf log + 1 := by
      rw [lastIndexOf_of_numbered h]
      exact hmore 0 e rfl
    have hone : NumberedFrom log.length [e] := by
      intro i e' he'
      cases i with
      | zero => cases he'; exact hmore 0 e rfl
      | succ i => cases he'
    rw [pushEntries, if_neg (not_not.mpr hindex), ih (NumberedFrom.append h hone)]
    · rw [append_assoc]
      rfl
    · intro i e' he'
      rw [hmore (i + 1) e' (by simpa using he'), length_append, length_singleton]
      omega

/-- The entry before the new ones is in the log, with the term the leader gives. -/
theorem prevMatches_iff {prevLogTerm : Nat} (h : NumberedFrom 0 g.entries) :
    g.prevMatches prevLogIndex prevLogTerm = true ↔ (prevLogIndex = 0 ∧ prevLogTerm = 0) ∨
        (0 < prevLogIndex ∧ ∃ e, g.entries[prevLogIndex - 1]? = some e ∧ e.term = prevLogTerm) := by
  unfold prevMatches
  split
  next hpos =>
    cases he : g.entries[prevLogIndex - 1]? with
    | none =>
      simp
      omega
    | some e =>
      have hindex : e.index = prevLogIndex := by
        rw [h _ e he]
        omega
      simp [hindex, hpos]
      omega
  next hzero =>
    have hzero : prevLogIndex = 0 := by omega
    simp [hzero]

theorem length_of_prevMatches {prevLogTerm : Nat} (h : NumberedFrom 0 g.entries)
    (hprev : g.prevMatches prevLogIndex prevLogTerm = true) : prevLogIndex ≤ g.entries.length := by
  rcases (prevMatches_iff h).mp hprev with ⟨hzero, -⟩ | ⟨hpos, e, he, -⟩
  · omega
  · have hlt := (List.getElem?_eq_some_iff.mp he).1
    omega

/-- Entries that follow `prevLogIndex` replace what is there. -/
theorem pushEntries_truncateFor (h : NumberedFrom 0 log) (hmore : NumberedFrom prevLogIndex more)
    (hlen : prevLogIndex ≤ log.length) : pushEntries (truncateFor log more) more =
      (true, if more = [] then log else log.take prevLogIndex ++ more) := by
  cases more with
  | nil => rfl
  | cons first rest =>
    have hfirst : first.index - 1 = prevLogIndex := by
      rw [hmore 0 first rfl]
      omega
    rw [truncateFor, hfirst]
    refine pushEntries_of_numbered (h.take prevLogIndex) ?_
    rw [length_take, min_eq_left hlen]
    exact hmore

/-- Only the term moves, and perhaps the vote. -/
theorem ensureTerm_eq (term : Nat) : ∃ votedFor, g.ensureTerm term =
    { g with currentTerm := max g.currentTerm term, votedFor } := by
  unfold ensureTerm
  split
  next hlt => exact ⟨none, by rw [max_eq_right hlt.le]⟩
  next hge => exact ⟨g.votedFor, by rw [max_eq_left (Nat.le_of_not_lt hge)]⟩

/-- The exits of `appendEntries` on logs without gaps. -/
theorem appendEntries_cases (term prevLogIndex prevLogTerm leaderCommit : Nat)
    (h : NumberedFrom 0 g.entries) (hmore : NumberedFrom prevLogIndex more) :
    let g' := (g.appendEntries term prevLogIndex prevLogTerm more leaderCommit).2
    g'.currentTerm = max g.currentTerm term ∧ g'.lastApplied = g.lastApplied ∧
      ((g'.entries = g.entries ∧ g'.commitIndex = g.commitIndex) ∨
        g.prevMatches prevLogIndex prevLogTerm = true ∧
          g'.entries = (if more = [] then g.entries else g.entries.take prevLogIndex ++ more) ∧
          g'.commitIndex = max g.commitIndex (min leaderCommit g'.entries.length)) := by
  intro g'
  have hg' : g' = (g.appendEntries term prevLogIndex prevLogTerm more leaderCommit).2 := rfl
  obtain ⟨votedFor, hterm⟩ := ensureTerm_eq (g := g) term
  unfold ensureTerm at hterm
  simp only [appendEntries, hterm] at hg'
  have hprev : ({ g with currentTerm := max g.currentTerm term, votedFor } :
      PartitionRaft).prevMatches prevLogIndex prevLogTerm =
        g.prevMatches prevLogIndex prevLogTerm := rfl
  rw [hprev] at hg'
  cases hmatch : g.prevMatches prevLogIndex prevLogTerm with
  | false =>
    simp only [hmatch, Bool.not_false, if_true] at hg'
    rw [hg']
    exact ⟨rfl, rfl, .inl ⟨rfl, rfl⟩⟩
  | true =>
    have hlen := length_of_prevMatches h hmatch
    simp only [hmatch, Bool.not_true, Bool.false_eq_true, if_false,
      pushEntries_truncateFor h hmore hlen] at hg'
    have hnumbered : NumberedFrom 0
        (if more = [] then g.entries else g.entries.take prevLogIndex ++ more) := by
      split
      · exact h
      · refine NumberedFrom.append (h.take _) ?_
        rw [length_take, min_eq_left hlen]
        exact hmore
    generalize (if more = [] then g.entries else g.entries.take prevLogIndex ++ more) = log'
      at hg' hnumbered
    simp only [lastIndex, lastIndexOf_of_numbered hnumbered] at hg'
    split at hg'
    next hlt =>
      rw [hg']
      exact ⟨rfl, rfl, .inr ⟨rfl, rfl, (max_eq_right hlt.le).symm⟩⟩
    next hge =>
      rw [hg']
      exact ⟨rfl, rfl, .inr ⟨rfl, rfl, (max_eq_left (Nat.le_of_not_lt hge)).symm⟩⟩

theorem tryCommitMajority_cases (h : NumberedFrom 0 g.entries) (replicaCount : Nat) :
    let g' := (g.tryCommitMajority replicaCount).2
    g' = g ∨ ∃ target, g.commitIndex < target ∧ target ≤ g.entries.length ∧
      g' = { g with commitIndex := target } := by
  intro g'
  have hg' : g' = (g.tryCommitMajority replicaCount).2 := rfl
  unfold tryCommitMajority at hg'
  split at hg'
  · exact .inl hg'
  · dsimp only at hg'
    split at hg'
    next hlt =>
      refine .inr ⟨_, hlt, ?_, hg'⟩
      rw [lastIndex, lastIndexOf_of_numbered h]
      exact min_le_right _ _
    · exact .inl hg'

theorem appendProduce_eq (h : NumberedFrom 0 g.entries) (hterm : g.currentTerm ≠ 0)
    (offset crc : Nat) :
    (g.appendProduce offset crc).2 = { g with
      entries := g.entries ++ [⟨g.currentTerm, g.entries.length + 1, ⟨offset, crc⟩⟩] } := by
  simp [appendProduce, hterm, lastIndex, lastIndexOf_of_numbered h]

theorem length_entriesFrom_le (next n : Nat) : (g.entriesFrom next n).length ≤ n := by
  induction n generalizing next with
  | zero => exact le_refl 0
  | succ n ih =>
    unfold entriesFrom
    split
    · exact Nat.zero_le _
    · exact Nat.succ_le_succ (ih _)

theorem recordVote_frame (term candidate : Nat) :
    let g' := (g.recordVote term candidate).2
    g.currentTerm ≤ g'.currentTerm ∧ g'.entries = g.entries ∧ g'.commitIndex = g.commitIndex ∧
      g'.lastApplied = g.lastApplied := by
  intro g'
  have hg' : g' = (g.recordVote term candidate).2 := rfl
  obtain ⟨votedFor, hterm⟩ := ensureTerm_eq (g := g) term
  unfold ensureTerm at hterm
  simp only [recordVote, hterm] at hg'
  split at hg'
  · rw [hg']
    exact ⟨le_max_left _ _, rfl, rfl, rfl⟩
  · split at hg' <;> rw [hg'] <;> exact ⟨le_max_left _ _, rfl, rfl, rfl⟩

end PartitionRaft

/-! ## The cluster -/

/-- An append as its leader sent it. -/
structure RaftAppend (ι : Type) where
  sender : ι
  term : Nat
  prevLogIndex : Nat
  prevLogTerm : Nat
  entries : List PartitionRaftEntry
  leaderCommit : Nat

/-- The replicas, all appends ever sent, and who has led which term. -/
structure RaftCluster (ι : Type) where
  nodes : ι → PartitionRaft
  appends : List (RaftAppend ι)
  leaders : List (Nat × ι)

inductive RaftEvent (ι : Type) where
  /-- A replica begins a term. -/
  | lead (n : ι) (term : Nat)
  | produce (n : ι) (offset crc : Nat)
  /-- The leader sends `count` entries after the index `prev`. -/
  | send (n : ι) (prev count : Nat)
  | deliver (m : RaftAppend ι) (n : ι)
  | recordMatch (n : ι) (replicaId index : Nat)
  | commit (n : ι) (replicaCount : Nat)
  | apply (n : ι)
  | vote (n : ι) (term candidate : Nat)

namespace RaftCluster

variable {ι : Type} {log log' : List PartitionRaftEntry} {i : Nat} {e : PartitionRaftEntry}
  {m : RaftAppend ι} {n : ι} {g : PartitionRaft}

def setNode [DecidableEq ι] (c : RaftCluster ι) (n : ι) (g : PartitionRaft) : RaftCluster ι :=
  { c with nodes := update c.nodes n g }

/-- The append that a leader builds from its log. -/
def appendOf (c : RaftCluster ι) (n : ι) (prev count : Nat) : RaftAppend ι :=
  let g := c.nodes n
  { sender := n, term := g.currentTerm, prevLogIndex := prev, prevLogTerm := g.termAt prev
    entries := (g.entries.drop prev).take count, leaderCommit := g.commitIndex }

def step [DecidableEq ι] (c : RaftCluster ι) : RaftEvent ι → RaftCluster ι
  | .lead n term =>
    { c.setNode n ((c.nodes n).ensureTerm term) with leaders := (term, n) :: c.leaders }
  | .produce n offset crc => c.setNode n ((c.nodes n).appendProduce offset crc).2
  | .send n prev count => { c with appends := c.appendOf n prev count :: c.appends }
  | .deliver m n => c.setNode n
    ((c.nodes n).appendEntries m.term m.prevLogIndex m.prevLogTerm m.entries m.leaderCommit).2
  | .recordMatch n replicaId index => c.setNode n ((c.nodes n).recordMatch replicaId index)
  | .commit n replicaCount => c.setNode n ((c.nodes n).tryCommitMajority replicaCount).2
  | .apply n => c.setNode n (c.nodes n).takeEntriesToApply.2
  | .vote n term candidate => c.setNode n ((c.nodes n).recordVote term candidate).2

/-- The replica leads its current term. -/
def Leads (c : RaftCluster ι) (n : ι) : Prop := ((c.nodes n).currentTerm, n) ∈ c.leaders

/-- The replica has every entry that some replica has committed. -/
def HoldsCommitted (c : RaftCluster ι) (n : ι) : Prop :=
  ∀ n', ∀ i < (c.nodes n').commitIndex, (c.nodes n).entries[i]? = (c.nodes n').entries[i]?

def Enabled (c : RaftCluster ι) : RaftEvent ι → Prop
  | .lead n term => (∀ l ∈ c.leaders, l.1 < term) ∧ 0 < term ∧ (c.nodes n).currentTerm ≤ term ∧
    c.HoldsCommitted n
  | .produce n _ _ => c.Leads n
  | .send n prev _ => c.Leads n ∧ prev ≤ (c.nodes n).entries.length
  | .deliver m n => m ∈ c.appends ∧ n ≠ m.sender
  | .commit n _ => c.Leads n
  | .recordMatch _ _ _ | .apply _ | .vote _ _ _ => True

/-- The append is not older than the replica's term. If it has entries, they reach what the
replica has committed; if not, it commits only what it compares. -/
def Sound (g : PartitionRaft) (m : RaftAppend ι) : Prop :=
  g.currentTerm ≤ m.term ∧
    if m.entries = [] then min m.leaderCommit g.lastIndex ≤ max m.prevLogIndex g.commitIndex
    else g.commitIndex ≤ m.prevLogIndex + m.entries.length

/-- Appends are sound, and only the newest leader commits. -/
def Careful (c : RaftCluster ι) : RaftEvent ι → Prop
  | .deliver m n => Sound (c.nodes n) m
  | .commit n _ => ∀ l ∈ c.leaders, l.1 ≤ (c.nodes n).currentTerm
  | _ => True

def start : RaftCluster ι := { nodes := fun _ => .empty, appends := [], leaders := [] }

/-- The states that careful steps lead to. -/
inductive Run [DecidableEq ι] (c : RaftCluster ι) : RaftCluster ι → Prop where
  | refl : Run c c
  | step {c' : RaftCluster ι} (h : Run c c') (e : RaftEvent ι) (henabled : c'.Enabled e)
      (hcareful : c'.Careful e) : Run c (c'.step e)

/-- What a replica has committed. -/
def committed (g : PartitionRaft) : List PartitionRaftEntry := g.entries.take g.commitIndex

/-! ## The logs of the leaders -/

/-- Up to any of its entries, a log is the log of the leader of that entry's term. -/
def Explained (logs : Nat → List PartitionRaftEntry) (log : List PartitionRaftEntry) : Prop :=
  ∀ i (e : PartitionRaftEntry), log[i]? = some e → log.take (i + 1) <+: logs e.term

variable {logs : Nat → List PartitionRaftEntry} {c : RaftCluster ι}

theorem Explained.take (h : Explained logs log) (k : Nat) : Explained logs (log.take k) := by
  intro i e he
  rw [getElem?_take] at he
  split at he
  next hlt =>
    rw [take_take, min_eq_left (by omega)]
    exact h i e he
  next => cases he

theorem Explained.mono {logs' : Nat → List PartitionRaftEntry} (h : Explained logs log)
    (hgrow : ∀ e ∈ log, logs e.term <+: logs' e.term) : Explained logs' log :=
  fun i e he => (h i e he).trans (hgrow e (mem_of_getElem? he))

/-- Two explained logs with an entry of one term at the same place agree up to there. -/
theorem Explained.agree (h : Explained logs log) (h' : Explained logs log')
    {e' : PartitionRaftEntry} (he : log[i]? = some e) (he' : log'[i]? = some e')
    (hterm : e.term = e'.term) : log.take (i + 1) = log'.take (i + 1) := by
  have hlen : (log.take (i + 1)).length = (log'.take (i + 1)).length := by
    have hlt := (List.getElem?_eq_some_iff.mp he).1
    have hlt' := (List.getElem?_eq_some_iff.mp he').1
    rw [length_take, length_take]
    omega
  have hp := h i e he
  have hp' := h' i e' he'
  rw [← hterm] at hp'
  exact (prefix_of_prefix_length_le hp hp' hlen.le).eq_of_length hlen

/-- The append is a piece of its leader's log. -/
structure Cut (log : List PartitionRaftEntry) (m : RaftAppend ι) : Prop where
  prev_le : m.prevLogIndex ≤ log.length
  prev_term : m.prevLogIndex = 0 ∧ m.prevLogTerm = 0 ∨
    0 < m.prevLogIndex ∧ ∃ e, log[m.prevLogIndex - 1]? = some e ∧ e.term = m.prevLogTerm
  entries : m.entries <+: log.drop m.prevLogIndex
  commit_le : m.leaderCommit ≤ log.length

/-- No term has begun after this one. -/
def Newest (leaders : List (Nat × ι)) (l : Nat × ι) : Prop := ∀ l' ∈ leaders, l'.1 ≤ l.1

/-- Every leader from this term on has these entries, and so has the newest leader. -/
def Settled (logs : Nat → List PartitionRaftEntry) (c : RaftCluster ι) (term : Nat)
    (log : List PartitionRaftEntry) : Prop :=
  ∀ l ∈ c.leaders, term ≤ l.1 ∨ Newest c.leaders l → log <+: logs l.1

structure Inv (logs : Nat → List PartitionRaftEntry) (c : RaftCluster ι) : Prop where
  numbered : ∀ t, NumberedFrom 0 (logs t)
  led : ∀ t, ∀ e ∈ logs t, e.term ∈ c.leaders.map (·.1)
  explained : ∀ t, Explained logs (logs t)
  nodes : ∀ n, Explained logs (c.nodes n).entries
  leader_pos : ∀ l ∈ c.leaders, 0 < l.1
  leader_one : ∀ l ∈ c.leaders, ∀ l' ∈ c.leaders, l.1 = l'.1 → l.2 = l'.2
  leader_term : ∀ l ∈ c.leaders, l.1 ≤ (c.nodes l.2).currentTerm
  leader_log : ∀ n, c.Leads n → (c.nodes n).entries = logs (c.nodes n).currentTerm
  cut : ∀ m ∈ c.appends, (m.term, m.sender) ∈ c.leaders ∧ Cut (logs m.term) m
  settled : ∀ n, Settled logs c (c.nodes n).currentTerm (committed (c.nodes n))
  sent_settled : ∀ m ∈ c.appends, Settled logs c m.term ((logs m.term).take m.leaderCommit)
  sent_committed : ∀ m ∈ c.appends,
    (logs m.term).take m.leaderCommit <+: committed (c.nodes m.sender)
  applied : ∀ n, (c.nodes n).lastApplied ≤ (c.nodes n).commitIndex
  commit_le : ∀ n, (c.nodes n).commitIndex ≤ (c.nodes n).entries.length

/-- A step to a state with the invariant, in which nothing committed is lost. -/
structure Goes (logs : Nat → List PartitionRaftEntry) (c c' : RaftCluster ι) : Prop where
  inv : Inv logs c'
  keeps : ∀ n, committed (c.nodes n) <+: committed (c'.nodes n)

theorem inv_start : Inv (fun _ => []) (start : RaftCluster ι) where
  numbered _ := nofun
  led _ := nofun
  explained _ := nofun
  nodes _ := nofun
  leader_pos := nofun
  leader_one := nofun
  leader_term := nofun
  leader_log _ := nofun
  cut := nofun
  settled _ := nofun
  sent_settled := nofun
  sent_committed := nofun
  applied _ := le_refl 0
  commit_le _ := le_refl 0

/-! ## Small facts -/

theorem getElem?_of_begins (h : log <+: log') (he : log[i]? = some e) : log'[i]? = some e := by
  obtain ⟨rest, rfl⟩ := h
  rw [getElem?_append_left (List.getElem?_eq_some_iff.mp he).1]
  exact he

theorem take_eq_of_begins (h : log <+: log') {k : Nat} (hk : k ≤ log.length) :
    log'.take k = log.take k := by
  obtain ⟨rest, rfl⟩ := h
  exact take_append_of_le_length hk

/-- An entry of an explained log is in the log of its leader, at the same place. -/
theorem Explained.getElem? (h : Explained logs log) (he : log[i]? = some e) :
    (logs e.term)[i]? = some e := by
  refine getElem?_of_begins (h i e he) ?_
  rw [getElem?_take, if_pos (Nat.lt_succ_self i)]
  exact he

theorem Inv.numbered_of_explained (h : Inv logs c) (hlog : Explained logs log) :
    NumberedFrom 0 log :=
  fun i e he => h.numbered _ i e (hlog.getElem? he)

theorem Inv.led_of_explained (h : Inv logs c) (hlog : Explained logs log) :
    ∀ e ∈ log, e.term ∈ c.leaders.map (·.1) := by
  intro e he
  obtain ⟨i, hi⟩ := getElem?_of_mem he
  exact h.led _ e (mem_of_getElem? (hlog.getElem? hi))

theorem Inv.explained_of_grows (h : Inv logs c) {logs' : Nat → List PartitionRaftEntry}
    (hgrow : ∀ l ∈ c.leaders, logs l.1 <+: logs' l.1) (hlog : Explained logs log) :
    Explained logs' log := by
  refine hlog.mono fun e he => ?_
  obtain ⟨l, hl, hterm⟩ := mem_map.mp (h.led_of_explained hlog e he)
  exact hterm ▸ hgrow l hl

theorem Explained.concat (h : Explained logs log) (he : log ++ [e] <+: logs e.term) :
    Explained logs (log ++ [e]) := by
  intro i e' he'
  rcases Nat.lt_or_ge i log.length with hlt | hge
  · rw [getElem?_append_left hlt] at he'
    rw [take_append_of_le_length hlt]
    exact h i e' he'
  · have hi : i = log.length := by
      have := (List.getElem?_eq_some_iff.mp he').1
      rw [length_append, length_singleton] at this
      omega
    subst hi
    rw [getElem?_concat_length] at he'
    cases he'
    rw [take_of_length_le (by simp)]
    exact he

theorem Cut.mono (h : Cut log m) (hgrow : log <+: log') : Cut log' m where
  prev_le := h.prev_le.trans hgrow.length_le
  prev_term := h.prev_term.imp_right fun ⟨hpos, e, he, hterm⟩ =>
    ⟨hpos, e, getElem?_of_begins hgrow he, hterm⟩
  entries := h.entries.trans (hgrow.drop _)
  commit_le := h.commit_le.trans hgrow.length_le

theorem Settled.of_le {t t' : Nat} (h : Settled logs c t log) (hle : t ≤ t') :
    Settled logs c t' log :=
  fun l hl ht => h l hl (ht.imp_left hle.trans)

theorem Settled.of_begins {t : Nat} (h : Settled logs c t log) (hp : log' <+: log) :
    Settled logs c t log' :=
  fun l hl ht => hp.trans (h l hl ht)

theorem Inv.getElem?_commit (h : Inv logs c) (n : ι) (hi : i < (c.nodes n).commitIndex) :
    ∃ e, (c.nodes n).entries[i]? = some e :=
  ⟨_, getElem?_eq_getElem (hi.trans_le (h.commit_le n))⟩

theorem exists_newest {leaders : List (Nat × ι)} (hne : leaders ≠ []) :
    ∃ l ∈ leaders, Newest leaders l :=
  Set.exists_max_image {l | l ∈ leaders} (·.1) leaders.finite_toSet
    (exists_mem_of_ne_nil leaders hne)

section

variable (h : Inv logs c)

include h

/-- If anything is committed, some leader has all that is. -/
theorem Inv.exists_leader (hi : i < (c.nodes n).commitIndex) :
    ∃ log, ∀ n', committed (c.nodes n') <+: log := by
  obtain ⟨e, he⟩ := h.getElem?_commit n hi
  obtain ⟨l, hl, -⟩ := mem_map.mp
    (h.led_of_explained (h.nodes n) e (mem_of_getElem? he))
  obtain ⟨l', hl', hnewest⟩ := exists_newest (ne_nil_of_mem hl)
  exact ⟨logs l'.1, fun n' => h.settled n' l' hl' (.inr hnewest)⟩

/-- An append that finds its predecessor compares the logs up to there. -/
theorem Inv.take_prev (hm : m ∈ c.appends)
    (hprev : (c.nodes n).prevMatches m.prevLogIndex m.prevLogTerm = true) :
    (c.nodes n).entries.take m.prevLogIndex = (logs m.term).take m.prevLogIndex := by
  have hnumbered := h.numbered_of_explained (h.nodes n)
  rcases (PartitionRaft.prevMatches_iff hnumbered).mp hprev with ⟨hzero, -⟩ | ⟨hpos, e, he, hterm⟩
  · rw [hzero, take_zero, take_zero]
  · rcases (h.cut m hm).2.prev_term with ⟨hzero, -⟩ | ⟨-, e', he', hterm'⟩
    · omega
    · have hagree := (h.nodes n).agree (h.explained m.term) he he' (hterm.trans hterm'.symm)
      rw [Nat.sub_add_cancel hpos] at hagree
      exact hagree

/-- What a replica has committed is in the log of a leader that is not older. -/
theorem Inv.committed_eq_take {l : Nat × ι} (hl : l ∈ c.leaders)
    (hterm : (c.nodes n).currentTerm ≤ l.1) :
    committed (c.nodes n) = (logs l.1).take (c.nodes n).commitIndex := by
  have hp := prefix_iff_eq_take.mp (h.settled n l hl (.inl hterm))
  rw [committed, length_take, min_eq_left (h.commit_le n)] at hp
  exact hp

theorem Inv.numbered_append (hm : m ∈ c.appends) : NumberedFrom m.prevLogIndex m.entries := by
  intro i e he
  have hin := getElem?_of_begins (h.cut m hm).2.entries he
  rw [getElem?_drop] at hin
  rw [h.numbered _ _ e hin]
  omega

/-- The log after an append with entries is the beginning of the leader's log. -/
theorem Inv.take_append (hm : m ∈ c.appends)
    (hprev : (c.nodes n).prevMatches m.prevLogIndex m.prevLogTerm = true) :
    (c.nodes n).entries.take m.prevLogIndex ++ m.entries =
      (logs m.term).take (m.prevLogIndex + m.entries.length) := by
  rw [h.take_prev hm hprev, take_add]
  congr 1
  exact prefix_iff_eq_take.mp (h.cut m hm).2.entries

end

variable [DecidableEq ι]

@[simp] theorem nodes_setNode_self (c : RaftCluster ι) (n : ι) (g : PartitionRaft) :
    (c.setNode n g).nodes n = g := update_self ..

theorem nodes_setNode_of_ne (c : RaftCluster ι) {n' : ι} (hne : n' ≠ n) (g : PartitionRaft) :
    (c.setNode n g).nodes n' = c.nodes n' := update_of_ne hne ..

/-- What holds of the new node and of all others. -/
theorem forall_setNode {P : ι → PartitionRaft → Prop} (hn : P n g)
    (hall : ∀ n', n' ≠ n → P n' (c.nodes n')) : ∀ n', P n' ((c.setNode n g).nodes n') :=
  (forall_update_iff c.nodes P).mpr ⟨hn, hall⟩

/-! ## Steps of one replica -/

section

variable (h : Inv logs c)

include h

/-- The logs of leaders grow, perhaps with a new leader that has all that is committed, and one
replica changes with all it had committed. -/
theorem Inv.lengthen {logs' : Nat → List PartitionRaftEntry} {leaders : List (Nat × ι)}
    (hleaders : ∀ l ∈ leaders, l ∈ c.leaders ∨ 0 < l.1 ∧ l.2 = n ∧ l.1 = g.currentTerm ∧
      (∀ l' ∈ c.leaders, l'.1 < l.1) ∧ committed g <+: logs' l.1 ∧
      ∀ n', committed (c.nodes n') <+: logs' l.1)
    (hkept : ∀ l ∈ c.leaders, l ∈ leaders) (hgrow : ∀ l ∈ c.leaders, logs l.1 <+: logs' l.1)
    (hnumbered : ∀ t, NumberedFrom 0 (logs' t))
    (hled : ∀ t, ∀ e ∈ logs' t, e.term ∈ leaders.map (·.1))
    (hexplained : ∀ t, Explained logs' (logs' t)) (hnode : Explained logs' g.entries)
    (hterm : (c.nodes n).currentTerm ≤ g.currentTerm)
    (hleads : (g.currentTerm, n) ∈ leaders → g.entries = logs' g.currentTerm)
    (hsame : ∀ n', n' ≠ n → c.Leads n' →
      logs' (c.nodes n').currentTerm = logs (c.nodes n').currentTerm)
    (hsettled : Settled logs c g.currentTerm (committed g))
    (hkeep : committed (c.nodes n) <+: committed g) (happlied : g.lastApplied ≤ g.commitIndex)
    (hcommit : g.commitIndex ≤ g.entries.length) : Goes logs' c { c.setNode n g with leaders } := by
  have hnodes (P : ι → PartitionRaft → Prop) (hn : P n g) (hall : ∀ n', n' ≠ n → P n' (c.nodes n')) :
      ∀ n', P n' ((c.setNode n g).nodes n') := forall_setNode hn hall
  have hstays {t : Nat} {log : List PartitionRaftEntry} (hlog : Settled logs c t log)
      (hin : log = committed g ∨ ∃ n', log <+: committed (c.nodes n')) :
      ∀ l ∈ leaders, t ≤ l.1 ∨ Newest leaders l → log <+: logs' l.1 := by
    intro l hl ht
    rcases hleaders l hl with hl | ⟨-, -, -, -, hself, hall⟩
    · have ht := ht.imp_right fun hnew l' hl' => hnew l' (hkept l' hl')
      exact (hlog l hl ht).trans (hgrow l hl)
    · rcases hin with rfl | ⟨n', hn'⟩
      · exact hself
      · exact hn'.trans (hall n')
  have htake (m : RaftAppend ι) (hm : m ∈ c.appends) :
      (logs' m.term).take m.leaderCommit = (logs m.term).take m.leaderCommit :=
    take_eq_of_begins (hgrow _ (h.cut m hm).1) (h.cut m hm).2.commit_le
  refine ⟨?_, hnodes (fun n' g => committed (c.nodes n') <+: committed g) hkeep
    fun _ _ => prefix_rfl⟩
  refine ⟨hnumbered, hled, hexplained, hnodes (fun _ g => Explained logs' g.entries) hnode
    (fun n' _ => h.explained_of_grows hgrow (h.nodes n')), ?_, ?_, ?_, ?_, ?_, ?_, ?_, ?_,
    hnodes (fun _ g => g.lastApplied ≤ g.commitIndex) happlied fun n' _ => h.applied n',
    hnodes (fun _ g => g.commitIndex ≤ g.entries.length) hcommit fun n' _ => h.commit_le n'⟩
  · intro l hl
    rcases hleaders l hl with hl | ⟨hpos, -⟩
    · exact h.leader_pos l hl
    · exact hpos
  · intro l hl l' hl' heq
    rcases hleaders l hl with hl | ⟨-, hn, -, hnew, -⟩ <;>
      rcases hleaders l' hl' with hl' | ⟨-, hn', -, hnew', -⟩
    · exact h.leader_one l hl l' hl' heq
    · exact absurd heq (hnew' l hl).ne
    · exact absurd heq.symm (hnew l' hl').ne
    · exact hn.trans hn'.symm
  · intro l hl
    show l.1 ≤ ((c.setNode n g).nodes l.2).currentTerm
    rcases eq_or_ne l.2 n with hn | hne
    · rw [hn, nodes_setNode_self]
      rcases hleaders l hl with hl | ⟨-, -, heq, -⟩
      · exact (hn ▸ h.leader_term l hl).trans hterm
      · exact heq.le
    · rw [nodes_setNode_of_ne c hne]
      rcases hleaders l hl with hl | ⟨-, heq, -⟩
      · exact h.leader_term l hl
      · exact absurd heq hne
  · refine hnodes (fun n g => (g.currentTerm, n) ∈ leaders → g.entries = logs' g.currentTerm) hleads
      fun n' hne hl => ?_
    rcases hleaders _ hl with hl | ⟨-, heq, -⟩
    · rw [hsame n' hne hl]
      exact h.leader_log n' hl
    · exact absurd heq hne
  · intro m hm
    obtain ⟨hl, hcut⟩ := h.cut m hm
    exact ⟨hkept _ hl, hcut.mono (hgrow _ hl)⟩
  · refine hnodes (fun _ g => ∀ l ∈ leaders, g.currentTerm ≤ l.1 ∨ Newest leaders l →
      committed g <+: logs' l.1) ?_ fun n' _ => hstays (h.settled n') (.inr ⟨n', prefix_rfl⟩)
    exact hstays hsettled (.inl rfl)
  · intro m hm
    show ∀ l ∈ leaders, m.term ≤ l.1 ∨ Newest leaders l →
      (logs' m.term).take m.leaderCommit <+: logs' l.1
    rw [htake m hm]
    exact hstays (h.sent_settled m hm) (.inr ⟨m.sender, h.sent_committed m hm⟩)
  · intro m hm
    show (logs' m.term).take m.leaderCommit <+: committed ((c.setNode n g).nodes m.sender)
    rw [htake m hm]
    rcases eq_or_ne m.sender n with hn | hne
    · rw [hn, nodes_setNode_self]
      exact (hn ▸ h.sent_committed m hm).trans hkeep
    · rw [nodes_setNode_of_ne c hne]
      exact h.sent_committed m hm

/-- A replica changes, with a log that the leaders' logs explain and all it had committed. -/
theorem Inv.setNode (hterm : (c.nodes n).currentTerm ≤ g.currentTerm)
    (hexplained : Explained logs g.entries)
    (hleads : (g.currentTerm, n) ∈ c.leaders → g.entries = logs g.currentTerm)
    (hsettled : Settled logs c g.currentTerm (committed g))
    (hkeep : committed (c.nodes n) <+: committed g) (happlied : g.lastApplied ≤ g.commitIndex)
    (hcommit : g.commitIndex ≤ g.entries.length) : Goes logs c (c.setNode n g) := by
  exact h.lengthen (fun l hl => .inl hl) (fun l hl => hl) (fun l _ => prefix_rfl) h.numbered h.led
    h.explained hexplained hterm hleads (fun _ _ _ => rfl) hsettled hkeep happlied hcommit

/-- A replica whose log and commit index stay. -/
theorem Inv.setNode_of_same (hentries : g.entries = (c.nodes n).entries)
    (hcommit : g.commitIndex = (c.nodes n).commitIndex)
    (hterm : (c.nodes n).currentTerm ≤ g.currentTerm) (happlied : g.lastApplied ≤ g.commitIndex) :
    Goes logs c (c.setNode n g) := by
  have hcommitted : committed g = committed (c.nodes n) := by rw [committed, hentries, hcommit]; rfl
  refine h.setNode hterm (hentries ▸ h.nodes n) (fun hleads => ?_) ?_
    (hcommitted ▸ prefix_rfl) happlied ?_
  · have heq : g.currentTerm = (c.nodes n).currentTerm :=
      le_antisymm (h.leader_term _ hleads) hterm
    rw [hentries, heq]
    rw [heq] at hleads
    exact h.leader_log n hleads
  · rw [hcommitted]
    exact (h.settled n).of_le hterm
  · rw [hcommit, hentries]
    exact h.commit_le n

/-- After an accepted append the replica has committed a beginning of the leader's log. -/
theorem Inv.accept (hm : m ∈ c.appends) (hne : n ≠ m.sender)
    (hterm : (c.nodes n).currentTerm ≤ m.term) (hcurrent : g.currentTerm = m.term)
    (happlied : g.lastApplied = (c.nodes n).lastApplied) (hexplained : Explained logs g.entries)
    (hlen : g.commitIndex ≤ g.entries.length)
    (htake : g.entries.take g.commitIndex = (logs m.term).take g.commitIndex)
    (hge : (c.nodes n).commitIndex ≤ g.commitIndex)
    (hle : g.commitIndex ≤ max (c.nodes n).commitIndex m.leaderCommit) :
    Goes logs c (c.setNode n g) := by
  have hleader := (h.cut m hm).1
  have hold := h.committed_eq_take hleader hterm
  refine h.setNode (hcurrent ▸ hterm) hexplained (fun hleads => ?_) ?_ ?_ ?_ hlen
  · rw [hcurrent] at hleads
    exact absurd (h.leader_one _ hleads _ hleader rfl) hne
  · rw [hcurrent, committed, htake]
    rcases le_max_iff.mp hle with hle | hle
    · rw [le_antisymm hle hge, ← hold]
      exact (h.settled n).of_le hterm
    · refine (h.sent_settled m hm).of_begins ?_
      rw [← min_eq_left hle, ← take_take]
      exact take_prefix _ _
  · rw [hold, committed, htake, ← min_eq_left hge, ← take_take]
    exact take_prefix _ _
  · rw [happlied]
    exact (h.applied n).trans hge

theorem Inv.deliver (hm : m ∈ c.appends) (hne : n ≠ m.sender)
    (hsound : Sound (c.nodes n) m) : Goes logs c (c.step (.deliver m n)) := by
  obtain ⟨hterm, hsound⟩ := hsound
  have hnumbered := h.numbered_of_explained (h.nodes n)
  have hleader := (h.cut m hm).1
  have hlast : (c.nodes n).lastIndex = (c.nodes n).entries.length :=
    PartitionRaft.lastIndexOf_of_numbered hnumbered
  have hcommit := h.commit_le n
  have hold : (c.nodes n).entries.take (c.nodes n).commitIndex =
      (logs m.term).take (c.nodes n).commitIndex := h.committed_eq_take hleader hterm
  obtain ⟨hcurrent, happlied, hcases⟩ := PartitionRaft.appendEntries_cases m.term m.prevLogIndex
    m.prevLogTerm m.leaderCommit hnumbered (h.numbered_append hm)
  rw [max_eq_right hterm] at hcurrent
  simp only [step]
  generalize ((c.nodes n).appendEntries m.term m.prevLogIndex m.prevLogTerm m.entries
    m.leaderCommit).2 = g at hcurrent happlied hcases ⊢
  rcases hcases with ⟨hentries, hindex⟩ | ⟨hprev, hentries, hindex⟩
  · refine h.accept hm hne hterm hcurrent happlied (hentries ▸ h.nodes n)
      (by rw [hentries]; omega) ?_ hindex.ge (by omega)
    rw [hentries, hindex]
    exact hold
  · split_ifs at hsound hentries with hempty
    · -- A heartbeat: it commits what is known already, or what it has compared.
      rw [hentries] at hindex
      refine h.accept hm hne hterm hcurrent happlied (hentries ▸ h.nodes n)
        (by rw [hentries]; omega) ?_ (by omega) (by omega)
      rw [hentries]
      rcases Nat.lt_or_ge (c.nodes n).commitIndex g.commitIndex with hlt | hge
      · have hcompared := congrArg (take g.commitIndex) (h.take_prev hm hprev)
        rw [take_take, take_take, min_eq_left (by omega)] at hcompared
        exact hcompared
      · rw [show g.commitIndex = (c.nodes n).commitIndex by omega]
        exact hold
    · have hlen : (m.prevLogIndex + m.entries.length) ≤ (logs m.term).length := by
        have hle := (h.cut m hm).2.entries.length_le
        have hprevle := (h.cut m hm).2.prev_le
        rw [length_drop] at hle
        omega
      rw [h.take_append hm hprev] at hentries
      have hlength : g.entries.length = m.prevLogIndex + m.entries.length := by
        rw [hentries, length_take, min_eq_left hlen]
      refine h.accept hm hne hterm hcurrent happlied (hentries ▸ (h.explained _).take _) (by omega)
        ?_ (by omega) (by omega)
      rw [hentries, take_take, min_eq_left (by omega)]

theorem Inv.vote (n : ι) (term candidate : Nat) :
    Goes logs c (c.step (.vote n term candidate)) := by
  obtain ⟨hterm, hentries, hcommit, happlied⟩ := PartitionRaft.recordVote_frame
    (g := c.nodes n) term candidate
  simp only [step]
  refine h.setNode_of_same hentries hcommit hterm ?_
  rw [hcommit, happlied]
  exact h.applied n

theorem Inv.commit (hleads : c.Leads n)
    (hnewest : ∀ l ∈ c.leaders, l.1 ≤ (c.nodes n).currentTerm) (replicaCount : Nat) :
    Goes logs c (c.step (.commit n replicaCount)) := by
  simp only [step]
  rcases PartitionRaft.tryCommitMajority_cases (h.numbered_of_explained (h.nodes n)) replicaCount
    with heq | ⟨target, hlt, hle, heq⟩
  · rw [heq]
    exact h.setNode_of_same rfl rfl le_rfl (h.applied n)
  · rw [heq]
    refine h.setNode (le_refl _) (h.nodes n) (fun _ => h.leader_log n hleads) (fun l hl hterm => ?_) ?_
      ((h.applied n).trans hlt.le) hle
    · have hle : (c.nodes n).currentTerm ≤ l.1 := hterm.elim id fun hnew => hnew _ hleads
      rw [le_antisymm (hnewest l hl) hle, ← h.leader_log n hleads]
      exact take_prefix _ _
    · have hbegins (entries : List PartitionRaftEntry) (k : Nat) : entries.take k <+: entries :=
        take_prefix k entries
      refine prefix_of_prefix_length_le (hbegins _ _) (hbegins _ _) ?_
      simp only [committed, length_take]
      omega

theorem Inv.apply (n : ι) : Goes logs c (c.step (.apply n)) := by
  refine h.setNode_of_same rfl rfl le_rfl ?_
  have hlen := PartitionRaft.length_entriesFrom_le (g := c.nodes n) ((c.nodes n).lastApplied + 1)
    ((c.nodes n).commitIndex - (c.nodes n).lastApplied)
  have happlied := h.applied n
  simp only [PartitionRaft.takeEntriesToApply]
  omega

theorem Inv.send (hleads : c.Leads n) {prev : Nat}
    (hprev : prev ≤ (c.nodes n).entries.length) (count : Nat) :
    Goes logs c (c.step (.send n prev count)) := by
  have hlog := h.leader_log n hleads
  have hcommitted : (logs (c.nodes n).currentTerm).take (c.nodes n).commitIndex =
      committed (c.nodes n) := by rw [← hlog]; rfl
  have hcut : Cut (logs (c.nodes n).currentTerm) (c.appendOf n prev count) := by
    rw [← hlog]
    refine ⟨hprev, ?_, take_prefix _ _, h.commit_le n⟩
    rcases Nat.eq_zero_or_pos prev with hzero | hpos
    · exact .inl ⟨hzero, by simp [appendOf, PartitionRaft.termAt, hzero]⟩
    · obtain ⟨e, he⟩ : ∃ e, (c.nodes n).entries[prev - 1]? = some e :=
        ⟨_, getElem?_eq_getElem (by omega)⟩
      have hindex : e.index = prev := by
        rw [h.numbered_of_explained (h.nodes n) _ e he]
        omega
      refine .inr ⟨hpos, e, he, ?_⟩
      simp [appendOf, PartitionRaft.termAt, he, hindex, Nat.pos_iff_ne_zero.mp hpos, Option.filter]
  refine ⟨{ h with cut := ?_, sent_settled := ?_, sent_committed := ?_ }, fun _ => prefix_rfl⟩
  · intro m hm
    rcases mem_cons.mp hm with rfl | hm
    · exact ⟨hleads, hcut⟩
    · exact h.cut m hm
  · intro m hm
    rcases mem_cons.mp hm with rfl | hm
    · simp only [appendOf, hcommitted]
      exact h.settled n
    · exact h.sent_settled m hm
  · intro m hm
    rcases mem_cons.mp hm with rfl | hm
    · simp only [appendOf, hcommitted]
      exact prefix_rfl
    · exact h.sent_committed m hm

end

/-! ## Steps that change the logs of the leaders -/

section

variable (h : Inv logs c)

include h

/-- The leader's log grows by an entry of its term. -/
theorem Inv.produce (hleads : c.Leads n) (offset crc : Nat) :
    ∃ logs', Goes logs' c (c.step (.produce n offset crc)) := by
  have hpos : (c.nodes n).currentTerm ≠ 0 := (h.leader_pos _ hleads).ne'
  have hlog := h.leader_log n hleads
  have hnumbered := h.numbered_of_explained (h.nodes n)
  have hcommit := h.commit_le n
  let term := (c.nodes n).currentTerm
  let log := (c.nodes n).entries
  let e : PartitionRaftEntry := ⟨term, log.length + 1, ⟨offset, crc⟩⟩
  let logs' := update logs term (log ++ [e])
  have hself : logs' term = log ++ [e] := update_self ..
  have hother {t : Nat} (ht : t ≠ term) : logs' t = logs t := update_of_ne ht ..
  have hlogs (P : Nat → List PartitionRaftEntry → Prop) (hnew : P term (log ++ [e]))
      (hold : ∀ t, P t (logs t)) : ∀ t, P t (logs' t) :=
    (forall_update_iff logs P).mpr ⟨hnew, fun t _ => hold t⟩
  have hgrow : ∀ t, logs t <+: logs' t := by
    refine hlogs (fun t log' => logs t <+: log') ?_ fun t => prefix_rfl
    rw [show logs term = log from hlog.symm]
    exact prefix_append _ _
  have hexplained : Explained logs' (log ++ [e]) :=
    ((h.nodes n).mono fun e _ => hgrow e.term).concat (hself ▸ prefix_rfl)
  have hsame : (log ++ [e]).take (c.nodes n).commitIndex = committed (c.nodes n) :=
    take_eq_of_begins (prefix_append _ _) hcommit
  refine ⟨logs', ?_⟩
  simp only [step, PartitionRaft.appendProduce_eq hnumbered hpos]
  refine h.lengthen (fun l hl => .inl hl) (fun l hl => hl) (fun l _ => hgrow l.1) ?_ ?_ ?_ hexplained
    (le_refl _) (fun _ => hself.symm) ?_ ((h.settled n).of_begins (hsame ▸ prefix_rfl))
    (hsame ▸ prefix_rfl) (h.applied n) ?_
  · refine hlogs (fun _ log => NumberedFrom 0 log) (PartitionRaft.NumberedFrom.append hnumbered ?_)
      h.numbered
    intro i e' he'
    cases i with
    | zero => cases he'; rfl
    | succ i => cases he'
  · refine hlogs (fun _ log => ∀ e ∈ log, e.term ∈ c.leaders.map (·.1)) ?_ h.led
    intro e' he'
    rcases mem_append.mp he' with he' | he'
    · exact h.led_of_explained (h.nodes n) e' he'
    · rw [mem_singleton.mp he']
      exact mem_map_of_mem (f := (·.1)) hleads
  · exact hlogs (fun _ log => Explained logs' log) hexplained
      fun t => (h.explained t).mono fun e _ => hgrow e.term
  · intro n' hne hl
    exact hother fun heq => hne (h.leader_one _ hl _ hleads heq)
  · simp only [length_append]
    omega

/-- A replica that has all committed entries begins a term. -/
theorem Inv.lead {term : Nat} (hnew : ∀ l ∈ c.leaders, l.1 < term)
    (hpos : 0 < term) (hterm : (c.nodes n).currentTerm ≤ term) (hholds : c.HoldsCommitted n) :
    ∃ logs', Goes logs' c (c.step (.lead n term)) := by
  let log := (c.nodes n).entries
  let logs' := update logs term log
  have hself : logs' term = log := update_self ..
  have hother {t : Nat} (ht : t ≠ term) : logs' t = logs t := update_of_ne ht ..
  have hlogs (P : List PartitionRaftEntry → Prop) (hlog : P log) (hold : ∀ t, P (logs t)) :
      ∀ t, P (logs' t) := (forall_update_iff logs fun _ => P).mpr ⟨hlog, fun t _ => hold t⟩
  have hgrow (l : Nat × ι) (hl : l ∈ c.leaders) : logs l.1 <+: logs' l.1 := by
    rw [hother (hnew l hl).ne]
  have hmono {log' : List PartitionRaftEntry} := @Inv.explained_of_grows ι log' logs c h logs' hgrow
  have hcommitted (n' : ι) : committed (c.nodes n') <+: log := by
    have hcommit := h.commit_le n'
    refine prefix_iff_eq_take.mpr (ext_getElem? fun i => ?_)
    rw [committed, length_take, min_eq_left hcommit, getElem?_take, getElem?_take]
    split
    next hlt => exact (hholds n' i hlt).symm
    next => rfl
  obtain ⟨votedFor, hensure⟩ := PartitionRaft.ensureTerm_eq (g := c.nodes n) term
  rw [max_eq_right hterm] at hensure
  refine ⟨logs', ?_⟩
  simp only [step, hensure]
  refine h.lengthen (fun l hl => ?_) (fun l hl => mem_cons_of_mem _ hl) hgrow
    (hlogs (NumberedFrom 0) (h.numbered_of_explained (h.nodes n)) h.numbered) ?_
    (hlogs (Explained logs') (hmono (h.nodes n)) fun t => hmono (h.explained t))
    (hmono (h.nodes n)) hterm (fun _ => hself.symm) (fun n' _ hl => hother (hnew _ hl).ne)
    ((h.settled n).of_le hterm) prefix_rfl (h.applied n) (h.commit_le n)
  · rcases mem_cons.mp hl with rfl | hl
    · exact .inr ⟨hpos, rfl, rfl, hnew, hself ▸ hcommitted n, fun n' => hself ▸ hcommitted n'⟩
    · exact .inl hl
  · refine hlogs (fun log => ∀ e ∈ log, e.term ∈ ((term, n) :: c.leaders).map (·.1)) ?_ ?_
    · exact fun e he => mem_cons_of_mem _ (h.led_of_explained (h.nodes n) e he)
    · exact fun t e he => mem_cons_of_mem _ (h.led t e he)

/-! ## Every run -/

theorem Inv.step {e : RaftEvent ι} (henabled : c.Enabled e)
    (hcareful : c.Careful e) : ∃ logs', Goes logs' c (c.step e) := by
  cases e with
  | lead n term =>
    obtain ⟨hnew, hpos, hterm, hholds⟩ := henabled
    exact h.lead hnew hpos hterm hholds
  | produce n offset crc => exact h.produce henabled offset crc
  | send n prev count => exact ⟨logs, h.send henabled.1 henabled.2 count⟩
  | deliver m n => exact ⟨logs, h.deliver henabled.1 henabled.2 hcareful⟩
  | recordMatch n replicaId index => exact ⟨logs, h.setNode_of_same rfl rfl le_rfl (h.applied n)⟩
  | commit n replicaCount => exact ⟨logs, h.commit henabled hcareful replicaCount⟩
  | apply n => exact ⟨logs, h.apply n⟩
  | vote n term candidate => exact ⟨logs, h.vote n term candidate⟩

theorem Run.goes {c' : RaftCluster ι} (hrun : Run c c') : ∃ logs', Goes logs' c c' := by
  induction hrun with
  | refl => exact ⟨logs, h, fun _ => prefix_rfl⟩
  | step _ e henabled hcareful ih =>
    obtain ⟨logs₁, h₁, hkeeps₁⟩ := ih
    obtain ⟨logs₂, h₂, hkeeps₂⟩ := h₁.step henabled hcareful
    exact ⟨logs₂, h₂, fun n => (hkeeps₁ n).trans (hkeeps₂ n)⟩

end

theorem getElem?_committed (hi : i < g.commitIndex) : (committed g)[i]? = g.entries[i]? := by
  rw [committed, getElem?_take, if_pos hi]

/-- In a careful run the logs have no gaps, the indices are in order, a committed entry stays
where it is, and committed entries agree. -/
theorem committed_entries_safe {c c' : RaftCluster ι} (hc : Run start c) (hrun : Run c c') (n : ι) :
    (∀ i e, (c.nodes n).entries[i]? = some e → e.index = i + 1) ∧
      (c.nodes n).lastApplied ≤ (c.nodes n).commitIndex ∧
      (c.nodes n).commitIndex ≤ (c.nodes n).lastIndex ∧
      (∀ i < (c.nodes n).commitIndex, i < (c'.nodes n).commitIndex ∧
        (c'.nodes n).entries[i]? = (c.nodes n).entries[i]?) ∧
      ∀ n', ∀ i < (c.nodes n).commitIndex, i < (c.nodes n').commitIndex →
        (c.nodes n).entries[i]? = (c.nodes n').entries[i]? := by
  obtain ⟨logs, h, -⟩ := hc.goes inv_start
  obtain ⟨logs', h', hkeeps⟩ := hrun.goes h
  have hnumbered := h.numbered_of_explained (h.nodes n)
  refine ⟨fun i e he => ?_, h.applied n, ?_, fun i hi => ?_, fun n' i hi hi' => ?_⟩
  · rw [hnumbered i e he, Nat.zero_add]
  · rw [PartitionRaft.lastIndex, PartitionRaft.lastIndexOf_of_numbered hnumbered]
    exact h.commit_le n
  · obtain ⟨e, he⟩ := h.getElem?_commit n hi
    have hlater := getElem?_of_begins (hkeeps n) ((getElem?_committed hi).trans he)
    have hlt : i < (c'.nodes n).commitIndex := by
      have := (List.getElem?_eq_some_iff.mp hlater).1
      rw [committed, length_take] at this
      omega
    exact ⟨hlt, by rw [← getElem?_committed hlt, hlater, he]⟩
  · obtain ⟨log, hlog⟩ := h.exists_leader hi
    obtain ⟨e, he⟩ := h.getElem?_commit n hi
    obtain ⟨e', he'⟩ := h.getElem?_commit n' hi'
    have hin := getElem?_of_begins (hlog n) ((getElem?_committed hi).trans he)
    have hin' := getElem?_of_begins (hlog n') ((getElem?_committed hi').trans he')
    rw [he, he', ← hin, ← hin']

/-! ## A commit on two replicas, and an append that arrives again -/

instance (c : RaftCluster ι) (n : ι) : Decidable (c.Leads n) :=
  inferInstanceAs (Decidable (_ ∈ c.leaders))

instance [Fintype ι] (c : RaftCluster ι) (n : ι) : Decidable (c.HoldsCommitted n) :=
  inferInstanceAs (Decidable (∀ n', ∀ i < (c.nodes n').commitIndex, _ = _))

deriving instance DecidableEq for RaftAppend

instance [Fintype ι] (c : RaftCluster ι) : ∀ e, Decidable (c.Enabled e)
  | .lead _ _ => inferInstanceAs (Decidable (_ ∧ _))
  | .produce n _ _ => inferInstanceAs (Decidable (c.Leads n))
  | .send _ _ _ => inferInstanceAs (Decidable (_ ∧ _))
  | .deliver _ _ => inferInstanceAs (Decidable (_ ∧ _))
  | .commit n _ => inferInstanceAs (Decidable (c.Leads n))
  | .recordMatch _ _ _ | .apply _ | .vote _ _ _ => inferInstanceAs (Decidable True)

instance (c : RaftCluster ι) : ∀ e, Decidable (c.Careful e)
  | .deliver m _ => inferInstanceAs (Decidable (_ ∧ if m.entries = [] then _ else _))
  | .commit _ _ => inferInstanceAs (Decidable (∀ l ∈ c.leaders, _))
  | .lead _ _ | .produce _ _ _ | .send _ _ _ | .recordMatch _ _ _ | .apply _ | .vote _ _ _ =>
    inferInstanceAs (Decidable True)

def follow (c : RaftCluster ι) (es : List (RaftEvent ι)) : RaftCluster ι := es.foldl step c

/-- Every event of the list can happen, and meets the condition. -/
def Follows (allowed : RaftCluster ι → RaftEvent ι → Prop) :
    RaftCluster ι → List (RaftEvent ι) → Prop
  | _, [] => True
  | c, e :: es => (c.Enabled e ∧ allowed c e) ∧ Follows allowed (c.step e) es

instance [Fintype ι] (allowed : RaftCluster ι → RaftEvent ι → Prop)
    [∀ c e, Decidable (allowed c e)] : ∀ c es, Decidable (Follows allowed c es)
  | _, [] => .isTrue trivial
  | c, e :: es =>
    have := instDecidableFollowsOfFintype allowed (c.step e) es
    inferInstanceAs (Decidable (_ ∧ _))

theorem Run.follow {c' : RaftCluster ι} (h : Run c c') {es : List (RaftEvent ι)}
    (hes : Follows Careful c' es) : Run c (c'.follow es) := by
  induction es generalizing c' with
  | nil => exact h
  | cons e es ih =>
    obtain ⟨⟨henabled, hcareful⟩, hrest⟩ := hes
    exact ih (h.step e henabled hcareful) hrest

def firstEntry : PartitionRaftEntry := ⟨1, 1, ⟨0, 0⟩⟩

def secondEntry : PartitionRaftEntry := ⟨1, 2, ⟨1, 0⟩⟩

/-- The append of the first entry. -/
def firstAppend : RaftAppend (Fin 2) := ⟨0, 1, 0, 0, [firstEntry], 0⟩

/-- Replica 0 leads, writes two entries to both replicas, and both commit them. -/
def bothCommitted : List (RaftEvent (Fin 2)) :=
  [.lead 0 1, .produce 0 0 0, .send 0 0 1, .deliver firstAppend 1,
   .produce 0 1 0, .send 0 1 1, .deliver ⟨0, 1, 1, 1, [secondEntry], 0⟩ 1,
   .recordMatch 0 0 2, .recordMatch 0 1 2, .commit 0 2, .send 0 2 0, .deliver ⟨0, 1, 2, 1, [], 2⟩ 1]

/-- Replica 1 has both entries when it applies them. -/
theorem both_entries_safe :
    let c := start.follow bothCommitted
    (c.nodes 1).commitIndex = 2 ∧ (c.nodes 1).commitIndex ≤ (c.nodes 1).lastIndex ∧
      ∀ i < 2, ((c.follow [.apply 1]).nodes 1).entries[i]? = (c.nodes 1).entries[i]? := by
  intro c
  have hc : Run start c := Run.refl.follow (by decide +kernel)
  have hrun : Run c (c.follow [.apply 1]) := Run.refl.follow (by decide +kernel)
  have hcommit : (c.nodes 1).commitIndex = 2 := by decide +kernel
  obtain ⟨-, -, hle, hstays, -⟩ := committed_entries_safe hc hrun 1
  exact ⟨hcommit, hle, fun i hi => (hstays i (by rw [hcommit]; exact hi)).2⟩

/-- The first append arrives a second time and takes the second entry, which is committed, off the
log. -/
theorem late_append_drops_committed :
    let c := start.follow bothCommitted
    let c' := c.follow [.deliver firstAppend 1]
    Follows (fun _ _ => True) start (bothCommitted ++ [.deliver firstAppend 1]) ∧
      (c.nodes 1).entries[1]? = some secondEntry ∧ (c.nodes 1).commitIndex = 2 ∧
      (c'.nodes 1).entries[1]? = none ∧ (c'.nodes 1).lastIndex < (c'.nodes 1).commitIndex := by
  decide +kernel

end RaftCluster

end Volant.Cluster
