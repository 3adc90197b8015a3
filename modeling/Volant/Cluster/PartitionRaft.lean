-- SUMMARY: Model of the per-partition Raft log of one replica.
import Volant.Base.Assoc
import Mathlib.Data.List.Sort

/-!
# The partition Raft log

Every replica of a partition keeps a log of produce entries with a term, a
commit index and the last applied index. There is no election: the leader is
the partition leader. The functions are those of the replica's
`partition_raft.rs`; the files that follow every change are left out, and so
are its counters.
-/

namespace Volant.Cluster

structure PartitionRaftPayload where
  /-- The offset on the partition log that the entry goes with. -/
  offset : Nat
  crc : Nat
deriving DecidableEq, Repr

structure PartitionRaftEntry where
  term : Nat
  /-- Entries count from one. -/
  index : Nat
  payload : PartitionRaftPayload
deriving DecidableEq, Repr

structure PartitionAppendResult where
  term : Nat
  success : Bool
  matchIndex : Nat
deriving DecidableEq, Repr

/-- The state of one replica. -/
structure PartitionRaft where
  currentTerm : Nat
  votedFor : Option Nat
  entries : List PartitionRaftEntry
  commitIndex : Nat
  lastApplied : Nat
  /-- The leader's knowledge of each replica. -/
  matchIndex : AList fun _ : Nat => Nat

namespace PartitionRaft

/-- The state of a replica that finds no files. -/
def empty : PartitionRaft :=
  { currentTerm := 0, votedFor := none, entries := [], commitIndex := 0, lastApplied := 0,
    matchIndex := ∅ }

def majority (n : Nat) : Nat := n / 2 + 1

def lastIndexOf (entries : List PartitionRaftEntry) : Nat :=
  (entries.getLast?.map (·.index)).getD 0

variable (g : PartitionRaft)

def lastIndex : Nat := lastIndexOf g.entries

def termAt (index : Nat) : Nat :=
  if index = 0 then 0
  else (((g.entries[index - 1]?).filter fun e => e.index = index).map (·.term)).getD 0

def recordVote (term candidate : Nat) : Bool × PartitionRaft :=
  let g := if g.currentTerm < term then { g with currentTerm := term, votedFor := none } else g
  if term < g.currentTerm then (false, g)
  else
    match g.votedFor with
    | none => (true, { g with votedFor := some candidate })
    | some id => (decide (id = candidate), g)

def ensureTerm (term : Nat) : PartitionRaft :=
  if g.currentTerm < term then { g with currentTerm := term, votedFor := none } else g

/-- Leader: a produce entry at the next index. -/
def appendProduce (offset crc : Nat) : PartitionRaftEntry × PartitionRaft :=
  let g := if g.currentTerm = 0 then { g with currentTerm := 1 } else g
  let entry := { term := g.currentTerm, index := g.lastIndex + 1, payload := { offset, crc } }
  (entry, { g with entries := g.entries ++ [entry] })

def recordMatch (replicaId index : Nat) : PartitionRaft :=
  let known := (g.matchIndex.lookup replicaId).getD 0
  { g with matchIndex := g.matchIndex.insert replicaId (if known < index then index else known) }

/-- The index that a majority of the replicas has reached, as the leader knows it. -/
def majorityIndex (replicaCount : Nat) : Nat :=
  let need := majority (max replicaCount 1)
  let matched := (Assoc.values g.matchIndex).insertionSort (· ≥ ·)
  if need ≤ matched.length then (matched[need - 1]?).getD 0 else 0

def tryCommitMajority (replicaCount : Nat) : Bool × PartitionRaft :=
  if g.lastIndex = 0 then (false, g)
  else
    let target := min (g.majorityIndex replicaCount) g.lastIndex
    if g.commitIndex < target then (true, { g with commitIndex := target }) else (false, g)

/-- Pushes entries until one is not the next. -/
def pushEntries (log : List PartitionRaftEntry) :
    List PartitionRaftEntry → Bool × List PartitionRaftEntry
  | [] => (true, log)
  | e :: rest =>
    if e.index ≠ lastIndexOf log + 1 then (false, log) else pushEntries (log ++ [e]) rest

/-- The log has the entry before the new ones. -/
def prevMatches (prevLogIndex prevLogTerm : Nat) : Bool :=
  if 0 < prevLogIndex then
    ((g.entries[prevLogIndex - 1]?).map fun e =>
      decide (e.index = prevLogIndex ∧ e.term = prevLogTerm)).getD false
  else decide (prevLogTerm = 0)

/-- Cuts the log before the first new entry. -/
def truncateFor (log : List PartitionRaftEntry) : List PartitionRaftEntry → List PartitionRaftEntry
  | [] => log
  | first :: _ => log.take (first.index - 1)

def appendEntries (term prevLogIndex prevLogTerm : Nat)
    (entries : List PartitionRaftEntry) (leaderCommit : Nat) :
    PartitionAppendResult × PartitionRaft :=
  let g := if g.currentTerm < term then { g with currentTerm := term, votedFor := none } else g
  if !g.prevMatches prevLogIndex prevLogTerm then
    ({ term := g.currentTerm, success := false
       matchIndex := if 0 < prevLogIndex then g.lastIndex else 0 }, g)
  else
    let (pushed, log) := pushEntries (truncateFor g.entries entries) entries
    let g := { g with entries := log }
    if !pushed then
      ({ term := g.currentTerm, success := false, matchIndex := g.lastIndex }, g)
    else
      let newCommit := min leaderCommit g.lastIndex
      let g := if g.commitIndex < newCommit then { g with commitIndex := newCommit } else g
      ({ term := g.currentTerm, success := true, matchIndex := g.lastIndex }, g)

/-- The entries from `next` on that are in place, at most `n` of them. -/
def entriesFrom (g : PartitionRaft) (next : Nat) : Nat → List PartitionRaftEntry
  | 0 => []
  | n + 1 =>
    match (g.entries[next - 1]?).filter fun e => e.index = next with
    | none => []
    | some e => e :: g.entriesFrom (next + 1) n

def takeEntriesToApply : List PartitionRaftEntry × PartitionRaft :=
  let out := g.entriesFrom (g.lastApplied + 1) (g.commitIndex - g.lastApplied)
  (out, { g with lastApplied := g.lastApplied + out.length })

end PartitionRaft

end Volant.Cluster
