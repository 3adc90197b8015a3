-- SUMMARY: Model of the majority rounds for assignment generations: admin requests, notes, commits and rollbacks.
import Volant.Cluster.Controller
import Mathlib.Data.Fintype.Basic
import Mathlib.Data.Finset.Card
import Mathlib.Data.List.AList

/-!
# Assignment consensus

A controller changes its assignment, sends the result to its peers as a note,
and commits the generation when a majority has answered. A peer that gets the
note takes the assignment over and records it as committed at once. A request
that waits and misses its majority puts the assignment back that it had cloned
before the change, and with it the generation.

Nothing of this holds a lock from one end to the other. The committed generation
is loaded, compared and stored; the snapshot that is recorded is the live
assignment, read again after the majority is known or the note is applied. Each
of these is an event of its own here. The pending generation is only written,
never read, and left out.

The rounds never look at the topics of an assignment, so these are of an
arbitrary type here. Brokers are in `Fin n`, the configured members. Any of
them may take itself for the controller. Notes and cluster states arrive late,
twice, or never.
-/

namespace Volant.Cluster

/-- `AssignmentSnapshot`, over any type of topic maps. The wire form is the same data. -/
structure Snapshot (T : Type) where
  generation : Nat
  topics : T
deriving DecidableEq, Repr

namespace Snapshot

variable {T : Type}

/-- The live assignment after `apply_cluster_state`. -/
def applyClusterState (snap live : Snapshot T) : Snapshot T :=
  if snap.generation < live.generation then live else snap

/-- The live assignment after a local change: the next generation, with new topics. -/
def mutate (topics : T) (live : Snapshot T) : Snapshot T :=
  ⟨saturatingSucc live.generation, topics⟩

def restoreLiveAssignment (prev : Snapshot T) (expectedGen : Nat) (live : Snapshot T) :
    Snapshot T :=
  if live.generation ≠ expectedGen then live else prev

/-- What `note_committed_snapshot` records; an older snapshot replaces a newer one. -/
def noteCommittedSnapshot (gen : Nat) (snap : Snapshot T) : Snapshot T :=
  { snap with generation := if 0 < gen then gen else snap.generation }

end Snapshot

/-- `AssignmentConsensus`: what one broker has committed. -/
structure Consensus (T : Type) where
  committedGeneration : Nat
  committedSnapshot : Option (Snapshot T)
deriving DecidableEq, Repr

namespace Consensus

variable {T : Type}

def majority (n : Nat) : Nat := n / 2 + 1

/-- The end of `commit` and of `note_committed_snapshot`, which have loaded `cur` before. -/
def store (generation cur : Nat) (c : Consensus T) : Consensus T :=
  if cur < generation then { c with committedGeneration := generation } else c

end Consensus

/-- How far a call has come on its broker. -/
inductive Stage (n : Nat) (T : Type) where
  /-- `snapshot_if_must_wait` is done. -/
  | started (prev : Option (Snapshot T))
  | mutated (prev : Option (Snapshot T))
  /-- `complete_assignment_mutation` has read the generation. -/
  | completing (prev : Option (Snapshot T)) (expectedGen : Nat)
  /-- The notes are out; these peers' answers have come. -/
  | proposed (prev : Option (Snapshot T)) (expectedGen : Nat) (acks : List (Fin n))
  | missed (prev : Option (Snapshot T)) (expectedGen : Nat)
  /-- The committed generation is to be loaded; a snapshot is recorded after that, or was before. -/
  | advancing (generation : Nat) (before : Bool)
  | loaded (generation cur : Nat) (before : Bool)
  /-- The live assignment is to be read again. -/
  | rereading
  | recording (generation : Nat) (snap : Snapshot T)
  | done
deriving DecidableEq, Repr

/-- What a call between its load and its store has loaded. -/
def Stage.cur? {n : Nat} {T : Type} : Stage n T → Option Nat
  | .loaded _ cur _ => some cur
  | _ => none

/-- A call: an admin request, or the handling of a note on a peer. -/
structure Call (n : Nat) (T : Type) where
  broker : Fin n
  /-- The request whose note a peer handles. -/
  origin : Option Nat
  stage : Stage n T
  /-- What the note has, once it is sent. -/
  note : Option (Snapshot T)
deriving DecidableEq, Repr

/-- History: a snapshot that was recorded as committed, by whom, and if in its own round. -/
structure Commit (n : Nat) (T : Type) where
  broker : Fin n
  round : Bool
  snapshot : Snapshot T
deriving DecidableEq, Repr

structure ConsensusSystem (n : Nat) (T : Type) where
  live : Fin n → Snapshot T
  consensus : Fin n → Consensus T
  /-- The calls so far, by number. -/
  calls : AList fun _ : Nat => Call n T
  /-- Cluster states that brokers have sent out. -/
  states : List (Snapshot T)
  /-- History: every assignment that has been a broker's live one. -/
  stored : Fin n → List (Snapshot T)
  commits : List (Commit n T)

inductive ConsensusEvent (n : Nat) (T : Type) where
  /-- A request arrives; it waits for the majority or not. -/
  | start (k : Nat) (i : Fin n) (mustWait : Bool)
  | mutate (k : Nat) (topics : T)
  | complete (k : Nat)
  | propose (k : Nat)
  /-- A peer applies the note of request `r`, in a call of its own. -/
  | note (r k : Nat) (m : Fin n)
  /-- The answer of a peer's call reaches the request. -/
  | ack (k : Nat)
  /-- The answers are counted. -/
  | finish (k : Nat)
  | load (k : Nat)
  | store (k : Nat)
  | reread (k : Nat)
  | record (k : Nat)
  | rollback (k : Nat)
  | sendState (i : Fin n)
  /-- A broker applies a cluster state that was sent at some time. -/
  | pull (m : Fin n) (k : Nat)
deriving DecidableEq, Repr

namespace ConsensusSystem

variable {n : Nat} {T : Type}

/-- All brokers with the same assignment, before the first change. -/
def fresh (n : Nat) (topics : T) : ConsensusSystem n T where
  live _ := ⟨0, topics⟩
  consensus _ := ⟨0, none⟩
  calls := ∅
  states := []
  stored _ := [⟨0, topics⟩]
  commits := []

variable (s : ConsensusSystem n T)

def setLive (i : Fin n) (snap : Snapshot T) : ConsensusSystem n T :=
  { s with
    live := Function.update s.live i snap
    stored := Function.update s.stored i (snap :: s.stored i) }

def setConsensus (i : Fin n) (c : Consensus T) : ConsensusSystem n T :=
  { s with consensus := Function.update s.consensus i c }

def setCall (k : Nat) (c : Call n T) : ConsensusSystem n T :=
  { s with calls := s.calls.insert k c }

def logCommit (c : Commit n T) : ConsensusSystem n T :=
  { s with commits := c :: s.commits }

/-- One event; one that does not fit the stage of its call changes nothing. -/
def step : ConsensusEvent n T → ConsensusSystem n T
  | .start k i mustWait =>
    if k ∈ s.calls then s
    else s.setCall k ⟨i, none, .started (if mustWait then some (s.live i) else none), none⟩
  | .mutate k topics =>
    match s.calls.lookup k with
    | some ⟨i, origin, .started prev, note⟩ =>
      (s.setLive i ((s.live i).mutate topics)).setCall k ⟨i, origin, .mutated prev, note⟩
    | _ => s
  | .complete k =>
    match s.calls.lookup k with
    | some ⟨i, origin, .mutated prev, note⟩ =>
      s.setCall k ⟨i, origin, .completing prev (s.live i).generation, note⟩
    | _ => s
  | .propose k =>
    match s.calls.lookup k with
    | some ⟨i, origin, .completing prev expectedGen, none⟩ =>
      s.setCall k ⟨i, origin, .proposed prev expectedGen [], some (s.live i)⟩
    | _ => s
  | .note r k m =>
    match s.calls.lookup r with
    | some ⟨i, _, _, some snap⟩ =>
      if m = i ∨ k ∈ s.calls then s
      else (s.setLive m (snap.applyClusterState (s.live m))).setCall k
        ⟨m, some r, .rereading, some snap⟩
    | _ => s
  | .ack k =>
    match s.calls.lookup k with
    | some ⟨m, some r, .done, _⟩ =>
      match s.calls.lookup r with
      | some ⟨i, origin, .proposed prev expectedGen acks, note⟩ =>
        if m ∈ acks then s
        else s.setCall r ⟨i, origin, .proposed prev expectedGen (m :: acks), note⟩
      | _ => s
    | _ => s
  | .finish k =>
    match s.calls.lookup k with
    | some ⟨i, origin, .proposed prev expectedGen acks, some snap⟩ =>
      if Consensus.majority n ≤ acks.length + 1 then
        s.setCall k ⟨i, origin, .advancing snap.generation true, some snap⟩
      else s.setCall k ⟨i, origin, .missed prev expectedGen, some snap⟩
    | _ => s
  | .load k =>
    match s.calls.lookup k with
    | some ⟨i, origin, .advancing generation before, note⟩ =>
      s.setCall k
        ⟨i, origin, .loaded generation (s.consensus i).committedGeneration before, note⟩
    | _ => s
  | .store k =>
    match s.calls.lookup k with
    | some ⟨i, origin, .loaded generation cur before, note⟩ =>
      (s.setCall k ⟨i, origin, if before then .rereading else .done, note⟩).setConsensus i
        ((s.consensus i).store generation cur)
    | _ => s
  | .reread k =>
    match s.calls.lookup k with
    | some ⟨i, origin, .rereading, some snap⟩ =>
      -- a request keeps the generation of its round, a peer takes that of the assignment
      let generation := if origin.isNone then snap.generation else (s.live i).generation
      if origin.isSome ∧ generation = 0 then s.setCall k ⟨i, origin, .done, some snap⟩
      else s.setCall k ⟨i, origin, .recording generation (s.live i), some snap⟩
    | _ => s
  | .record k =>
    match s.calls.lookup k with
    | some ⟨i, origin, .recording generation snap, note⟩ =>
      let stored := snap.noteCommittedSnapshot generation
      ((s.setCall k ⟨i, origin, .advancing generation false, note⟩).logCommit
        ⟨i, origin.isNone, stored⟩).setConsensus i
          { s.consensus i with committedSnapshot := some stored }
    | _ => s
  | .rollback k =>
    match s.calls.lookup k with
    | some ⟨i, origin, .missed prev expectedGen, note⟩ =>
      let live := match prev with
        | some prev => prev.restoreLiveAssignment expectedGen (s.live i)
        | none => s.live i
      (s.setLive i live).setCall k ⟨i, origin, .done, note⟩
    | _ => s
  | .sendState i => { s with states := s.states ++ [s.live i] }
  | .pull m k =>
    match s.states[k]? with
    | some snap => s.setLive m (snap.applyClusterState (s.live m))
    | none => s

def run (events : List (ConsensusEvent n T)) : ConsensusSystem n T :=
  events.foldl step s

/-! ## The condition -/

/-- A change gets a generation that no assignment has had. A note reaches a peer that is not past
its generation, and what is recorded still has the generation of the note. The loads and stores of
two calls on one broker do not overlap. -/
def Safe : ConsensusEvent n T → Prop
  | .mutate k _ =>
    ∀ c ∈ s.calls.lookup k, ∀ i, ∀ x ∈ s.stored i,
      x.generation ≠ saturatingSucc (s.live c.broker).generation
  | .note r _ m =>
    ∀ c ∈ s.calls.lookup r, ∀ snap ∈ c.note, (s.live m).generation ≤ snap.generation
  | .reread k =>
    ∀ c ∈ s.calls.lookup k, ∀ snap ∈ c.note, (s.live c.broker).generation = snap.generation
  | .load k =>
    ∀ c ∈ s.calls.lookup k, ∀ e ∈ s.calls.entries, e.2.broker = c.broker → e.2.stage.cur? = none
  | _ => True

instance (s : ConsensusSystem n T) (e : ConsensusEvent n T) : Decidable (s.Safe e) := by
  cases e <;> unfold Safe <;> infer_instance

/-- Every event of the run is safe where it happens. -/
def SafeRun (s : ConsensusSystem n T) : List (ConsensusEvent n T) → Prop
  | [] => True
  | e :: events => s.Safe e ∧ SafeRun (s.step e) events

instance decidableSafeRun (s : ConsensusSystem n T) (events : List (ConsensusEvent n T)) :
    Decidable (s.SafeRun events) :=
  match events with
  | [] => .isTrue trivial
  | e :: events =>
    have := decidableSafeRun (s.step e) events
    inferInstanceAs (Decidable (s.Safe e ∧ SafeRun (s.step e) events))

/-- The brokers that have had this assignment as their live one. -/
def holders [DecidableEq T] (snap : Snapshot T) : Finset (Fin n) :=
  Finset.univ.filter fun i => snap ∈ s.stored i

end ConsensusSystem

end Volant.Cluster
