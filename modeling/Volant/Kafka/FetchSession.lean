-- SUMMARY: Fetch sessions, their mirrors, and what becomes of two primaries of one session.
import Mathlib.Data.List.AList

/-!
# Fetch sessions

The table of `kafka/fetch_session.rs`. A broker holds a session as its primary,
or as the mirror of one that another broker has. The maps of topics are
functions, and the type of a topic is left open, since nothing here looks into
one. Metrics, durable files and the queue of outgoing puts are left out.
-/

namespace Volant.Kafka

structure FetchSession (T : Type) where
  epoch : Int
  topics : String → Option T
  lastActivityMs : Int
  mirrorGen : Nat
  promotedBy : Nat

section

variable {T : Type} (a b incoming existing : FetchSession T)

/-- By generation, then epoch, then activity. -/
def sessionIsNewer : Bool :=
  if a.mirrorGen ≠ b.mirrorGen then b.mirrorGen < a.mirrorGen
  else if a.epoch ≠ b.epoch then b.epoch < a.epoch
  else b.lastActivityMs < a.lastActivityMs

/-- The lower of two claims wins, and `0` is none. -/
def claimWins (incoming existing : Nat) : Bool :=
  match incoming, existing with
  | 0, _ => false
  | _, 0 => true
  | a, b => a < b

def sessionClaimWins : Bool :=
  if sessionIsNewer incoming existing then true
  else if sessionIsNewer existing incoming then false
  else claimWins incoming.promotedBy existing.promotedBy

def dualEpochClaimId (promotedBy ownerId : Nat) : Nat :=
  if promotedBy ≠ 0 then promotedBy else ownerId

def sessionDualEpochWins (incomingOwner existingOwner : Nat) : Bool :=
  if incoming.mirrorGen ≠ existing.mirrorGen then existing.mirrorGen < incoming.mirrorGen
  else if incoming.epoch ≠ existing.epoch then existing.epoch < incoming.epoch
  else claimWins (dualEpochClaimId incoming.promotedBy incomingOwner)
    (dualEpochClaimId existing.promotedBy existingOwner)

def bothUnclaimedPrimaryIsh : Bool := a.promotedBy = 0 && b.promotedBy = 0

end

/-- A snapshot of a session. A delta has the topics that were put and the keys that were removed. -/
structure StoredFetchSession (T : Type) extends FetchSession T where
  id : Int
  fromMirror : Bool
  isDelta : Bool
  removeTopicKeys : List String

structure FetchSessionManager (T : Type) where
  sessions : AList fun _ : Int => FetchSession T
  mirrors : AList fun _ : Int => FetchSession T
  nextId : Int
  idleTimeoutMs : Nat
  maxSessions : Nat
  ownerNodeId : Nat
  dualEpochConverge : Bool
  mirrorConverge : Bool

namespace FetchSessionManager

variable {T : Type} (m : FetchSessionManager T)

/-! ## Mirrors -/

/-- A full snapshot, which is that of the mirror if there is no primary. -/
def exportSession (id : Int) : Option (StoredFetchSession T) :=
  match m.sessions.lookup id with
  | some s => some { s with id, fromMirror := false, isDelta := false, removeTopicKeys := [] }
  | none => (m.mirrors.lookup id).map fun s =>
      { s with id, fromMirror := true, isDelta := false, removeTopicKeys := [] }

/-- A delta goes on top of the primary, or else of the mirror. -/
def resolveDeltaPut (stored : StoredFetchSession T) : FetchSession T :=
  let base := (m.sessions.lookup stored.id).or (m.mirrors.lookup stored.id)
  { stored.toFetchSession with topics := fun key =>
      if key ∈ stored.removeTopicKeys then none
      else (stored.topics key).or (base.bind (·.topics key)) }

def applyMirrorPut (stored : StoredFetchSession T) : Except String (FetchSessionManager T) :=
  if stored.id ≤ 0 then .error "invalid session id"
  else
    let session := if stored.isDelta then m.resolveDeltaPut stored else stored.toFetchSession
    .ok <| match m.sessions.lookup stored.id with
    | some primary =>
      if stored.fromMirror then m
      else if m.dualEpochConverge && bothUnclaimedPrimaryIsh primary session then
        if sessionDualEpochWins session primary session.promotedBy m.ownerNodeId then
          { m with sessions := m.sessions.erase stored.id
                   mirrors := m.mirrors.insert stored.id session }
        else m
      else if sessionClaimWins session primary then
        { m with sessions := m.sessions.insert stored.id session
                 mirrors := m.mirrors.erase stored.id }
      else m
    | none =>
      let wins := (m.mirrors.lookup stored.id).all fun existing =>
        if stored.fromMirror && m.mirrorConverge then
          sessionDualEpochWins session existing session.promotedBy m.ownerNodeId
        else sessionClaimWins session existing
      if wins then { m with mirrors := m.mirrors.insert stored.id session } else m

/-! ## Two primaries of one session -/

/-- A snapshot arrives. -/
def deliver (put : Option (StoredFetchSession T)) : FetchSessionManager T :=
  (put.bind fun stored => (m.applyMirrorPut stored).toOption).getD m

/-- Two brokers make snapshots of their sessions, and then each gets the other one's. -/
def exchange (id : Int) (a b : FetchSessionManager T) :
    FetchSessionManager T × FetchSessionManager T :=
  (a.deliver (b.exportSession id), b.deliver (a.exportSession id))

/-- The second broker makes its snapshot when it has got that of the first. -/
def exchangeInTurn (id : Int) (a b : FetchSessionManager T) :
    FetchSessionManager T × FetchSessionManager T :=
  let b := b.deliver (a.exportSession id)
  (a.deliver (b.exportSession id), b)

/-- One broker has the primary and the other one only a mirror of it. -/
def Mirrors (id : Int) (a b : FetchSessionManager T) : Prop :=
  ∃ s ∈ a.sessions.lookup id, b.sessions.lookup id = none ∧ ∃ t ∈ b.mirrors.lookup id,
    t.mirrorGen = s.mirrorGen ∧ t.epoch = s.epoch ∧ t.topics = s.topics

def Converged (id : Int) (r : FetchSessionManager T × FetchSessionManager T) : Prop :=
  Mirrors id r.1 r.2 ∨ Mirrors id r.2 r.1

/-- The broker has the session as an unclaimed primary, and converges. -/
structure Unclaimed (id : Int) (m : FetchSessionManager T) (s : FetchSession T) : Prop where
  valid : 0 < id
  primary : m.sessions.lookup id = some s
  unclaimed : s.promotedBy = 0
  converges : m.dualEpochConverge = true

variable {m} {id : Int} {a b : FetchSessionManager T} {s t : FetchSession T}

/-- A snapshot does not say whose it is, so that of an equal unclaimed session wins nowhere. -/
theorem wins_unclaimed_iff {owner : Nat} (h : t.promotedBy = 0) :
    sessionDualEpochWins t s 0 owner = true ↔
      s.mirrorGen < t.mirrorGen ∨ s.mirrorGen = t.mirrorGen ∧ s.epoch < t.epoch := by
  unfold sessionDualEpochWins
  rw [h]
  split_ifs with hgen hepoch
  · rw [decide_eq_true_eq]
    omega
  · rw [decide_eq_true_eq]
    omega
  · exact iff_of_false nofun (by omega)

/-- The snapshot of another unclaimed primary takes the place of this one or does nothing. -/
theorem Unclaimed.deliver_eq (h : Unclaimed id m s) (h' : Unclaimed id a t) :
    m.deliver (a.exportSession id) = if sessionDualEpochWins t s 0 m.ownerNodeId then
        { m with sessions := m.sessions.erase id, mirrors := m.mirrors.insert id t }
      else m := by
  have hid : ¬ id ≤ 0 := Int.not_le.mpr h.valid
  simp [deliver, exportSession, h'.primary, applyMirrorPut, hid, h.primary, bothUnclaimedPrimaryIsh,
    h.unclaimed, h'.unclaimed, h.converges, Except.toOption]

/-- It does not matter which snapshot is made and arrives first: that of a mirror does nothing to
a primary. -/
theorem Unclaimed.exchangeInTurn_eq (ha : Unclaimed id a s) (hb : Unclaimed id b t) :
    exchangeInTurn id a b = exchange id a b := by
  unfold exchangeInTurn exchange
  dsimp only
  rw [hb.deliver_eq ha]
  split_ifs with hwins
  · have hlost : ¬ sessionDualEpochWins t s 0 a.ownerNodeId = true := by
      rw [wins_unclaimed_iff ha.unclaimed] at hwins
      rw [wins_unclaimed_iff hb.unclaimed]
      omega
    have hid : ¬ id ≤ 0 := Int.not_le.mpr ha.valid
    rw [ha.deliver_eq hb, if_neg hlost]
    simp [deliver, exportSession, applyMirrorPut, hid, ha.primary, Except.toOption]
  · rfl

/-- Two unclaimed primaries converge exactly when their generations or epochs differ. -/
theorem dual_primaries_converge_iff (ha : Unclaimed id a s) (hb : Unclaimed id b t) :
    (Converged id (exchange id a b) ↔ s.mirrorGen ≠ t.mirrorGen ∨ s.epoch ≠ t.epoch) ∧
      (Converged id (exchangeInTurn id a b) ↔
        s.mirrorGen ≠ t.mirrorGen ∨ s.epoch ≠ t.epoch) := by
  rw [ha.exchangeInTurn_eq hb, and_self]
  have hst := @wins_unclaimed_iff _ s t a.ownerNodeId hb.unclaimed
  have hts := @wins_unclaimed_iff _ t s b.ownerNodeId ha.unclaimed
  simp only [Converged, exchange, Mirrors, ha.deliver_eq hb, hb.deliver_eq ha, hst, hts]
  by_cases h₁ : s.mirrorGen < t.mirrorGen ∨ s.mirrorGen = t.mirrorGen ∧ s.epoch < t.epoch
  · rw [if_pos h₁, if_neg (by omega)]
    simp [hb.primary]
    omega
  · by_cases h₂ : t.mirrorGen < s.mirrorGen ∨ t.mirrorGen = s.mirrorGen ∧ t.epoch < s.epoch
    · rw [if_neg h₁, if_pos h₂]
      simp [ha.primary]
      omega
    · rw [if_neg h₁, if_neg h₂]
      simp [ha.primary, hb.primary]
      omega

/-- A broker with one session, which it created and served `gen` times. -/
def holder (owner gen : Nat) : FetchSessionManager Unit where
  sessions := AList.singleton 7 ⟨1, fun _ => none, 0, gen, 0⟩
  mirrors := ∅
  nextId := 8
  idleTimeoutMs := 60000
  maxSessions := 1000
  ownerNodeId := owner
  dualEpochConverge := true
  mirrorConverge := true

theorem dual_primaries_converge_newer : Converged 7 (exchange 7 (holder 1 2) (holder 2 3)) :=
  (dual_primaries_converge_iff ⟨by decide, rfl, rfl, rfl⟩ ⟨by decide, rfl, rfl, rfl⟩).1.mpr
    (.inl (by decide))

/-- Of two primaries with the same generation and epoch, both stay. -/
theorem equal_primaries_stay : [exchange 7 (holder 1 2) (holder 2 2),
      exchangeInTurn 7 (holder 1 2) (holder 2 2)].Forall fun exchanged =>
    (exchanged.1.sessions.lookup 7).isSome ∧ (exchanged.2.sessions.lookup 7).isSome := by
  decide

end FetchSessionManager
end Volant.Kafka
