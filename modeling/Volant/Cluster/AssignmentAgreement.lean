-- SUMMARY: Agreement of committed assignment snapshots, in runs that reissue no generation.
import Volant.Cluster.AssignmentConsensus

/-!
# Agreement on assignments

The invariant is that a generation stands for one assignment: any two that were
ever live on some broker are equal if their generations are. Notes, rollbacks,
cluster states and commits only move such assignments around, and a change of
the assignment gets a new generation in a safe run. What an answer promises is
that the peer has had the assignment of the note.
-/

namespace Volant.Cluster

open List

theorem Snapshot.noteCommittedSnapshot_self {T : Type} (snap : Snapshot T) :
    snap.noteCommittedSnapshot snap.generation = snap := by
  simp [noteCommittedSnapshot]

namespace ConsensusSystem

variable {n : Nat} {T : Type} {s s' : ConsensusSystem n T} {i : Fin n} {k : Nat} {c d : Call n T}
  {x snap : Snapshot T}

/-- An assignment that some broker has had. -/
def Had (s : ConsensusSystem n T) (x : Snapshot T) : Prop :=
  ∃ i, x ∈ s.stored i

/-- Nothing is taken out of the history, and a call whose note is out keeps broker and note. -/
structure Grows (s s' : ConsensusSystem n T) : Prop where
  stored : ∀ i, s.stored i ⊆ s'.stored i
  calls : ∀ k c, s.calls.lookup k = some c → c.note.isSome →
    ∃ c', s'.calls.lookup k = some c' ∧ c'.note = c.note ∧ c'.broker = c.broker

theorem Grows.of_eq (hstored : s'.stored = s.stored) (hcalls : s'.calls = s.calls) : Grows s s' :=
  ⟨fun _ => hstored ▸ List.Subset.refl _, fun _ c hk _ => ⟨c, hcalls ▸ hk, rfl, rfl⟩⟩

theorem Grows.setLive (i : Fin n) (x : Snapshot T) : Grows s (s.setLive i x) := by
  refine ⟨fun j => ?_, fun k c hk _ => ⟨c, hk, rfl, rfl⟩⟩
  by_cases hj : j = i
  · subst hj
    simp [ConsensusSystem.setLive]
  · simp [ConsensusSystem.setLive, hj]

theorem lookup_setCall (r : Nat) :
    (s.setCall k d).calls.lookup r = if r = k then some d else s.calls.lookup r := by
  unfold setCall
  split_ifs with hr
  · rw [hr, AList.lookup_insert]
  · rw [AList.lookup_insert_ne hr]

/-- A new call, or another stage of one, with the same broker and note. -/
def Succeeds (s : ConsensusSystem n T) (k : Nat) (d : Call n T) : Prop :=
  ∀ c, s.calls.lookup k = some c → d.broker = c.broker ∧ (c.note.isSome → d.note = c.note)

theorem succeeds_of_lookup (hk : s.calls.lookup k = some c) (hbroker : d.broker = c.broker)
    (hnote : c.note.isSome → d.note = c.note) : s.Succeeds k d := by
  intro c' hc'
  cases hk.symm.trans hc'
  exact ⟨hbroker, hnote⟩

theorem succeeds_of_notMem (h : k ∉ s.calls) : s.Succeeds k d :=
  fun _ hc => absurd (AList.lookup_isSome.mp (Option.isSome_of_eq_some hc)) h

theorem Grows.setCall (h : s.Succeeds k d) : Grows s (s.setCall k d) := by
  refine ⟨fun _ => List.Subset.refl _, fun r c hr hsome => ?_⟩
  rw [lookup_setCall]
  split_ifs with heq
  · subst heq
    exact ⟨d, rfl, (h c hr).2 hsome, (h c hr).1⟩
  · exact ⟨c, hr, rfl, rfl⟩

theorem Grows.had (h : Grows s s') (hx : Had s x) : Had s' x :=
  hx.imp fun i hi => h.stored i hi

theorem mem_stored_setLive (i : Fin n) (x : Snapshot T) : x ∈ (s.setLive i x).stored i := by
  simp [setLive]

/-- What was live before is all that was, apart from the new assignment. -/
theorem Had.of_setLive (h : Had (s.setLive i snap) x) : x = snap ∨ Had s x := by
  obtain ⟨j, hj⟩ := h
  by_cases hji : j = i
  · subst hji
    simp only [setLive, Function.update_self, mem_cons] at hj
    exact hj.imp_right fun hj => ⟨j, hj⟩
  · simp only [setLive, Function.update_of_ne hji] at hj
    exact .inr ⟨j, hj⟩

variable [DecidableEq T]

theorem Grows.holders (h : Grows s s') (x : Snapshot T) :
    (s.holders x).card ≤ (s'.holders x).card := by
  refine Finset.card_le_card fun i hi => ?_
  simp only [ConsensusSystem.holders, Finset.mem_filter, Finset.mem_univ, true_and] at hi ⊢
  exact h.stored i hi

/-- A majority has had the note: of a request's own, or of any in a cluster of three. -/
def Quorum (s : ConsensusSystem n T) (c : Call n T) : Prop :=
  n ≤ 3 ∨ c.origin = none → ∀ x ∈ c.note, Consensus.majority n ≤ (s.holders x).card

/-- What is true of a call at its stage. -/
def AtStage (s : ConsensusSystem n T) (c : Call n T) : Prop :=
  match c.stage with
  | .started prev | .mutated prev | .completing prev _ | .missed prev _ => ∀ x ∈ prev, Had s x
  | .proposed prev _ acks => (∀ x ∈ prev, Had s x) ∧ acks.Nodup ∧
      ∀ m ∈ acks, m ≠ c.broker ∧ ∀ x ∈ c.note, x ∈ s.stored m
  | .advancing _ before | .loaded _ _ before => before = true → Quorum s c
  | .rereading => Quorum s c
  | .recording generation snap => c.note = some snap ∧ generation = snap.generation ∧ Quorum s c
  | .done => True

structure CallInv (s : ConsensusSystem n T) (c : Call n T) : Prop where
  note : ∀ x ∈ c.note, x ∈ s.stored c.broker
  /-- A peer's call is about the note of another broker. -/
  origin : ∀ r, c.origin = some r → ∃ d, s.calls.lookup r = some d ∧ d.note.isSome ∧
    d.note = c.note ∧ d.broker ≠ c.broker
  stage : AtStage s c

structure Inv (s : ConsensusSystem n T) : Prop where
  coherent : ∀ x y, Had s x → Had s y → x.generation = y.generation → x = y
  live : ∀ i, s.live i ∈ s.stored i
  states : ∀ x ∈ s.states, Had s x
  calls : ∀ k c, s.calls.lookup k = some c → CallInv s c
  commits : ∀ c ∈ s.commits, Had s c.snapshot ∧
    (n ≤ 3 ∨ c.round = true → Consensus.majority n ≤ (s.holders c.snapshot).card)
  recorded : ∀ i snap, (s.consensus i).committedSnapshot = some snap →
    ∃ c ∈ s.commits, c.broker = i ∧ c.snapshot = snap
  /-- Between a call's load and its store nobody else stores. -/
  counter : ∀ k c cur, s.calls.lookup k = some c → c.stage.cur? = some cur →
    cur = (s.consensus c.broker).committedGeneration
  alone : ∀ k k' c c', s.calls.lookup k = some c → s.calls.lookup k' = some c' →
    c.broker = c'.broker → c.stage.cur?.isSome → c'.stage.cur?.isSome → k = k'

theorem Quorum.mono (h : Grows s s') (hq : Quorum s c) : Quorum s' c :=
  fun hn x hx => (hq hn x hx).trans (h.holders x)

theorem AtStage.mono (h : Grows s s') (hc : AtStage s c) : AtStage s' c := by
  unfold AtStage at hc ⊢
  split at hc
  all_goals first
    | exact fun x hx => h.had (hc x hx)
    | exact fun hbefore => (hc hbefore).mono h
    | skip
  · exact ⟨fun x hx => h.had (hc.1 x hx), hc.2.1,
      fun m hm => ⟨(hc.2.2 m hm).1, fun x hx => h.stored m ((hc.2.2 m hm).2 x hx)⟩⟩
  · exact hc.mono h
  · exact ⟨hc.1, hc.2.1, hc.2.2.mono h⟩
  · trivial

theorem CallInv.mono (h : Grows s s') (hc : CallInv s c) : CallInv s' c := by
  refine ⟨fun x hx => h.stored _ (hc.note x hx), fun r hr => ?_, hc.stage.mono h⟩
  obtain ⟨d, hd, hsome, hnote, hbroker⟩ := hc.origin r hr
  obtain ⟨d', hd', hnote', hbroker'⟩ := h.calls r d hd hsome
  exact ⟨d', hd', hnote' ▸ hsome, hnote'.trans hnote, hbroker' ▸ hbroker⟩

theorem fresh_inv (n : Nat) (topics : T) : Inv (fresh n topics) where
  coherent x y hx hy _ := by
    obtain ⟨i, hx⟩ := hx
    obtain ⟨j, hy⟩ := hy
    rw [mem_singleton.mp hx, mem_singleton.mp hy]
  live i := mem_singleton_self _
  states := by simp [fresh]
  calls := by simp [fresh]
  commits := by simp [fresh]
  recorded := by simp [fresh]
  counter := by simp [fresh]
  alone := by simp [fresh]

/-! ## Steps -/

section

variable (h : Inv s)

include h

theorem Inv.callInv (hgrows : Grows s s') (hk : s.calls.lookup k = some c) : CallInv s' c :=
  (h.calls k c hk).mono hgrows

/-- A broker with another assignment, if that keeps the meaning of its generation. -/
theorem Inv.setLive (hsame : ∀ x, Had s x → x.generation = snap.generation → x = snap) :
    Inv (s.setLive i snap) := by
  have hgrows := Grows.setLive (s := s) i snap
  refine ⟨fun x y hx hy heq => ?_, fun j => ?_, fun x hx => hgrows.had (h.states x hx),
    fun _ _ => h.callInv hgrows, fun c hc => ⟨hgrows.had (h.commits c hc).1,
      fun hn => ((h.commits c hc).2 hn).trans (hgrows.holders _)⟩,
    h.recorded, h.counter, h.alone⟩
  · rcases hx.of_setLive with hx' | hx'
    · rcases hy.of_setLive with hy' | hy'
      · rw [hx', hy']
      · exact hx'.trans (hsame y hy' (hx' ▸ heq.symm)).symm
    · rcases hy.of_setLive with hy' | hy'
      · exact (hsame x hx' (hy' ▸ heq)).trans hy'.symm
      · exact h.coherent x y hx' hy' heq
  · by_cases hj : j = i
    · subst hj
      simp [ConsensusSystem.setLive]
    · simpa [ConsensusSystem.setLive, hj] using h.live j

/-- A broker that takes over an assignment somebody has had. -/
theorem Inv.setHad (hhad : Had s snap) : Inv (s.setLive i snap) :=
  h.setLive fun x hx heq => h.coherent x snap hx hhad heq

theorem Inv.applyClusterState (hhad : Had s snap) (m : Fin n) :
    Inv (s.setLive m (snap.applyClusterState (s.live m))) := by
  unfold Snapshot.applyClusterState
  split_ifs
  · exact h.setHad ⟨m, h.live m⟩
  · exact h.setHad hhad

/-- A new call, or another stage of one. One that has just loaded is the only one of its broker. -/
theorem Inv.setCall (hk : s.Succeeds k d) (hd : CallInv s d)
    (hcounter : ∀ cur, d.stage.cur? = some cur →
      cur = (s.consensus d.broker).committedGeneration ∧
      ∀ e ∈ s.calls.entries, e.2.broker = d.broker → e.2.stage.cur? = none) :
    Inv (s.setCall k d) := by
  have hgrows := Grows.setCall hk
  have hcases (r : Nat) (c : Call n T) (hr : (s.setCall k d).calls.lookup r = some c) :
      (r = k ∧ c = d) ∨ s.calls.lookup r = some c := by
    rw [lookup_setCall] at hr
    split_ifs at hr with heq
    · exact .inl ⟨heq, (Option.some.inj hr).symm⟩
    · exact .inr hr
  refine ⟨h.coherent, h.live, h.states, fun r c hr => ?_, h.commits, h.recorded,
    fun r c cur hr hcur => ?_, fun r r' c c' hr hr' hsame hcur hcur' => ?_⟩
  · rcases hcases r c hr with ⟨-, rfl⟩ | hr
    · exact hd.mono hgrows
    · exact h.callInv hgrows hr
  · rcases hcases r c hr with ⟨-, rfl⟩ | hr
    · exact (hcounter cur hcur).1
    · exact h.counter r c cur hr hcur
  · have hnone (r : Nat) (c : Call n T) (hr : s.calls.lookup r = some c)
        (hsame : c.broker = d.broker) (hd : d.stage.cur?.isSome) : ¬ c.stage.cur?.isSome := by
      obtain ⟨cur, hcur⟩ := Option.isSome_iff_exists.mp hd
      simp [(hcounter cur hcur).2 ⟨r, c⟩ (AList.mem_lookup_iff.mp hr) hsame]
    rcases hcases r c hr with ⟨hrk, hc⟩ | hold
    · rcases hcases r' c' hr' with ⟨hrk', -⟩ | hold'
      · exact hrk.trans hrk'.symm
      · subst hc
        exact absurd hcur' (hnone r' c' hold' hsame.symm hcur)
    · rcases hcases r' c' hr' with ⟨-, hc'⟩ | hold'
      · subst hc'
        exact absurd hcur (hnone r c hold hsame hcur')
      · exact h.alone r r' c c' hold hold' hsame hcur hcur'

/-- A call at another stage that has not loaded. -/
theorem Inv.restage {origin : Option Nat} {stage stage' : Stage n T} {note : Option (Snapshot T)}
    (hk : s.calls.lookup k = some ⟨i, origin, stage, note⟩) (hcur : stage'.cur? = none)
    (hstage : AtStage s ⟨i, origin, stage', note⟩) :
    Inv (s.setCall k ⟨i, origin, stage', note⟩) := by
  have hcall := h.calls k _ hk
  exact h.setCall (succeeds_of_lookup hk rfl fun _ => rfl) ⟨hcall.note, hcall.origin, hstage⟩
    fun _ h => absurd (hcur.symm.trans h) nofun

theorem Inv.setConsensus {cons : Consensus T}
    (hcounter : cons.committedGeneration = (s.consensus i).committedGeneration ∨
      ∀ k c, s.calls.lookup k = some c → c.broker = i → c.stage.cur? = none)
    (hrecorded : ∀ snap, cons.committedSnapshot = some snap →
      ∃ c ∈ s.commits, c.broker = i ∧ c.snapshot = snap) : Inv (s.setConsensus i cons) := by
  refine ⟨h.coherent, h.live, h.states, fun _ _ => h.callInv (.of_eq rfl rfl), h.commits,
    fun j snap hj => ?_, fun k c cur hk hcur => ?_, h.alone⟩
  · by_cases hji : j = i
    · subst hji
      exact hrecorded snap (by simpa [ConsensusSystem.setConsensus] using hj)
    · exact h.recorded j snap (by simpa [ConsensusSystem.setConsensus, hji] using hj)
  · have hold := h.counter k c cur hk hcur
    by_cases hci : c.broker = i
    · rcases hcounter with heq | hnone
      · simpa [ConsensusSystem.setConsensus, hci, heq] using hci ▸ hold
      · cases (hnone k c hk hci).symm.trans hcur
    · simpa [ConsensusSystem.setConsensus, hci] using hold

theorem Inv.logCommit (commit : Commit n T) (hhad : Had s commit.snapshot)
    (hquorum : n ≤ 3 ∨ commit.round = true →
      Consensus.majority n ≤ (s.holders commit.snapshot).card) : Inv (s.logCommit commit) := by
  refine ⟨h.coherent, h.live, h.states, fun _ _ => h.callInv (.of_eq rfl rfl), fun c hc => ?_,
    fun i snap hi => ?_, h.counter, h.alone⟩
  · rcases mem_cons.mp hc with rfl | hc
    · exact ⟨hhad, hquorum⟩
    · exact h.commits c hc
  · obtain ⟨c, hc, hci⟩ := h.recorded i snap hi
    exact ⟨c, mem_cons_of_mem _ hc, hci⟩

end

/-- The members of a request's majority have had its assignment. -/
theorem majority_holders {prev : Option (Snapshot T)} {expectedGen : Nat} {acks : List (Fin n)}
    (hc : CallInv s c) (hstage : c.stage = .proposed prev expectedGen acks)
    (hnote : c.note = some snap) : acks.length + 1 ≤ (s.holders snap).card := by
  have hat := hc.stage
  rw [AtStage, hstage] at hat
  obtain ⟨-, hnodup, hacks⟩ := hat
  have hself : c.broker ∉ acks := fun hmem => (hacks _ hmem).1 rfl
  have hcard : (c.broker :: acks).toFinset.card = acks.length + 1 :=
    toFinset_card_of_nodup (nodup_cons.mpr ⟨hself, hnodup⟩)
  rw [← hcard]
  refine Finset.card_le_card fun i hi => ?_
  simp only [holders, Finset.mem_filter, Finset.mem_univ, true_and]
  rcases mem_cons.mp (mem_toFinset.mp hi) with rfl | hi
  · exact hc.note snap hnote
  · exact (hacks i hi).2 snap hnote

/-- Of three brokers two are a majority: the proposer and the peer. -/
theorem pair_majority {m : Fin n} (hn : n ≤ 3) (hne : m ≠ i) (hi : snap ∈ s.stored i)
    (hm : snap ∈ s.stored m) : Consensus.majority n ≤ (s.holders snap).card := by
  have hsub : ({i, m} : Finset (Fin n)) ⊆ s.holders snap := by
    intro j hj
    simp only [holders, Finset.mem_filter, Finset.mem_univ, true_and]
    rcases Finset.mem_insert.mp hj with rfl | hj
    · exact hi
    · exact Finset.mem_singleton.mp hj ▸ hm
  have hcard := Finset.card_le_card hsub
  rw [Finset.card_pair hne.symm] at hcard
  unfold Consensus.majority
  omega

section

variable (h : Inv s)

include h

theorem Inv.mutate {topics : T} (hsafe : s.Safe (.mutate k topics)) :
    Inv (s.step (.mutate k topics)) := by
  simp only [step]
  split
  · rename_i i origin prev note hk
    have hfresh := hsafe _ hk
    have hset : Inv (s.setLive i ((s.live i).mutate topics)) :=
      h.setLive fun x ⟨j, hj⟩ heq => absurd heq (hfresh j x hj)
    have hat : AtStage _ ⟨i, origin, .started prev, note⟩ := (hset.calls k _ hk).stage
    exact hset.restage hk rfl hat
  · exact h

theorem Inv.propose (k : Nat) : Inv (s.step (.propose k)) := by
  simp only [step]
  split
  · rename_i i origin prev expectedGen hk
    have hcall := h.calls k _ hk
    refine h.setCall (succeeds_of_lookup hk rfl nofun)
      ⟨?_, fun r hr => ?_, hcall.stage, nodup_nil, nofun⟩ nofun
    · rintro x ⟨⟩
      exact h.live i
    · -- a peer's call has its note from the start
      obtain ⟨d, -, hsome, hnote, -⟩ := hcall.origin r hr
      rw [hnote] at hsome
      cases hsome
  · exact h

/-- A note that is not stale is taken over, so that the peer and the proposer have had it. -/
theorem Inv.note {r : Nat} {m : Fin n} (hsafe : s.Safe (.note r k m)) :
    Inv (s.step (.note r k m)) := by
  simp only [step]
  split
  · rename_i i origin stage snap hr
    have hgen : ¬ snap.generation < (s.live m).generation := Nat.not_lt.mpr (hsafe _ hr snap rfl)
    have hsnap := (h.calls r _ hr).note snap rfl
    split_ifs with hskip
    · exact h
    · obtain ⟨hself, hfree⟩ := not_or.mp hskip
      have hset := h.applyClusterState ⟨i, hsnap⟩ m
      have heq : snap.applyClusterState (s.live m) = snap := if_neg hgen
      rw [heq] at hset ⊢
      have hstored := mem_stored_setLive (s := s) m snap
      refine hset.setCall (succeeds_of_notMem hfree) ⟨?_, ?_, fun hn => ?_⟩ nofun
      · rintro x ⟨⟩
        exact hstored
      · rintro r' ⟨⟩
        exact ⟨_, hr, rfl, rfl, Ne.symm hself⟩
      · rintro x ⟨⟩
        have hthree : n ≤ 3 := hn.resolve_right nofun
        exact pair_majority hthree hself ((Grows.setLive m snap).stored i hsnap) hstored
  · exact h

theorem Inv.ack (k : Nat) : Inv (s.step (.ack k)) := by
  simp only [step]
  split
  · rename_i m r note hk
    split
    · rename_i i origin prev expectedGen acks note' hr
      split_ifs with hnew
      · exact h
      · obtain ⟨d, hd, -, hnote, hbroker⟩ := (h.calls k _ hk).origin r rfl
        cases hr.symm.trans hd
        obtain ⟨hprev, hnodup, hacks⟩ := (h.calls r _ hr).stage
        refine h.restage hr rfl ⟨hprev, nodup_cons.mpr ⟨hnew, hnodup⟩, fun m' hm' => ?_⟩
        rcases mem_cons.mp hm' with rfl | hm'
        · exact ⟨hbroker.symm, fun x hx => (h.calls k _ hk).note x (hnote ▸ hx)⟩
        · exact hacks m' hm'
    · exact h
  · exact h

theorem Inv.finish (k : Nat) : Inv (s.step (.finish k)) := by
  simp only [step]
  split
  · rename_i i origin prev expectedGen acks snap hk
    have hcall := h.calls k _ hk
    split_ifs with hmajority
    · refine h.restage hk rfl fun _ _ => ?_
      rintro x ⟨⟩
      exact hmajority.trans (majority_holders hcall rfl rfl)
    · exact h.restage hk rfl hcall.stage.1
  · exact h

theorem Inv.load (hsafe : s.Safe (.load k)) : Inv (s.step (.load k)) := by
  simp only [step]
  split
  · rename_i i origin generation before note hk
    have hcall := h.calls k _ hk
    have halone := hsafe _ hk
    refine h.setCall (succeeds_of_lookup hk rfl fun _ => rfl)
      ⟨hcall.note, hcall.origin, hcall.stage⟩ ?_
    rintro cur ⟨⟩
    exact ⟨rfl, halone⟩
  · exact h

theorem Inv.store (k : Nat) : Inv (s.step (.store k)) := by
  simp only [step]
  split
  · rename_i i origin generation cur before note hk
    have hcall := h.calls k _ hk
    have hset : Inv (s.setCall k ⟨i, origin, if before then .rereading else .done, note⟩) := by
      cases before with
      | true => exact h.restage hk rfl (hcall.stage rfl)
      | false => exact h.restage hk rfl trivial
    refine hset.setConsensus (.inr fun r c hr hci => ?_) fun snap hsnap => ?_
    · -- this call was the only one of its broker between load and store
      rw [lookup_setCall] at hr
      by_cases heq : r = k
      · rw [if_pos heq] at hr
        cases hr
        cases before <;> rfl
      · rw [if_neg heq] at hr
        by_contra hcur
        exact heq (h.alone r k c _ hr hk hci (Option.isSome_iff_ne_none.mpr hcur) rfl)
    · refine h.recorded i snap ?_
      unfold Consensus.store at hsnap
      split_ifs at hsnap <;> exact hsnap
  · exact h

/-- While the assignment has the generation of the note, it is the assignment of the note. -/
theorem Inv.reread (hsafe : s.Safe (.reread k)) : Inv (s.step (.reread k)) := by
  simp only [step]
  split
  · rename_i i origin snap hk
    have hcall := h.calls k _ hk
    have hlive : s.live i = snap := h.coherent _ _ ⟨i, h.live i⟩ ⟨i, hcall.note snap rfl⟩
      (hsafe _ hk snap rfl)
    rw [hlive, ite_self]
    split_ifs
    · exact h.restage hk rfl trivial
    · exact h.restage hk rfl ⟨rfl, rfl, hcall.stage⟩
  · exact h

theorem Inv.record (k : Nat) : Inv (s.step (.record k)) := by
  simp only [step]
  split
  · rename_i i origin generation snap note hk
    obtain ⟨hnote, hgen, hquorum⟩ := (h.calls k _ hk).stage
    subst hgen
    rw [Snapshot.noteCommittedSnapshot_self]
    have hset : Inv (s.setCall k ⟨i, origin, .advancing snap.generation false, note⟩) :=
      h.restage hk rfl nofun
    have hlogged := hset.logCommit ⟨i, origin.isNone, snap⟩
      ⟨i, (h.calls k _ hk).note snap hnote⟩
      fun hn => hquorum (hn.imp_right Option.isNone_iff_eq_none.mp) snap hnote
    refine hlogged.setConsensus (.inl rfl) ?_
    rintro x ⟨⟩
    exact ⟨_, mem_cons_self, rfl, rfl⟩
  · exact h

theorem Inv.rollback (k : Nat) : Inv (s.step (.rollback k)) := by
  simp only [step]
  split
  · rename_i i origin prev expectedGen note hk
    have hprev : ∀ x ∈ prev, Had s x := (h.calls k _ hk).stage
    have hlive : Had s (s.live i) := ⟨i, h.live i⟩
    have hset {x : Snapshot T} (hx : Had s x) :
        Inv ((s.setLive i x).setCall k ⟨i, origin, .done, note⟩) :=
      (h.setHad hx).restage hk rfl trivial
    cases prev with
    | none => exact hset hlive
    | some prev =>
      unfold Snapshot.restoreLiveAssignment
      dsimp only
      split_ifs
      · exact hset hlive
      · exact hset (hprev prev rfl)
  · exact h

/-- One event keeps the invariant if it is safe. -/
theorem Inv.step {e : ConsensusEvent n T} (hsafe : s.Safe e) : Inv (s.step e) := by
  cases e with
  | start k i mustWait =>
    simp only [ConsensusSystem.step]
    split_ifs with hk hwait
    · exact h
    · refine h.setCall (succeeds_of_notMem hk) ⟨nofun, nofun, ?_⟩ nofun
      rintro x ⟨⟩
      exact ⟨i, h.live i⟩
    · exact h.setCall (succeeds_of_notMem hk) ⟨nofun, nofun, nofun⟩ nofun
  | mutate k topics => exact h.mutate hsafe
  | complete k =>
    simp only [ConsensusSystem.step]
    split
    · rename_i hk
      exact h.restage hk rfl (h.calls k _ hk).stage
    · exact h
  | propose k => exact h.propose k
  | note r k m => exact h.note hsafe
  | ack k => exact h.ack k
  | finish k => exact h.finish k
  | load k => exact h.load hsafe
  | store k => exact h.store k
  | reread k => exact h.reread hsafe
  | record k => exact h.record k
  | rollback k => exact h.rollback k
  | sendState i =>
    refine ⟨h.coherent, h.live, fun x hx => ?_, fun _ _ => h.callInv (.of_eq rfl rfl), h.commits,
      h.recorded, h.counter, h.alone⟩
    rcases mem_append.mp hx with hx | hx
    · exact h.states x hx
    · exact ⟨i, mem_singleton.mp hx ▸ h.live i⟩
  | pull m k =>
    simp only [ConsensusSystem.step]
    split
    · rename_i snap hk
      exact h.applyClusterState (h.states snap (mem_of_getElem? hk)) m
    · exact h

theorem Inv.run {events : List (ConsensusEvent n T)} (hsafe : s.SafeRun events) :
    Inv (s.run events) := by
  induction events generalizing s with
  | nil => exact h
  | cons e events ih => exact ih (h.step hsafe.1) hsafe.2

/-- Only a store changes a committed generation, and the counter is what the call has loaded. -/
theorem Inv.committedGeneration_le (e : ConsensusEvent n T) (j : Fin n) :
    (s.consensus j).committedGeneration ≤ ((s.step e).consensus j).committedGeneration := by
  have hset {i : Fin n} {c : Consensus T}
      (hle : (s.consensus i).committedGeneration ≤ c.committedGeneration) :
      (s.consensus j).committedGeneration ≤
        (Function.update s.consensus i c j).committedGeneration := by
    by_cases hj : j = i
    · subst hj
      rwa [Function.update_self]
    · rw [Function.update_of_ne hj]
  cases e with
  | store k =>
    simp only [ConsensusSystem.step]
    split
    · rename_i i origin generation cur before note hk
      have hcur := h.counter k _ cur hk rfl
      refine hset ?_
      unfold Consensus.store
      split_ifs with hlt
      · exact hcur ▸ hlt.le
      · exact le_rfl
    · exact le_rfl
  | record k =>
    simp only [ConsensusSystem.step]
    split
    · exact hset (by exact le_rfl)
    · exact le_rfl
  | _ =>
    simp only [ConsensusSystem.step]
    repeat' split
    all_goals exact le_rfl

end

/-- Agreement: in every run whose events are safe, a committed snapshot is recorded in the history;
one that a request committed in its own round, or any in a cluster of three, a majority of the
brokers have stored; two committed snapshots of one generation are equal; and no further event
makes a committed generation smaller. -/
theorem assignment_agreement (topics : T) (events : List (ConsensusEvent n T))
    (hsafe : (fresh n topics).SafeRun events) :
    let s := (fresh n topics).run events
    (∀ i snap, (s.consensus i).committedSnapshot = some snap →
      ∃ c ∈ s.commits, c.broker = i ∧ c.snapshot = snap) ∧
    (∀ c ∈ s.commits, n ≤ 3 ∨ c.round = true →
      Consensus.majority n ≤ (s.holders c.snapshot).card) ∧
    (∀ c ∈ s.commits, ∀ c' ∈ s.commits,
      c.snapshot.generation = c'.snapshot.generation → c.snapshot = c'.snapshot) ∧
    ∀ e i, (s.consensus i).committedGeneration ≤ ((s.step e).consensus i).committedGeneration := by
  have hinv : Inv ((fresh n topics).run events) := (fresh_inv n topics).run hsafe
  refine ⟨hinv.recorded, fun c hc => (hinv.commits c hc).2, fun c hc c' hc' => ?_,
    hinv.committedGeneration_le⟩
  exact hinv.coherent c.snapshot c'.snapshot (hinv.commits c hc).1 (hinv.commits c' hc').1

/-- A peer's call after it has applied a note: it records the assignment and updates its counter. -/
def handled (k : Nat) : List (ConsensusEvent 3 (List String)) :=
  [.reread k, .record k, .load k, .store k]

/-- Broker 0 changes the topics, and one peer gets the note. -/
def noted (k : Nat) (topics : List String) (m : Fin 3) : List (ConsensusEvent 3 (List String)) :=
  [.start k 0 true, .mutate k topics, .complete k, .propose k, .note k (k + 1) m] ++
    handled (k + 1)

/-- A round of a cluster of three: broker 1 answers, broker 0 commits. -/
def agreedRound : List (ConsensusEvent 3 (List String)) :=
  noted 0 ["orders"] 1 ++ [.ack 1, .finish 0, .load 0, .store 0] ++ handled 0

/-- The round keeps every event safe, and both brokers have committed the same snapshot. -/
theorem assignment_agreement_round : (fresh 3 ([] : List String)).SafeRun agreedRound ∧
    ((fresh 3 []).run agreedRound).commits =
      [⟨0, true, ⟨1, ["orders"]⟩⟩, ⟨1, false, ⟨1, ["orders"]⟩⟩] ∧
    ∀ c ∈ ((fresh 3 ([] : List String)).run agreedRound).commits,
      2 ≤ (((fresh 3 []).run agreedRound).holders c.snapshot).card := by
  have hsafe : (fresh 3 ([] : List String)).SafeRun agreedRound := by decide +kernel
  exact ⟨hsafe, by decide +kernel, fun c hc =>
    (assignment_agreement [] agreedRound hsafe).2.1 c hc (.inl (le_refl 3))⟩

/-- Two rounds of broker 0. Only broker 1 gets the first note; broker 0 misses its majority, goes
back to generation 0, and gives generation 1 out again. Only broker 2 gets the second note. -/
def reissuedRounds : List (ConsensusEvent 3 (List String)) :=
  noted 0 ["orders"] 1 ++ [.finish 0, .rollback 0] ++ noted 2 ["payments"] 2 ++
    [.ack 3, .finish 2, .load 2, .store 2] ++ handled 2

/-- Two rounds of broker 0, which gets its majority for both before it counts the answers. -/
def overlappingRounds : List (ConsensusEvent 3 (List String)) :=
  noted 0 ["orders"] 1 ++ [.ack 1] ++ noted 2 ["orders", "payments"] 1 ++
    [.ack 3, .finish 0, .finish 2, .load 0, .load 2, .store 2]

/-- The reissued generation is committed by broker 1 with other topics than by brokers 0 and 2. In
the overlapping rounds the store of the first one takes the committed generation of broker 0 from 2
back to 1. -/
theorem reissued_generation_disagrees :
    ((fresh 3 ([] : List String)).run reissuedRounds).commits =
      [⟨0, true, ⟨1, ["payments"]⟩⟩, ⟨2, false, ⟨1, ["payments"]⟩⟩,
        ⟨1, false, ⟨1, ["orders"]⟩⟩] ∧
    (((fresh 3 ([] : List String)).run overlappingRounds).consensus 0).committedGeneration = 2 ∧
    (((fresh 3 ([] : List String)).run (overlappingRounds ++ [.store 0])).consensus
      0).committedGeneration = 1 := by
  decide +kernel

end ConsensusSystem
end Volant.Cluster
