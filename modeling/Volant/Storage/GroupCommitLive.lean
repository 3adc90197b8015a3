-- SUMMARY: No caller of group commit waits forever in a fair run, and the guarantees of group commit put together.
import Volant.Storage.GroupCommitSpec

/-!
# Liveness of group commit

A run is fair when a thread that can move on again and again does so, a
leader whose window has elapsed wakes up, and the clock goes on. Nothing is
assumed about which fsyncs succeed, and new calls may arrive without end.

The argument: the log lock is always released; a leader therefore always
finishes, and it finishes only once `flush_gen` has passed its ticket. A
caller that is left waiting sees its own leader finish, then either leads
itself or sees a leader elected after it, whose flush passes its ticket too.
-/

namespace Volant.Storage.GroupCommit

open Threads

/-- The steps a fair scheduler owes a thread: everything but new calls, spurious wake-ups, and
wake-ups of a leader before its window has elapsed. -/
def Sys.Helpful {n : Nat} (limits : Limits) (s : Sys n) (_ : Fin n) : Action → Prop
  | .append _ | .flush | .spuriousWake | .nextCall => False
  | .wake => remainingWindow limits s.time s.inner = 0
  | _ => True

/-- A run of `n` threads from a fresh coordinator; the environment lets time pass. -/
abbrev CommitRun (limits : Limits) (n : Nat) :=
  Run (Sys.next limits) Sys.tick (Sys.init n)

namespace CommitRun

variable {limits : Limits} {n : Nat}

structure Fair (run : CommitRun limits n) : Prop where
  scheduled : run.StronglyFair (Sys.Helpful limits)
  timePasses : ∀ time, ∃ k, time ≤ (run.state k).time

/-- No 64-bit counter of the coordinator overflows along the run. -/
def CountersFit (run : CommitRun limits n) : Prop :=
  ∀ k i action, run.act k = some (i, action) → (run.state k).countersFit i action = true

end CommitRun

/-! ## One step of a waiting thread -/

/-- How far a leader is from giving up the lead. -/
def Pc.stage : Pc → Nat
  | .leadWaiting _ => 6
  | .leadFlush _ => 5
  | .flushing _ => 4
  | .notifying _ => 3
  | .flushed _ => 2
  | .leadDone _ _ => 1
  | _ => 0

/-- How far the holder of the log lock is from releasing it. -/
def Pc.lockStage : Pc → Nat
  | .appending _ | .flushing _ => 3
  | .registering | .notifying _ => 2
  | .registered _ | .flushed _ => 1
  | _ => 0

/-- The thread is outside a call or in `cond.wait`. -/
def Pc.quiet : Pc → Bool
  | .idle | .parked _ _ | .returned _ => true
  | _ => false

attribute [simp] Pc.stage Pc.quiet

theorem Pc.ticket_of_leads {pc : Pc} (h : 0 < pc.leads) : ∃ k, pc.ticket = some k := by
  cases pc with
  | flushing leader | notifying leader | flushed leader =>
    cases leader <;> simp_all
  | _ => simp_all

namespace Sys

variable {n : Nat} {limits : Limits} {s t : Sys n} {i j : Fin n} {action : Action} {k : Nat}

/-- A leader moves on, keeps waiting for its window, or returns with its ticket passed. -/
theorem Step.leader_moves (h : Step limits s i action t) (hinv : s.Inv)
    (hfit : s.countersFit i action = true) (hl : 0 < (s.pcs i).leads) :
    (0 < (t.pcs i).leads ∧ (t.pcs i).stage < (s.pcs i).stage) ∨
    (t.pcs i = s.pcs i ∧ action = .wake ∧ shouldFlushNow limits s.time s.inner = false) ∨
    (t.inner.hasLeader = false ∧ (∃ result, t.pcs i = .returned result) ∧
      ∃ k, (s.pcs i).ticket = some k ∧ k < t.inner.flushGen) := by
  have hok := hinv.threads i
  cases h
  case wakeWait hpc _ hnow => exact .inr (.inl ⟨by simp [hpc], rfl, hnow⟩)
  case wakeDone k hpc hdone | finishDone k hpc hdone =>
    exact .inr (.inr ⟨rfl, ⟨_, leaveSection_self ..⟩, k, by rw [hpc]; rfl, hdone⟩)
  case finishFails k e hpc =>
    simp only [countersFit, hpc, decide_eq_true_eq] at hfit
    rw [hpc] at hok
    refine .inr (.inr ⟨rfl, ⟨_, leaveSection_self ..⟩, k, by rw [hpc]; rfl, ?_⟩)
    simp only [leaveSection_inner, leave, wrappingAdd_one hfit]
    exact Nat.lt_succ_of_le hok.1
  case finishWait hpc hundone =>
    rw [hpc] at hok
    exact absurd hok.2 (Nat.not_lt.mpr hundone)
  case leaderUnlock hpc | leaderFsyncFails hpc =>
    exact .inl ⟨by simp, by simp [hpc]⟩
  case wakeFlush hpc _ _ | lockLog hpc _ =>
    exact .inl ⟨by simp, by simp [hpc]⟩
  case fsyncOk hpc | notify hpc =>
    rw [hpc] at hl
    exact .inl ⟨by simpa using hl, by simp [hpc]⟩
  case flushUnlock hpc | flushFsyncFails hpc | append hpc _ _ | flush hpc _ | addPending hpc |
      registerWaiter hpc | dropLog hpc | enterDone hpc _ | enterWait hpc _ _ | enterLead hpc _ _ _ |
      spuriousWake hpc | nextCall hpc =>
    rw [hpc] at hl
    exact absurd hl (by simp)

/-- A caller keeps its ticket until it returns. -/
theorem Step.keeps_ticket (h : Step limits s i action t) (hj : (s.pcs j).ticket = some k) :
    (t.pcs j).ticket = some k ∨ ∃ result, t.pcs j = .returned result := by
  by_cases hji : j = i
  · subst hji
    cases h
    case enterDone | wakeDone | finishFails | finishDone =>
      exact .inr ⟨_, leaveSection_self ..⟩
    case enterLead hpc _ _ hnext =>
      rw [hpc] at hj
      rcases hnext with rfl | rfl <;> exact .inl (by simpa using hj)
    case append hpc _ _ | flush hpc _ | addPending hpc | registerWaiter hpc | flushUnlock hpc |
        flushFsyncFails hpc | nextCall hpc =>
      rw [hpc] at hj
      cases hj
    case dropLog hpc | leaderUnlock hpc | enterWait hpc _ _ | wakeFlush hpc _ _ |
        wakeWait hpc _ _ | lockLog hpc _ | fsyncOk hpc | leaderFsyncFails hpc | notify hpc |
        finishWait hpc _ | spuriousWake hpc =>
      rw [hpc] at hj
      exact .inl (by simpa using hj)
  · exact .inl ((h.midFlush_other hji).2.trans hj)

/-- The holder of the log lock releases it or comes closer to doing so. -/
theorem Step.holder_moves (h : Step limits s i action t) (hi : (s.pcs i).holdsLock = true) :
    t.logLock = none ∨ (t.pcs i).lockStage < (s.pcs i).lockStage := by
  cases h
  case addPending hpc | registerWaiter hpc | fsyncOk hpc | notify hpc =>
    exact .inr (by simp [hpc, Pc.lockStage])
  case dropLog | leaderUnlock | flushUnlock | leaderFsyncFails | flushFsyncFails => exact .inl rfl
  case append hpc _ _ | flush hpc _ | enterDone hpc _ | enterWait hpc _ _ | enterLead hpc _ _ _ |
      wakeDone hpc _ | wakeFlush hpc _ _ | wakeWait hpc _ _ | lockLog hpc _ | finishFails hpc |
      finishDone hpc _ | finishWait hpc _ | spuriousWake hpc | nextCall hpc =>
    rw [hpc] at hi
    cases hi

/-- Nothing but the clock and the scheduler stands between these program counters and a step. -/
theorem enabled_of_holdsLock (h : (s.pcs i).holdsLock = true) :
    ∃ a, s.Helpful limits i a ∧ (s.next limits i a).isSome := by
  cases hpc : s.pcs i with
  | appending records => exact ⟨.addPending, trivial, by simp [next, hpc]⟩
  | registering => exact ⟨.registerWaiter, trivial, by simp [next, hpc]⟩
  | registered k => exact ⟨.unlock, trivial, by simp [next, hpc]⟩
  | flushing leader => exact ⟨.fsync none, trivial, by simp [next, hpc]⟩
  | notifying leader => exact ⟨.notify, trivial, by simp [next, hpc]⟩
  | flushed leader => cases leader <;> exact ⟨.unlock, trivial, by simp [next, hpc]⟩
  | _ =>
    rw [hpc] at h
    cases h

theorem enabled_of_entering {c : Bool} (hpc : s.pcs i = .entering k c) :
    ∃ a, s.Helpful limits i a ∧ (s.next limits i a).isSome :=
  ⟨.enter, trivial, by simp [next, hpc]⟩

/-- A thread that is idle, parked or back from its call is owed nothing. -/
theorem next_of_quiet (hquiet : (s.pcs i).quiet = true) (hhelp : s.Helpful limits i action) :
    ¬ (s.next limits i action).isSome := by
  intro hsome
  obtain ⟨t, ht⟩ := Option.isSome_iff_exists.mp hsome
  cases step_of_next ht
  case append | flush | spuriousWake | nextCall => exact hhelp
  all_goals simp_all

section

variable (h : Step limits s i action t)

include h

/-- Steps of other threads leave a leader and a lock holder where they are. -/
theorem Step.stage_other (hj : j ≠ i) :
    (t.pcs j).leads = (s.pcs j).leads ∧ (t.pcs j).stage = (s.pcs j).stage ∧
      (t.pcs j).lockStage = (s.pcs j).lockStage := by
  rcases h.other hj with heq | ⟨heq, _⟩
  · rw [heq]
    cases s.pcs j <;> exact ⟨rfl, rfl, rfl⟩
  · rw [heq]
    exact ⟨rfl, rfl, rfl⟩

/-- While a caller waits the window is not opened again. -/
theorem Step.windowStart (hpos : 0 < s.inner.pendingWaiters) :
    t.inner.windowStart = none ∨ t.inner.windowStart = s.inner.windowStart := by
  cases h
  case registerWaiter =>
    exact .inr (if_neg (by omega))
  case addPending =>
    refine .inr ?_
    simp only [leaveSection_inner, GroupCommit.addPending]
    split <;> rfl
  case notify | finishFails => exact .inl rfl
  all_goals exact .inr rfl

theorem Step.time : t.time = s.time := by
  cases h <;> rfl

/-- A registered caller and one that contends for the mutex do not stay where they are. -/
theorem Step.moves_on
    (hpc : s.pcs i = .registered k ∨ s.pcs i = .entering k true) : t.pcs i ≠ s.pcs i := by
  cases h
  case enterLead hpc' _ _ hnext => rcases hnext with rfl | rfl <;> simp [hpc']
  all_goals simp_all

/-- A caller registers once. -/
theorem Step.registered_before {k' : Nat}
    (hj : (s.pcs j).ticket = some k) (ht : t.pcs j = .registered k') :
    s.pcs j = .registered k' := by
  by_cases hji : j = i
  · subst hji
    cases h
    case registerWaiter hpc =>
      rw [hpc] at hj
      cases hj
    case enterLead hnext => rcases hnext with rfl | rfl <;> simp at ht
    all_goals simp at ht
  · rcases h.other hji with heq | ⟨heq, _⟩
    · cases hpc : s.pcs j <;> simp_all [Pc.wakeUp]
    · rwa [← heq]

/-- The lead passes only to a caller whose ticket is not passed. -/
theorem Step.elects (hfree : s.inner.hasLeader = false) (hlead : t.inner.hasLeader = true) :
    ∃ k, s.inner.flushGen ≤ k ∧ 0 < (t.pcs i).leads ∧ (t.pcs i).ticket = some k := by
  cases h
  case enterLead k _ hpc hundone _ hnext =>
    refine ⟨k, hundone, ?_⟩
    rcases hnext with rfl | rfl <;> simp
  case addPending records _ =>
    simp only [leaveSection_inner, GroupCommit.addPending] at hlead
    split at hlead <;> exact absurd hlead (by simp [hfree])
  case wakeDone | finishFails | finishDone | finishWait => cases hlead
  all_goals exact absurd (hfree.symm.trans hlead) (by simp)

end

end Sys

/-! ## Fair runs -/

namespace CommitRun

variable {limits : Limits} {n : Nat} {run : CommitRun limits n} {k m ticket : Nat} {i j : Fin n}

theorem moment_cases (run : CommitRun limits n) (k : Nat) :
    (run.act k = none ∧ run.state (k + 1) = (run.state k).tick) ∨
    ∃ i action, run.act k = some (i, action) ∧
      Sys.Step limits (run.state k) i action (run.state (k + 1)) := by
  have hstep := run.step k
  rcases hact : run.act k with _ | ⟨i, action⟩ <;> rw [hact] at hstep
  · exact .inl ⟨rfl, hstep⟩
  · exact .inr ⟨i, action, rfl, Sys.step_of_next hstep⟩

theorem inv_at (hfit : run.CountersFit) (k : Nat) : (run.state k).Inv := by
  refine run.invariant Sys.inv_init (fun k h => ?_) k
  rcases moment_cases run k with ⟨_, heq⟩ | ⟨i, action, hact, hstep⟩
  · rw [heq]
    exact h.tick
  · exact h.step hstep (hfit k i action hact)

variable {helpful : Sys n → Fin n → Action → Prop}

theorem not_takes_of_act_none (h : run.act k = none) : ¬ run.Takes helpful k i := by
  rintro ⟨a, hact, _⟩
  rw [h] at hact
  cases hact

theorem not_takes_of_ne {action : Action}
    (h : run.act k = some (i, action)) (hj : j ≠ i) : ¬ run.Takes helpful k j := by
  rintro ⟨a, hact, _⟩
  rw [h] at hact
  simp only [Option.some.injEq, Prod.mk.injEq] at hact
  exact hj hact.1.symm

/-- The log lock is released again and again. -/
theorem logLock_released (hfit : run.CountersFit) (hfair : run.StronglyFair (Sys.Helpful limits))
    (k : Nat) : ∃ m, k ≤ m ∧ (run.state m).logLock = none := by
  refine Run.eventually_of_rank (fun s => s.logLock = none)
    (fun s => (s.logLock.map fun h => (s.pcs h).lockStage).getD 0)
    (fun s h => s.logLock = some h) hfair ?_ ?_ ?_ k
  · intro k hheld
    exact Option.ne_none_iff_exists'.mp hheld
  · intro k h hheld hheld' hh
    have hinv := inv_at hfit k
    rcases moment_cases run k with ⟨hact, heq⟩ | ⟨i, action, hact, hstep⟩
    · exact .inr ⟨by rw [heq]; rfl, by rw [heq]; exact hh, not_takes_of_act_none hact⟩
    · have hholds : ((run.state k).pcs h).holdsLock = true := (hinv.lock h).mpr hh
      by_cases hhi : h = i
      · subst hhi
        rcases hstep.logLock with ⟨hlock, _⟩ | ⟨hfree, _⟩ | ⟨_, hlock, _⟩
        · rcases hstep.holder_moves hholds with hnone | hlt
          · exact absurd hnone hheld'
          · refine .inl ?_
            simpa [hlock, hh] using hlt
        · exact absurd hfree hheld
        · exact absurd hlock hheld'
      · have hlock : (run.state (k + 1)).logLock = some h := by
          rcases hstep.logLock with ⟨hlock, _⟩ | ⟨hfree, _⟩ | ⟨hheldi, _⟩
          · rw [hlock, hh]
          · exact absurd hfree hheld
          · exact absurd (hinv.lock_unique hholds hheldi) hhi
        refine .inr ⟨?_, hlock, not_takes_of_ne hact hhi⟩
        simp [hlock, hh, (hstep.stage_other hhi).2.2]
  · intro k h hstuck
    obtain ⟨_, hh, _⟩ := hstuck k le_rfl
    exact ⟨k, le_rfl, Sys.enabled_of_holdsLock (((inv_at hfit k).lock h).mpr hh)⟩

theorem time_mono (h : k ≤ m) : (run.state k).time ≤ (run.state m).time := by
  induction m, h using Nat.le_induction with
  | base => exact le_rfl
  | succ m _ ih =>
    rcases moment_cases run m with ⟨_, heq⟩ | ⟨_, _, _, hstep⟩
    · rw [heq]
      exact ih.trans (Nat.le_succ _)
    · rw [hstep.time]
      exact ih

/-- The window of a caller that keeps waiting elapses. -/
theorem window_elapses (hfit : run.CountersFit) (hfair : Fair run)
    (hwaits : ∀ m, k ≤ m → ((run.state m).pcs j).ticket.isSome) :
    ∃ m, k ≤ m ∧ remainingWindow limits (run.state m).time (run.state m).inner = 0 := by
  have hwindow : ∀ m, k ≤ m → (run.state m).inner.windowStart = none ∨
      (run.state m).inner.windowStart = (run.state k).inner.windowStart := by
    intro m hm
    induction m, hm using Nat.le_induction with
    | base => exact .inr rfl
    | succ m hm ih =>
      rcases moment_cases run m with ⟨_, heq⟩ | ⟨_, _, _, hstep⟩
      · rw [heq]
        exact ih
      · rcases hstep.windowStart ((inv_at hfit m).pendingWaiters_pos (hwaits m hm)) with
          hnone | hsame
        · exact .inl hnone
        · rw [hsame]
          exact ih
  cases hstart : (run.state k).inner.windowStart with
  | none => exact ⟨k, le_rfl, by simp [remainingWindow, hstart]⟩
  | some start =>
    obtain ⟨l, hl⟩ := hfair.timePasses (start + limits.maxMs)
    refine ⟨max k l, le_max_left _ _, ?_⟩
    have htime := hl.trans (time_mono (le_max_right k l))
    rcases hwindow _ (le_max_left k l) with hnone | hsame
    · simp [remainingWindow, hnone]
    · simp only [remainingWindow, hsame, hstart]
      omega

/-- At its last step a leader returns, the lead is free again and the leader's ticket is passed. -/
def Finished (s t : Sys n) (j : Fin n) : Prop :=
  t.inner.hasLeader = false ∧ (∃ result, t.pcs j = .returned result) ∧
    ∃ k, (s.pcs j).ticket = some k ∧ k < t.inner.flushGen

theorem Finished.not_leads {s t : Sys n} (h : Finished s t j) : ¬ 0 < (t.pcs j).leads := by
  obtain ⟨_, ⟨result, heq⟩, _⟩ := h
  simp [heq]

/-- One moment of a leader: it stays at its stage without a helpful step, moves on or finishes. -/
theorem leader_moment (hfit : run.CountersFit) (hl : 0 < ((run.state k).pcs j).leads) :
    (0 < ((run.state (k + 1)).pcs j).leads ∧
      ((run.state (k + 1)).pcs j).stage < ((run.state k).pcs j).stage) ∨
    (0 < ((run.state (k + 1)).pcs j).leads ∧
      ((run.state (k + 1)).pcs j).stage = ((run.state k).pcs j).stage ∧
      ¬ run.Takes (Sys.Helpful limits) k j) ∨ Finished (run.state k) (run.state (k + 1)) j := by
  rcases moment_cases run k with ⟨hact, heq⟩ | ⟨i, action, hact, hstep⟩
  · exact .inr (.inl ⟨by rw [heq]; exact hl, by rw [heq]; rfl, not_takes_of_act_none hact⟩)
  · by_cases hji : j = i
    · subst hji
      rcases hstep.leader_moves (inv_at hfit k) (hfit k j action hact) hl with
        hmoves | ⟨hsame, rfl, hnow⟩ | hfinished
      · exact .inl hmoves
      · refine .inr (.inl ⟨hsame ▸ hl, by rw [hsame], ?_⟩)
        rintro ⟨a, hact', hhelp⟩
        rw [hact] at hact'
        simp only [Option.some.injEq, Prod.mk.injEq, true_and] at hact'
        subst hact'
        simp only [Sys.Helpful] at hhelp
        simp [shouldFlushNow, hhelp] at hnow
      · exact .inr (.inr hfinished)
    · obtain ⟨hleads, hstage, _⟩ := hstep.stage_other hji
      exact .inr (.inl ⟨hleads ▸ hl, hstage, not_takes_of_ne hact hji⟩)

/-- A leader that stays at one stage is enabled at some moment. -/
theorem leader_enabled (hfit : run.CountersFit) (hfair : Fair run)
    (hstuck : ∀ m, k ≤ m → 0 < ((run.state m).pcs j).leads ∧
      ((run.state m).pcs j).stage = ((run.state k).pcs j).stage) :
    ∃ m, k ≤ m ∧ ∃ a, (run.state m).Helpful limits j a ∧
      ((run.state m).next limits j a).isSome := by
  have hk := (hstuck k le_rfl).1
  cases hpc : (run.state k).pcs j with
  | leadWaiting ticket =>
    have hwaiting : ∀ m, k ≤ m → ∃ ticket, (run.state m).pcs j = .leadWaiting ticket := by
      intro m hm
      have hstage := (hstuck m hm).2
      cases h : (run.state m).pcs j <;> simp_all
    obtain ⟨m, hm, hwindow⟩ := window_elapses hfit hfair (k := k) (j := j) fun m hm => by
      obtain ⟨ticket, h⟩ := hwaiting m hm
      rw [h]
      rfl
    obtain ⟨ticket, h⟩ := hwaiting m hm
    exact ⟨m, hm, .wake, hwindow, by simp [Sys.next, h]⟩
  | leadFlush ticket =>
    obtain ⟨m, hm, hfree⟩ := logLock_released hfit hfair.scheduled k
    have hstage := (hstuck m hm).2
    refine ⟨m, hm, .lockLog, trivial, ?_⟩
    cases h : (run.state m).pcs j <;> simp_all [Sys.next]
  | leadDone ticket result => exact ⟨k, le_rfl, .finish, trivial, by simp [Sys.next, hpc]⟩
  | flushing | notifying | flushed =>
    exact ⟨k, le_rfl, Sys.enabled_of_holdsLock (by rw [hpc]; rfl)⟩
  | _ => simp [hpc] at hk

/-- Every leader finishes. -/
theorem leader_finishes (hfit : run.CountersFit) (hfair : Fair run)
    (hl : 0 < ((run.state k).pcs j).leads) (ht : ((run.state k).pcs j).ticket = some ticket) :
    ∃ m, k < m ∧ (run.state m).inner.hasLeader = false ∧
      ticket < (run.state m).inner.flushGen ∧ ∃ result, (run.state m).pcs j = .returned result := by
  have hends : ∃ m, k ≤ m ∧ ¬ 0 < ((run.state m).pcs j).leads := by
    refine Run.eventually_of_rank (fun s => ¬ 0 < (s.pcs j).leads) (fun s => (s.pcs j).stage)
      (fun _ h => h = j) hfair.scheduled (fun _ _ => ⟨j, rfl⟩) ?_ ?_ k
    · rintro k h hleads hleads' rfl
      rcases leader_moment hfit (not_not.mp hleads) with ⟨_, hlt⟩ | ⟨_, heq, hnot⟩ | hfinished
      · exact .inl hlt
      · exact .inr ⟨heq, rfl, hnot⟩
      · exact absurd (not_not.mp hleads') hfinished.not_leads
    · intro k h hstuck
      obtain ⟨_, rfl, _⟩ := hstuck k le_rfl
      exact leader_enabled hfit hfair fun m hm =>
        ⟨not_not.mp (hstuck m hm).1, (hstuck m hm).2.2⟩
  obtain ⟨m, hm, hno⟩ := hends
  -- the last moment at which it leads with this ticket
  obtain ⟨l, hkl, ⟨hlead, hticket⟩, hlast⟩ := Run.exists_last
    (p := fun s : Sys n => 0 < (s.pcs j).leads ∧ (s.pcs j).ticket = some ticket) ⟨hl, ht⟩ hm
    (fun h => hno h.1)
  have hkeeps : 0 < ((run.state (l + 1)).pcs j).leads →
      ((run.state (l + 1)).pcs j).ticket = some ticket := by
    intro hstill
    rcases moment_cases run l with ⟨_, heq⟩ | ⟨_, _, _, hstep⟩
    · rw [heq]
      exact hticket
    · rcases hstep.keeps_ticket hticket with hsame | ⟨_, hreturned⟩
      · exact hsame
      · simp [hreturned] at hstill
  rcases leader_moment hfit hlead with ⟨hstill, _⟩ | ⟨hstill, _⟩ | ⟨hfree, hreturned, k', hk', hlt⟩
  · exact absurd ⟨hstill, hkeeps hstill⟩ hlast
  · exact absurd ⟨hstill, hkeeps hstill⟩ hlast
  · rw [hticket] at hk'
    cases hk'
    exact ⟨l + 1, by omega, hfree, hlt, hreturned⟩

theorem flushGen_mono (hfit : run.CountersFit) (h : k ≤ m) :
    (run.state k).inner.flushGen ≤ (run.state m).inner.flushGen := by
  induction m, h using Nat.le_induction with
  | base => exact le_rfl
  | succ m _ ih =>
    rcases moment_cases run m with ⟨_, heq⟩ | ⟨i, action, hact, hstep⟩
    · rw [heq]
      exact ih
    · exact ih.trans (hstep.flushGen_le (hfit m i action hact))

/-- A caller that never returns keeps its ticket for good. -/
theorem ticket_stays (hticket : ((run.state k).pcs i).ticket = some ticket)
    (hnever : ∀ m, k ≤ m → ∀ result, (run.state m).pcs i ≠ .returned result) (hm : k ≤ m) :
    ((run.state m).pcs i).ticket = some ticket := by
  induction m, hm using Nat.le_induction with
  | base => exact hticket
  | succ m hm ih =>
    rcases moment_cases run m with ⟨_, heq⟩ | ⟨_, _, _, hstep⟩
    · rw [heq]
      exact ih
    · rcases hstep.keeps_ticket ih with hkeeps | ⟨result, hreturned⟩
      · exact hkeeps
      · exact absurd hreturned (hnever (m + 1) (by omega) result)

/-- A caller that is registered or contends for the mutex does not do so for good. -/
theorem not_stuck (hfair : Fair run) (i : Fin n) (l ticket : Nat) {pc : Pc}
    (hpc : pc = .registered ticket ∨ pc = .entering ticket true) :
    ¬ ∀ m, l ≤ m → (run.state m).pcs i = pc := by
  intro hstuck
  have henabled : ∀ m, l ≤ m → ∃ a, (run.state m).Helpful limits i a ∧
      ((run.state m).next limits i a).isSome := by
    intro m hm
    have heq := hstuck m hm
    rcases hpc with rfl | rfl
    · exact Sys.enabled_of_holdsLock (by rw [heq]; rfl)
    · exact Sys.enabled_of_entering heq
  obtain ⟨m, hm, a, hact, _⟩ := hfair.scheduled.takes henabled
  rcases moment_cases run m with ⟨hnone, _⟩ | ⟨i', a', hact', hstep⟩
  · rw [hnone] at hact
    cases hact
  · rw [hact'] at hact
    obtain ⟨rfl, _⟩ := Prod.mk.inj (Option.some.inj hact)
    refine hstep.moves_on (k := ticket) ?_ ?_
    · rw [hstuck m hm]
      exact hpc
    · rw [hstuck m hm, hstuck (m + 1) (by omega)]

/-- The ticket of a caller that follows is never passed. -/
theorem never_passed (hfit : run.CountersFit) (hfair : Fair run) {l : Nat}
    (hl : ∀ m, l ≤ m → (run.state m).pcs i = .entering ticket true ∨
      (run.state m).pcs i = .parked ticket true) (hm : l ≤ m) :
    (run.state m).inner.flushGen ≤ ticket := by
  by_contra hpassed
  refine not_stuck hfair i m ticket (.inr rfl) fun m' hm' => ?_
  rcases hl m' (hm.trans hm') with hentering | hparked
  · exact hentering
  · have hok := (inv_at hfit m').threads i
    rw [hparked] at hok
    have hgen := flushGen_mono hfit hm'
    exact absurd hok.2.2.2 (by omega)

section Waiting

/-!
A caller `i` with a ticket that never returns after moment `k`. It never leads, so it comes to
follow for good; its ticket is never passed; and yet a leader elected after it finishes.
-/

variable {k : Nat} {i : Fin n} {ticket : Nat} (hfit : run.CountersFit) (hfair : Fair run)
  (hticket : ((run.state k).pcs i).ticket = some ticket)
  (hnever : ∀ m, k ≤ m → ∀ result, (run.state m).pcs i ≠ .returned result)

include hfit hfair hticket hnever

theorem never_leads {m : Nat} (hm : k ≤ m) : ((run.state m).pcs i).leads = 0 := by
  by_contra hl
  obtain ⟨l, hml, _, _, result, hreturned⟩ :=
    leader_finishes hfit hfair (Nat.pos_of_ne_zero hl) (ticket_stays hticket hnever hm)
  exact hnever l (by omega) result hreturned

/-- The program counters of a waiter that does not lead. -/
theorem waiter_cases {m : Nat} (hm : k ≤ m) :
    (run.state m).pcs i = .registered ticket ∨ (run.state m).pcs i = .entering ticket true ∨
      (run.state m).pcs i = .parked ticket true := by
  have hstays := ticket_stays hticket hnever hm
  have hleads := never_leads hfit hfair hticket hnever hm
  have hok := (inv_at hfit m).threads i
  cases hpc : (run.state m).pcs i with
  | registered k' | entering k' c | parked k' c =>
    simp_all [Sys.PcOk]
  | flushing leader | notifying leader | flushed leader => simp_all
  | _ => simp_all

/-- From some moment on the caller follows: it contends for the mutex or is parked. -/
theorem follows : ∃ l, k ≤ l ∧ ∀ m, l ≤ m →
    (run.state m).pcs i = .entering ticket true ∨ (run.state m).pcs i = .parked ticket true := by
  obtain ⟨l, hl, hne⟩ : ∃ l, k ≤ l ∧ (run.state l).pcs i ≠ .registered ticket := by
    by_contra hno
    push Not at hno
    exact not_stuck hfair i k ticket (.inl rfl) hno
  refine ⟨l, hl, fun m hm => ?_⟩
  have hnot : (run.state m).pcs i ≠ .registered ticket := by
    induction m, hm using Nat.le_induction with
    | base => exact hne
    | succ m hm ih =>
      intro hreg
      rcases moment_cases run m with ⟨_, heq⟩ | ⟨_, _, _, hstep⟩
      · rw [heq] at hreg
        exact ih hreg
      · exact ih (hstep.registered_before (ticket_stays hticket hnever (by omega)) hreg)
  rcases waiter_cases hfit hfair hticket hnever (hl.trans hm) with hreg | hfollows
  · exact absurd hreg hnot
  · exact hfollows

theorem absurd_of_never_returns : False := by
  obtain ⟨l, hkl, hfollows⟩ := follows hfit hfair hticket hnever
  -- the lead is free at some moment after `l`
  obtain ⟨l', hl', hfree⟩ : ∃ l', l ≤ l' ∧ (run.state l').inner.hasLeader = false := by
    cases hlead : (run.state l).inner.hasLeader with
    | false => exact ⟨l, le_rfl, hlead⟩
    | true =>
      have hcensus := (inv_at hfit l).leaders
      rw [hlead] at hcensus
      obtain ⟨j, hj⟩ := exists_of_census_pos (f := Pc.leads) (p := (run.state l).pcs)
        (by rw [hcensus]; exact Nat.one_pos)
      obtain ⟨k', hk'⟩ := Pc.ticket_of_leads hj
      obtain ⟨m, hm, hfree, _⟩ := leader_finishes hfit hfair hj hk'
      exact ⟨m, hm.le, hfree⟩
  -- and is taken later, since a caller that follows parks only behind a leader
  obtain ⟨m, hm, htaken⟩ : ∃ m, l' ≤ m ∧ ¬ (run.state m).inner.hasLeader = false := by
    by_contra hno
    push Not at hno
    refine not_stuck hfair i l' ticket (.inr rfl) fun m hm => ?_
    rcases hfollows m (hl'.trans hm) with hentering | hparked
    · exact hentering
    · have hok := (inv_at hfit m).threads i
      rw [hparked] at hok
      exact absurd hok.2.2.1 (by rw [hno m hm]; simp)
  -- by a leader whose own ticket is not passed, and that passes it
  obtain ⟨e, he, hbefore, hafter⟩ := Run.exists_last
    (p := fun s : Sys n => s.inner.hasLeader = false) hfree hm htaken
  rcases moment_cases run e with ⟨_, heq⟩ | ⟨j, _, _, hstep⟩
  · rw [heq] at hafter
    exact hafter hbefore
  · obtain ⟨k', hk', hleads, hticket'⟩ := hstep.elects hbefore (by simpa using hafter)
    obtain ⟨f, hf, _, hlt, _⟩ := leader_finishes hfit hfair hleads hticket'
    have hgen := never_passed hfit hfair hfollows (show l ≤ f by omega)
    have hle := ((inv_at hfit e).threads i)
    have hticket_le : ticket ≤ (run.state e).inner.flushGen := by
      rcases hfollows e (by omega) with hpc | hpc <;> rw [hpc] at hle <;> exact hle.1.1
    omega

end Waiting

/-- In a fair run every registered caller returns. -/
theorem caller_returns (hfit : run.CountersFit) (hfair : Fair run)
    (hwaits : ((run.state k).pcs i).ticket.isSome) :
    ∃ m, k ≤ m ∧ ∃ result, (run.state m).pcs i = .returned result := by
  by_contra hno
  push Not at hno
  obtain ⟨ticket, hticket⟩ := Option.isSome_iff_exists.mp hwaits
  exact absurd_of_never_returns hfit hfair hticket hno

/-! ## The guarantees -/

theorem tick_iterate (t : Sys n) (k : Nat) : Sys.tick^[k] t = { t with time := t.time + k } := by
  induction k with
  | zero => rfl
  | succ k ih =>
    rw [Function.iterate_succ_apply', ih]
    rfl

/-- Labels that leave every thread idle, parked or returned are the beginning of a fair run. -/
theorem fair_of_replay {p : Sys n → Fin n → Action → Bool} {labels : List (Fin n × Action)}
    {t : Sys n} (h : Run.replay (Sys.next limits) p labels (Sys.init n) = some t)
    (hquiet : ∀ i, (t.pcs i).quiet = true) : ∃ run : CommitRun limits n, run.Fair ∧
      (∀ k, run.state (labels.length + k) = { t with time := t.time + k }) ∧
      (∀ k i a, run.act k = some (i, a) → p (run.state k) i a = true) := by
  obtain ⟨run, hstate, _, hp⟩ := Run.exists_of_replay Sys.tick h
  have hlater : ∀ k, run.state (labels.length + k) = { t with time := t.time + k } :=
    fun k => (hstate k).trans (tick_iterate t k)
  refine ⟨run, ⟨fun i hoften => ?_, fun time => ⟨labels.length + time, ?_⟩⟩, hlater, hp⟩
  · obtain ⟨m, hm, a, hhelp, hsome⟩ := hoften labels.length
    obtain ⟨k, rfl⟩ := Nat.exists_eq_add_of_le hm
    rw [hlater k] at hhelp hsome
    exact absurd hsome (Sys.next_of_quiet (hquiet i) hhelp)
  · rw [hlater]
    exact Nat.le_add_left _ _

end CommitRun

/-- The registered callers that have not returned. -/
def Sys.registeredCallers {n : Nat} (s : Sys n) : Finset (Fin n) :=
  Finset.univ.filter fun i => (s.pcs i).ticket.isSome

theorem Sys.census_waits {n : Nat} (s : Sys n) :
    census Pc.waits s.pcs = s.registeredCallers.card := by
  simp [census, Pc.waits, registeredCallers, -Pc.ticket]

/-- Group commit along any run in which no 64-bit counter of the coordinator overflows. A caller
gets `Ok` only if a successful flush began after its append; at most one leader is in `flush_fn`;
`pending_waiters` counts the registered callers that have not returned; and if the run is fair
every registered caller returns. -/
theorem group_commit_guarantees {limits : Limits} {n : Nat} (run : CommitRun limits n)
    (hfit : run.CountersFit) :
    (∀ k i, (run.state k).pcs i = .returned (.ok ()) → (run.state k).Covered i) ∧
    (∀ k i j, ((run.state k).pcs i).runsFlushFn = true → ((run.state k).pcs j).runsFlushFn = true →
      i = j) ∧ (∀ k, (run.state k).inner.pendingWaiters = (run.state k).registeredCallers.card) ∧
    (run.Fair → ∀ k i, i ∈ (run.state k).registeredCallers →
      ∃ m, k ≤ m ∧ ∃ result, (run.state m).pcs i = .returned result) := by
  refine ⟨fun k i hok => ?_, fun k i j hi hj => ?_, fun k => ?_, fun hfair k i hi => ?_⟩
  · have hthread := (CommitRun.inv_at hfit k).threads i
    rw [hok] at hthread
    exact hthread rfl
  · exact (CommitRun.inv_at hfit k).flushFn_unique hi hj
  · rw [(CommitRun.inv_at hfit k).waiters, Sys.census_waits]
  · exact CommitRun.caller_returns hfit hfair (Finset.mem_filter.mp hi).2

local instance two_ne : NeZero 2 := ⟨two_ne_zero⟩

/-- Two appenders of one record each; the first leads, the second follows. -/
def twoAppenders : List (Fin 2 × Action) :=
  [(0, .append 1), (0, .addPending), (0, .registerWaiter), (0, .unlock),
    (1, .append 1), (1, .addPending), (1, .registerWaiter), (1, .unlock),
    (0, .enter), (1, .enter), (0, .lockLog), (0, .fsync none), (0, .notify), (0, .unlock),
    (0, .finish), (1, .enter)]

theorem group_commit_shares_flush :
    ∃ run : CommitRun ⟨5, 2, by decide⟩ 2, run.CountersFit ∧ run.Fair ∧
      ∃ k, (run.state k).goodFlushes.length = 1 ∧ (∀ i, (run.state k).pcs i = .returned (.ok ())) ∧
        (∀ i, (run.state k).Covered i) ∧ (run.state k).registeredCallers.card = 0 := by
  obtain ⟨t, hreplay, hgood, hpcs, hwaiters⟩ : ∃ t,
      Run.replay (Sys.next ⟨5, 2, by decide⟩) Sys.countersFit twoAppenders (Sys.init 2) = some t ∧
      t.goodFlushes.length = 1 ∧ (∀ i, t.pcs i = .returned (.ok ())) ∧
      t.inner.pendingWaiters = 0 := by
    refine ⟨_, rfl, ?_, ?_, ?_⟩ <;> decide
  obtain ⟨run, hfair, hstate, hfit⟩ := CommitRun.fair_of_replay hreplay
    (fun i => by rw [hpcs i]; rfl)
  have hend := hstate 0
  obtain ⟨hcovered, _, hcount, _⟩ := group_commit_guarantees run hfit
  refine ⟨run, hfit, hfair, twoAppenders.length + 0, ?_, ?_, fun i => hcovered _ i ?_, ?_⟩
  · rw [hend]
    exact hgood
  · rw [hend]
    exact hpcs
  · rw [hend]
    exact hpcs i
  · rw [← hcount, hend]
    exact hwaiters

/-! ## Past the last generation -/

/-- A lone thread at `pc`, with `flush_gen` at `gen`. -/
structure Lone (pc : Pc) (held : Option (Fin 1)) (gen : Nat) (leader : Bool) (s : Sys 1) : Prop where
  pcs : s.pcs = fun _ => pc
  lock : s.logLock = held
  flushGen : s.inner.flushGen = gen
  hasLeader : s.inner.hasLeader = leader

/-- An explicit flush. -/
def oneFlush : List (Fin 1 × Action) :=
  [(0, .flush), (0, .fsync none), (0, .notify), (0, .unlock)]

/-- An append up to the call of `wait_or_lead`. -/
def oneAppend : List (Fin 1 × Action) :=
  [(0, .append 1), (0, .addPending), (0, .registerWaiter), (0, .unlock)]

/-- A leader's flush, from taking the log lock to the end of `flush_fn`. -/
def oneLead : List (Fin 1 × Action) :=
  [(0, .lockLog), (0, .fsync none), (0, .notify), (0, .unlock)]

section Wrap

variable {limits : Limits} {s : Sys 1} {gen : Nat}

theorem update_one (pcs : Fin 1 → Pc) (pc : Pc) : Function.update pcs 0 pc = fun _ => pc := by
  funext i
  obtain rfl : i = 0 := Subsingleton.elim _ _
  exact Function.update_self ..

theorem replay_oneFlush (h : Lone .idle none gen false s) (hgen : gen < u64Max) :
    ∃ t, Run.replay (Sys.next limits) (fun _ _ _ => true) oneFlush s = some t ∧
      Lone .idle none (gen + 1) false t := by
  obtain ⟨inner, pcs, lock, time, moment, appendedAt, flushBegan, goodFlushes⟩ := s
  obtain ⟨rfl, rfl, rfl, hleader⟩ := h
  exact ⟨_, rfl, update_one _ _, rfl, wrappingAdd_one hgen, hleader⟩

theorem replay_flushes (k : Nat) (hk : k ≤ u64Max) :
    ∃ t, Run.replay (Sys.next limits) (fun _ _ _ => true) (List.replicate k oneFlush).flatten
      (Sys.init 1) = some t ∧ Lone .idle none k false t := by
  induction k with
  | zero => exact ⟨_, rfl, rfl, rfl, rfl, rfl⟩
  | succ k ih =>
    obtain ⟨t, ht, hlone⟩ := ih (by omega)
    obtain ⟨u, hu, hnext⟩ := @replay_oneFlush limits _ _ hlone (by omega)
    refine ⟨u, ?_, hnext⟩
    rw [List.replicate_succ', List.flatten_append, Run.replay_append, ht]
    simpa using hu

theorem replay_oneAppend (h : Lone .idle none gen false s) :
    ∃ t, Run.replay (Sys.next limits) (fun _ _ _ => true) oneAppend s = some t ∧
      Lone (.entering gen true) none gen false t ∧ 1 ≤ t.inner.pendingRecords := by
  obtain ⟨inner, pcs, lock, time, moment, appendedAt, flushBegan, goodFlushes⟩ := s
  obtain ⟨rfl, rfl, rfl, hleader⟩ := h
  refine ⟨_, rfl, ⟨update_one _ _, rfl, rfl, hleader⟩, ?_⟩
  exact le_min (Nat.le_add_left 1 _) (by decide)

/-- With the records limit reached the caller leads without waiting for the window. -/
theorem next_enter (h : Lone (.entering gen true) none gen false s)
    (hrecords : max limits.maxRecords 1 ≤ s.inner.pendingRecords) :
    ∃ t, s.next limits 0 .enter = some t ∧ Lone (.leadFlush gen) none gen true t := by
  obtain ⟨hpcs, hlock, hgen, hleader⟩ := h
  have hloop : waitLoop limits s.time gen true s.inner =
      ({ s.inner with hasLeader := true }, .flush, false) := by
    simp [waitLoop, leadLoop, alreadyDone, shouldFlushNow, hgen, hleader, hrecords]
  refine ⟨s.leaveWait 0 gen true (waitLoop limits s.time gen true s.inner),
    by simp only [Sys.next, hpcs], ?_⟩
  rw [hloop]
  exact ⟨update_one _ _, hlock, hgen, rfl⟩

theorem replay_oneLead (h : Lone (.leadFlush gen) none gen true s) :
    ∃ t, Run.replay (Sys.next limits) (fun _ _ _ => true) oneLead s = some t ∧
      Lone (.leadDone gen none) none (wrappingAdd gen 1) true t := by
  obtain ⟨inner, pcs, lock, time, moment, appendedAt, flushBegan, goodFlushes⟩ := s
  obtain ⟨rfl, rfl, hgen, hleader⟩ := h
  exact ⟨_, rfl, update_one _ _, rfl, congrArg (wrappingAdd · 1) hgen, hleader⟩

/-- The flush succeeded but `flush_gen` wrapped to zero: the leader, whose `flush_fn` is spent,
parks behind nobody. -/
theorem next_finish (h : Lone (.leadDone gen none) none 0 true s) :
    ∃ t, s.next limits 0 .finish = some t ∧ Lone (.parked gen false) none 0 false t := by
  obtain ⟨hpcs, hlock, hgen, _⟩ := h
  have hloop : afterFlush limits s.time gen none s.inner =
      ({ s.inner with hasLeader := false }, .wait, true) := by
    simp [afterFlush, waitLoop, alreadyDone, hgen]
  refine ⟨s.leaveWait 0 gen false (afterFlush limits s.time gen none s.inner),
    by simp only [Sys.next, hpcs], ?_⟩
  rw [hloop]
  exact ⟨update_one _ _, hlock, hgen, rfl⟩

/-- The labels of a run that flushes up to the last generation and then appends once more. -/
def lastGeneration : List (Fin 1 × Action) :=
  (List.replicate u64Max oneFlush).flatten ++ oneAppend ++ [(0, .enter)] ++ oneLead ++
    [(0, .finish)]

theorem replay_lastGeneration (hlimits : limits.maxRecords ≤ 1) :
    ∃ t, Run.replay (Sys.next limits) (fun _ _ _ => true) lastGeneration (Sys.init 1) = some t ∧
      Lone (.parked u64Max false) none 0 false t := by
  obtain ⟨s₁, h₁, hlone₁⟩ := @replay_flushes limits u64Max le_rfl
  obtain ⟨s₂, h₂, hlone₂, hrecords⟩ := @replay_oneAppend limits _ _ hlone₁
  obtain ⟨s₃, h₃, hlone₃⟩ := next_enter hlone₂ ((max_le hlimits le_rfl).trans hrecords)
  obtain ⟨s₄, h₄, hlone₄⟩ := @replay_oneLead limits _ _ hlone₃
  obtain ⟨s₅, h₅, hlone₅⟩ := @next_finish limits _ _
    (show Lone (.leadDone u64Max none) none 0 true s₄ from hlone₄)
  refine ⟨s₅, ?_, hlone₅⟩
  simp [lastGeneration, Run.replay_append, h₁, h₂, h₄, Run.replay, h₃, h₅]

end Wrap

/-- A fair run in which every flush succeeds and a caller waits forever: `flush_gen` reached its
last value and wrapped. -/
theorem wrapped_generation_strands_leader : ∃ run : CommitRun ⟨1, 1, by decide⟩ 1, run.Fair ∧
      ∃ k, ∀ m, k ≤ m → 0 ∈ (run.state m).registeredCallers ∧
        (run.state m).pcs 0 = .parked u64Max false ∧ (run.state m).inner.hasLeader = false := by
  obtain ⟨t, hreplay, hlone⟩ := @replay_lastGeneration ⟨1, 1, by decide⟩ le_rfl
  have hquiet : ∀ i, (t.pcs i).quiet = true := by
    intro i
    rw [hlone.pcs]
    rfl
  generalize lastGeneration = labels at hreplay
  obtain ⟨run, hfair, hstate, _⟩ := CommitRun.fair_of_replay hreplay hquiet
  refine ⟨run, hfair, labels.length, fun m hm => ?_⟩
  obtain ⟨k, rfl⟩ := Nat.exists_eq_add_of_le hm
  rw [hstate k]
  refine ⟨?_, congrFun hlone.pcs 0, hlone.hasLeader⟩
  simp [Sys.registeredCallers, hlone.pcs]

end Volant.Storage.GroupCommit
