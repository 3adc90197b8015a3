-- SUMMARY: Group commit is safe in every interleaving: covered successes, one leader, an exact waiter count.
import Volant.Storage.GroupCommit

/-!
# Safety of group commit

The invariant of the interleaved appenders has three parts. Two counters of
the coordinator are censuses of the program counters: `pending_waiters` counts
the registered callers that have not returned, and `has_leader` counts the
leaders. The log lock is held by exactly the thread whose program counter says
so. And every thread's ticket is settled once `flush_gen` has passed it: either
a successful flush began after its append, or the last recorded error is newer
than the ticket.

The invariant holds while the `u64` counters do not overflow (`countersFit`).
-/

namespace Volant.Storage.GroupCommit

open Threads

/-! ## Program counters -/

/-- The ticket of a registered caller that has not returned. -/
def Pc.ticket : Pc → Option Nat
  | .registered ticket | .entering ticket _ | .parked ticket _ | .leadWaiting ticket
  | .leadFlush ticket | .leadDone ticket _ => some ticket
  | .flushing leader | .notifying leader | .flushed leader => leader
  | _ => none

/-- The thread's share of `pending_waiters`. -/
def Pc.waits (pc : Pc) : Nat := if pc.ticket.isSome then 1 else 0

/-- The thread set `has_leader` and has not reset it. -/
def Pc.leads : Pc → Nat
  | .leadWaiting _ | .leadFlush _ | .leadDone _ _ => 1
  | .flushing leader | .notifying leader | .flushed leader => if leader.isSome then 1 else 0
  | _ => 0

/-- The thread is inside `flush_fn`. -/
def Pc.runsFlushFn : Pc → Bool
  | .leadFlush _ | .flushing (some _) | .notifying (some _) | .flushed (some _) => true
  | _ => false

/-- The thread runs a flush that it has not announced yet. -/
def Pc.midFlush : Pc → Bool
  | .flushing _ | .notifying _ => true
  | _ => false

attribute [simp] Pc.ticket Pc.leads Pc.runsFlushFn Pc.midFlush

@[simp] theorem Pc.ticket_wakeUp (pc : Pc) : pc.wakeUp.ticket = pc.ticket := by cases pc <;> rfl

@[simp] theorem Pc.waits_wakeUp (pc : Pc) : pc.wakeUp.waits = pc.waits := by cases pc <;> rfl

@[simp] theorem Pc.leads_wakeUp (pc : Pc) : pc.wakeUp.leads = pc.leads := by cases pc <;> rfl

@[simp] theorem Pc.holdsLock_wakeUp (pc : Pc) : pc.wakeUp.holdsLock = pc.holdsLock := by
  cases pc <;> rfl

@[simp] theorem Pc.midFlush_wakeUp (pc : Pc) : pc.wakeUp.midFlush = pc.midFlush := by
  cases pc <;> rfl

theorem Pc.eq_notifying_of_wakeUp {pc : Pc} {leader : Option Nat}
    (h : pc.wakeUp = .notifying leader) : pc = .notifying leader := by
  cases pc <;> simp_all [Pc.wakeUp]

theorem Pc.holdsLock_of_midFlush {pc : Pc} (h : pc.midFlush = true) : pc.holdsLock = true := by
  cases pc <;> simp_all [Pc.holdsLock]

theorem Pc.leads_of_runsFlushFn {pc : Pc} (h : pc.runsFlushFn = true) : 0 < pc.leads := by
  cases pc with
  | flushing leader => cases leader <;> simp_all
  | notifying leader => cases leader <;> simp_all
  | flushed leader => cases leader <;> simp_all
  | _ => simp_all

/-! ## The invariant -/

namespace Sys

variable {n : Nat} {limits : Limits} {s t : Sys n} {i j : Fin n} {action : Action}

/-- A successful flush began after the thread's last append. -/
def Covered (s : Sys n) (j : Fin n) : Prop := ∃ b ∈ s.goodFlushes, s.appendedAt j < b

/-- Once `flush_gen` has passed the ticket, a waiter that does not see an error is covered. -/
def Ticketed (s : Sys n) (j : Fin n) (ticket : Nat) : Prop :=
  ticket ≤ s.inner.flushGen ∧
    (ticket < s.inner.flushGen → flushErrorFor s.inner ticket = .ok () → s.Covered j)

/-- What a thread at this program counter relies on. -/
def PcOk (s : Sys n) (j : Fin n) : Pc → Prop
  | .registered ticket | .leadWaiting ticket | .leadFlush ticket | .leadDone ticket (some _)
  | .flushing (some ticket) | .notifying (some ticket) => s.Ticketed j ticket
  | .entering ticket canFlush => s.Ticketed j ticket ∧ canFlush = true
  | .parked ticket canFlush =>
    s.Ticketed j ticket ∧ canFlush = true ∧ s.inner.hasLeader = true ∧ ticket = s.inner.flushGen
  | .flushed (some ticket) | .leadDone ticket none =>
    s.Ticketed j ticket ∧ ticket < s.inner.flushGen
  | .returned result => result = .ok () → s.Covered j
  | _ => True

structure Inv (s : Sys n) : Prop where
  waiters : s.inner.pendingWaiters = census Pc.waits s.pcs
  leaders : census Pc.leads s.pcs = s.inner.hasLeader.toNat
  lock : ∀ j, (s.pcs j).holdsLock = true ↔ s.logLock = some j
  threads : ∀ j, s.PcOk j (s.pcs j)
  appended : ∀ j, s.appendedAt j < s.moment
  /-- A flush in progress began after every registered caller's append. -/
  running : ∀ i, (s.pcs i).midFlush = true →
    ∀ j, (s.pcs j).ticket.isSome → s.appendedAt j < s.flushBegan
  notifying : ∀ i leader, s.pcs i = .notifying leader → s.flushBegan ∈ s.goodFlushes

/-- No 64-bit counter of the coordinator overflows in this step. -/
def countersFit (s : Sys n) (i : Fin n) (action : Action) : Bool :=
  match action, s.pcs i with
  | .registerWaiter, .registering => decide (s.inner.pendingWaiters < u64Max)
  | .notify, .notifying _ => decide (s.inner.flushGen < u64Max)
  | .finish, .leadDone _ (some _) => decide (s.inner.flushGen < u64Max)
  | _, _ => true

theorem inv_init : (init n).Inv where
  waiters := by simp [init, Inner.new, census, Pc.waits]
  leaders := by simp [init, Inner.new, census]
  lock := by simp [init, Pc.holdsLock]
  threads _ := trivial
  appended _ := by simp [init]
  running := by simp [init]
  notifying := by simp [init]

/-! ## The censuses and the lock -/

/-- The census after a section, for a weight that `notify_all` does not change. -/
theorem census_leaveSection {f : Pc → Nat} (hf : ∀ pc : Pc, f pc.wakeUp = f pc) (inner : Inner)
    (pc : Pc) (wake : Bool) :
    census f (s.leaveSection i inner pc wake).pcs + f (s.pcs i) = census f s.pcs + f pc := by
  cases wake with
  | false => exact census_update f s.pcs i pc
  | true =>
    have h := census_update f (fun j => (s.pcs j).wakeUp) i pc
    have hold : census f (fun j => (s.pcs j).wakeUp) = census f s.pcs :=
      census_congr fun j => hf _
    simp only [hf] at h
    rw [hold] at h
    exact h

theorem census_goto (f : Pc → Nat) (pc : Pc) :
    census f (s.goto i pc).pcs + f (s.pcs i) = census f s.pcs + f pc :=
  census_update f s.pcs i pc

/-- At most one thread holds the log lock. -/
theorem Inv.lock_unique (h : s.Inv) (hi : (s.pcs i).holdsLock = true)
    (hj : (s.pcs j).holdsLock = true) : i = j := by
  have hi' := (h.lock i).mp hi
  have hj' := (h.lock j).mp hj
  rw [hi'] at hj'
  exact Option.some.inj hj'

theorem Inv.hasLeader_of_leads (h : s.Inv) (hi : 0 < (s.pcs i).leads) :
    s.inner.hasLeader = true := by
  have hle := le_census Pc.leads s.pcs i
  have hcensus := h.leaders
  cases hl : s.inner.hasLeader with
  | true => rfl
  | false =>
    rw [hl, Bool.toNat_false] at hcensus
    omega

theorem Inv.pendingWaiters_pos (h : s.Inv) (hi : (s.pcs i).ticket.isSome) :
    0 < s.inner.pendingWaiters := by
  have hle := le_census Pc.waits s.pcs i
  rw [h.waiters]
  simp only [Pc.waits, hi, if_true] at hle
  omega

/-- A step moves one thread. The others are woken, or stay and keep the generation and the leader
that a parked thread relies on. -/
theorem Step.other (h : Step limits s i action t) (hj : j ≠ i) :
    t.pcs j = (s.pcs j).wakeUp ∨ (t.pcs j = s.pcs j ∧ t.inner.flushGen = s.inner.flushGen ∧
      (s.inner.hasLeader = true → t.inner.hasLeader = true)) := by
  cases h
  case addPending records _ =>
    rw [leaveSection_ne hj]
    simp only [GroupCommit.addPending]
    split
    · exact .inr ⟨rfl, rfl, id⟩
    · by_cases hw : max limits.maxRecords 1 ≤ saturatingAdd s.inner.pendingRecords records
      · simp [hw]
      · simp [hw]
  case registerWaiter | enterWait | wakeFlush | wakeWait | enterDone =>
    exact .inr ⟨leaveSection_ne hj _ _ false, rfl, id⟩
  case enterLead => exact .inr ⟨leaveSection_ne hj _ _ false, rfl, fun _ => rfl⟩
  case wakeDone | notify | finishFails | finishDone | finishWait =>
    exact .inl (leaveSection_ne hj _ _ true)
  all_goals exact .inr ⟨goto_ne hj _, rfl, id⟩

theorem Step.census {f : Pc → Nat} (hf : ∀ pc : Pc, f pc.wakeUp = f pc)
    (h : Step limits s i action t) :
    census f t.pcs + f (s.pcs i) = census f s.pcs + f (t.pcs i) := by
  cases h
  case addPending | registerWaiter | enterDone | enterWait | enterLead | wakeDone | wakeFlush |
      wakeWait | notify | finishFails | finishDone | finishWait =>
    rw [leaveSection_self]
    exact census_leaveSection hf ..
  all_goals
    rw [goto_self]
    exact census_goto ..

theorem Inv.waiters_step (h : s.Inv) (hs : Step limits s i action t)
    (hfit : s.countersFit i action = true) : t.inner.pendingWaiters = census Pc.waits t.pcs := by
  have hcensus := hs.census Pc.waits_wakeUp
  have hw := h.waiters
  -- a registration adds one to both sides, a return takes one from both
  suffices t.inner.pendingWaiters + (s.pcs i).waits = s.inner.pendingWaiters + (t.pcs i).waits by
    omega
  cases hs
  case registerWaiter hpc =>
    simp only [countersFit, hpc, decide_eq_true_eq] at hfit
    simp [registerWaiter, saturatingAdd, hpc, Pc.waits]
    omega
  case addPending hpc =>
    simp only [addPending]
    split <;> simp [hpc, Pc.waits]
  case enterDone hpc _ | wakeDone hpc _ | finishFails hpc | finishDone hpc _ =>
    have hpos := h.pendingWaiters_pos (i := i) (by rw [hpc]; rfl)
    simp [hpc, Pc.waits, leave]
    omega
  case enterLead hpc _ _ hnext =>
    rcases hnext with rfl | rfl <;> simp [hpc, Pc.waits]
  case notify hpc => simp [hpc, Pc.waits, notifyFlushed]
  all_goals simp [*, Pc.waits]

theorem Inv.leaders_step (h : s.Inv) (hs : Step limits s i action t) :
    census Pc.leads t.pcs = t.inner.hasLeader.toNat := by
  have hcensus := hs.census Pc.leads_wakeUp
  have hl := h.leaders
  suffices t.inner.hasLeader.toNat + (s.pcs i).leads = s.inner.hasLeader.toNat + (t.pcs i).leads by
    omega
  cases hs
  case addPending hpc =>
    simp only [addPending]
    split <;> simp [hpc]
  case registerWaiter hpc => simp [registerWaiter, hpc]
  case enterDone hpc _ => simp [hpc, leave]
  case wakeDone hpc _ | finishFails hpc | finishDone hpc _ =>
    have hleader := h.hasLeader_of_leads (i := i) (by rw [hpc]; exact Nat.one_pos)
    simp [hpc, leave, hleader]
  case finishWait hpc _ =>
    have hleader := h.hasLeader_of_leads (i := i) (by rw [hpc]; exact Nat.one_pos)
    simp [hpc, hleader]
  case enterLead hpc _ hfree hnext =>
    rcases hnext with rfl | rfl <;> simp [hpc, hfree]
  case notify hpc => simp [hpc, notifyFlushed]
  all_goals simp [*]

/-- What a step does to the log lock: nothing, or the moving thread takes or gives it. -/
theorem Step.logLock (h : Step limits s i action t) :
    (t.logLock = s.logLock ∧ (t.pcs i).holdsLock = (s.pcs i).holdsLock) ∨
    (s.logLock = none ∧ t.logLock = some i ∧ (t.pcs i).holdsLock = true) ∨
    ((s.pcs i).holdsLock = true ∧ t.logLock = none ∧ (t.pcs i).holdsLock = false) := by
  cases h
  case append _ hfree _ | flush _ hfree | lockLog _ hfree =>
    exact .inr (.inl ⟨hfree, rfl, by simp [Pc.holdsLock]⟩)
  case dropLog hpc | leaderUnlock hpc | flushUnlock hpc | leaderFsyncFails hpc |
      flushFsyncFails hpc =>
    exact .inr (.inr ⟨by rw [hpc]; rfl, rfl, by simp [Pc.holdsLock]⟩)
  case enterLead hpc _ _ hnext =>
    refine .inl ⟨rfl, ?_⟩
    rcases hnext with rfl | rfl <;> simp [hpc, Pc.holdsLock]
  case addPending hpc | registerWaiter hpc | enterDone hpc _ | enterWait hpc _ _ |
      wakeDone hpc _ | wakeFlush hpc _ _ | wakeWait hpc _ _ | notify hpc | finishFails hpc |
      finishDone hpc _ | finishWait hpc _ | fsyncOk hpc | spuriousWake hpc | nextCall hpc =>
    exact .inl ⟨rfl, by simp [hpc, Pc.holdsLock]⟩

theorem Step.holdsLock_other (h : Step limits s i action t) (hj : j ≠ i) :
    (t.pcs j).holdsLock = (s.pcs j).holdsLock := by
  rcases h.other hj with heq | ⟨heq, _⟩ <;> simp [heq]

theorem Inv.lock_step (h : s.Inv) (hs : Step limits s i action t) (j : Fin n) :
    (t.pcs j).holdsLock = true ↔ t.logLock = some j := by
  by_cases hj : j = i
  · subst hj
    rcases hs.logLock with ⟨hlock, hpc⟩ | ⟨_, hlock, hpc⟩ | ⟨_, hlock, hpc⟩
    · rw [hlock, hpc]
      exact h.lock j
    · simp [hlock, hpc]
    · simp [hlock, hpc]
  · rw [hs.holdsLock_other hj, h.lock j]
    rcases hs.logLock with ⟨hlock, _⟩ | ⟨hfree, hlock, _⟩ | ⟨hheld, hlock, _⟩
    · rw [hlock]
    · simp [hfree, hlock, Ne.symm hj]
    · simp [(h.lock i).mp hheld, hlock, Ne.symm hj]

/-! ## The tickets -/

section

variable (h : Step limits s i action t)

include h

theorem Step.goodFlushes : s.goodFlushes ⊆ t.goodFlushes := by
  cases h
  case fsyncOk => exact List.subset_cons_self _ _
  all_goals exact List.Subset.refl _

/-- A step records an append only for a thread that was idle. -/
theorem Step.appendedAt (hj : s.pcs j ≠ .idle ∨ j ≠ i) : t.appendedAt j = s.appendedAt j := by
  cases h
  case append hpc _ _ =>
    have hne : j ≠ i := by
      rcases hj with hj | hj
      · rintro rfl
        exact hj hpc
      · exact hj
    exact Function.update_of_ne hne ..
  all_goals rfl

theorem Step.covered (hj : s.pcs j ≠ .idle ∨ j ≠ i) (hc : s.Covered j) : t.Covered j := by
  obtain ⟨b, hb, hlt⟩ := hc
  exact ⟨b, h.goodFlushes hb, (h.appendedAt hj).symm ▸ hlt⟩

/-- The generation a step leaves behind: unchanged, or one further after a flush. -/
theorem Step.flushGen (hfit : s.countersFit i action = true) :
    (t.inner.flushGen = s.inner.flushGen ∧ t.inner.lastError = s.inner.lastError) ∨
    (t.inner.flushGen = s.inner.flushGen + 1 ∧ ∃ leader, s.pcs i = .notifying leader) ∨
    (t.inner.flushGen = s.inner.flushGen + 1 ∧
      ∃ text, t.inner.lastError = some (s.inner.flushGen + 1, text)) := by
  cases h
  case notify leader hpc =>
    simp only [countersFit, hpc, decide_eq_true_eq] at hfit
    exact .inr (.inl ⟨wrappingAdd_one hfit, leader, hpc⟩)
  case finishFails e hpc =>
    simp only [countersFit, hpc, decide_eq_true_eq] at hfit
    exact .inr (.inr ⟨wrappingAdd_one hfit, e.text, by simp [leave, wrappingAdd_one hfit]⟩)
  case addPending records _ =>
    refine .inl ?_
    simp only [leaveSection_inner, GroupCommit.addPending]
    split <;> exact ⟨rfl, rfl⟩
  all_goals exact .inl ⟨rfl, rfl⟩

end

theorem flushErrorFor_congr {g g' : Inner} (h : g.lastError = g'.lastError) (ticket : Nat) :
    flushErrorFor g ticket = flushErrorFor g' ticket := by
  simp [flushErrorFor, h]

/-- Tickets stay good: a successful flush covers every registered caller, a failed one leaves an
error newer than every ticket. -/
theorem Inv.ticketed_step (h : s.Inv) (hs : Step limits s i action t)
    (hfit : s.countersFit i action = true) {ticket : Nat} (hj : (s.pcs j).ticket = some ticket)
    (ht : s.Ticketed j ticket) : t.Ticketed j ticket := by
  have hbusy : s.pcs j ≠ .idle := by
    intro hidle
    rw [hidle] at hj
    cases hj
  obtain ⟨hle, hcov⟩ := ht
  rcases hs.flushGen hfit with ⟨hgen, herr⟩ | ⟨hgen, leader, hnotify⟩ | ⟨hgen, text, herr⟩
  · refine ⟨hgen ▸ hle, fun hlt hok => hs.covered (.inl hbusy) (hcov (hgen ▸ hlt) ?_)⟩
    rwa [← flushErrorFor_congr herr]
  · refine ⟨by omega, fun _ _ => hs.covered (.inl hbusy) ⟨s.flushBegan, ?_, ?_⟩⟩
    · exact h.notifying i leader hnotify
    · exact h.running i (by rw [hnotify]; rfl) j (by rw [hj]; rfl)
  · refine ⟨by omega, fun _ hok => ?_⟩
    simp only [flushErrorFor, herr, if_pos (show ticket < s.inner.flushGen + 1 by omega)] at hok
    cases hok

theorem Step.flushGen_le (h : Step limits s i action t) (hfit : s.countersFit i action = true) :
    s.inner.flushGen ≤ t.inner.flushGen := by
  rcases h.flushGen hfit with ⟨hgen, _⟩ | ⟨hgen, _⟩ | ⟨hgen, _⟩ <;> omega

theorem PcOk.woken {pc : Pc} (h : s.PcOk j pc)
    (hticket : ∀ k, pc.ticket = some k → s.Ticketed j k → t.Ticketed j k)
    (hgen : s.inner.flushGen ≤ t.inner.flushGen) (hcov : s.Covered j → t.Covered j) :
    t.PcOk j pc.wakeUp := by
  cases pc with
  | idle | appending | registering => trivial
  | registered k | leadWaiting k | leadFlush k => exact hticket k rfl h
  | entering k c | parked k c => exact ⟨hticket k rfl h.1, by first | exact h.2 | exact h.2.1⟩
  | flushing leader | notifying leader =>
    cases leader with
    | none => trivial
    | some k => exact hticket k rfl h
  | flushed leader =>
    cases leader with
    | none => trivial
    | some k => exact ⟨hticket k rfl h.1, h.2.trans_le hgen⟩
  | leadDone k result =>
    cases result with
    | none => exact ⟨hticket k rfl h.1, h.2.trans_le hgen⟩
    | some e => exact hticket k rfl h
  | returned result => exact fun hok => hcov (h hok)

/-- A thread that is not woken relies on nothing more than a woken one, unless it is parked. -/
theorem PcOk.stays {pc : Pc} (h : s.PcOk j pc) (hwoken : t.PcOk j pc.wakeUp)
    (hgen : t.inner.flushGen = s.inner.flushGen)
    (hlead : s.inner.hasLeader = true → t.inner.hasLeader = true) : t.PcOk j pc := by
  cases pc with
  | parked k c => exact ⟨hwoken.1, hwoken.2, hlead h.2.2.1, h.2.2.2.trans hgen.symm⟩
  | _ => exact hwoken

section

variable (h : s.Inv) (hs : Step limits s i action t)

include h hs

theorem Inv.other_ok (hfit : s.countersFit i action = true) (hj : j ≠ i) : t.PcOk j (t.pcs j) := by
  have hwoken : t.PcOk j (s.pcs j).wakeUp :=
    (h.threads j).woken (fun _ hk => h.ticketed_step hs hfit hk) (hs.flushGen_le hfit)
      (hs.covered (.inr hj))
  rcases hs.other hj with heq | ⟨heq, hgen, hlead⟩
  · rw [heq]
    exact hwoken
  · rw [heq]
    exact (h.threads j).stays hwoken hgen hlead

theorem Inv.moved_ok (hfit : s.countersFit i action = true) : t.PcOk i (t.pcs i) := by
  have hstep := hs
  have hok := h.threads i
  have hticket : ∀ k, (s.pcs i).ticket = some k → s.Ticketed i k → t.Ticketed i k :=
    fun _ hk => h.ticketed_step hs hfit hk
  cases hs
  case append | flush | flushUnlock | flushFsyncFails | nextCall =>
    rw [goto_self]
    trivial
  case addPending =>
    rw [leaveSection_self]
    trivial
  case registerWaiter =>
    rw [leaveSection_self]
    exact ⟨le_rfl, fun hlt => absurd hlt (lt_irrefl _)⟩
  case dropLog k hpc =>
    rw [goto_self]
    rw [hpc] at hok hticket
    exact ⟨hticket k rfl hok, rfl⟩
  case leaderUnlock k hpc =>
    rw [goto_self]
    rw [hpc] at hok hticket
    exact ⟨hticket k rfl hok.1, hok.2⟩
  case lockLog k hpc _ | leaderFsyncFails k e hpc =>
    rw [goto_self]
    rw [hpc] at hok hticket
    exact hticket k rfl hok
  case spuriousWake k c hpc =>
    rw [goto_self]
    rw [hpc] at hok hticket
    exact ⟨hticket k rfl hok.1, hok.2.1⟩
  case fsyncOk leader hpc =>
    rw [goto_self]
    rw [hpc] at hok hticket
    cases leader with
    | none => trivial
    | some k => exact hticket k rfl hok
  case notify leader hpc =>
    rw [leaveSection_self]
    rw [hpc] at hok hticket
    cases leader with
    | none => trivial
    | some k =>
      simp only [countersFit, hpc, decide_eq_true_eq] at hfit
      refine ⟨hticket k rfl hok, Nat.lt_of_le_of_lt hok.1 ?_⟩
      simp only [leaveSection_inner, notifyFlushed, wrappingAdd_one hfit]
      omega
  case enterDone k c hpc hdone =>
    rw [leaveSection_self]
    rw [hpc] at hok
    exact fun hres => hstep.covered (.inl (by rw [hpc]; nofun)) (hok.1.2 hdone hres)
  case wakeDone k hpc hdone =>
    rw [leaveSection_self]
    rw [hpc] at hok
    exact fun hres => hstep.covered (.inl (by rw [hpc]; nofun)) (hok.2 hdone hres)
  case finishDone k hpc hdone =>
    rw [leaveSection_self]
    rw [hpc] at hok
    exact fun hres => hstep.covered (.inl (by rw [hpc]; nofun)) (hok.1.2 hdone hres)
  case finishFails =>
    rw [leaveSection_self]
    nofun
  case finishWait k hpc hundone =>
    rw [hpc] at hok
    exact absurd hok.2 (Nat.not_lt.mpr hundone)
  case enterWait k c hpc hundone hwait =>
    rw [leaveSection_self]
    rw [hpc] at hok hticket
    refine ⟨hticket k rfl hok.1, hok.2, ?_, le_antisymm hok.1.1 hundone⟩
    rcases hwait with hlead | hfalse
    · exact hlead
    · rw [hok.2] at hfalse
      cases hfalse
  case enterLead k pc hpc hundone hfree hnext =>
    rw [leaveSection_self]
    rw [hpc] at hok hticket
    rcases hnext with rfl | rfl <;> exact hticket k rfl hok.1
  case wakeFlush k hpc _ _ | wakeWait k hpc _ _ =>
    rw [leaveSection_self]
    rw [hpc] at hok hticket
    exact hticket k rfl hok

theorem Inv.appended_step (j : Fin n) : t.appendedAt j < t.moment := by
  have hj := h.appended j
  cases hs
  case append =>
    by_cases hji : j = i
    · subst hji
      simp [goto, recordAppend]
    · simp only [goto, recordAppend, Function.update_of_ne hji]
      exact Nat.lt_succ_of_lt hj
  case flush | lockLog => exact Nat.lt_succ_of_lt hj
  all_goals exact hj

end

/-- A step starts a flush, or the threads in the middle of a flush were so before it and the
registered callers were registered before it, but for one that registers now. -/
theorem Step.midFlush (h : Step limits s i action t) :
    (t.flushBegan = s.moment ∧ t.appendedAt = s.appendedAt) ∨
    (t.flushBegan = s.flushBegan ∧ ((t.pcs i).midFlush = true → (s.pcs i).midFlush = true) ∧
      ((t.pcs i).ticket.isSome → (s.pcs i).ticket.isSome ∨ s.pcs i = .registering)) := by
  cases h
  case flush | lockLog => exact .inl ⟨rfl, rfl⟩
  case enterLead hpc _ _ hnext =>
    refine .inr ⟨rfl, ?_, fun _ => .inl (by rw [hpc]; rfl)⟩
    rcases hnext with rfl | rfl <;> simp
  case registerWaiter hpc => exact .inr ⟨rfl, by simp, fun _ => .inr hpc⟩
  case append hpc _ _ | addPending hpc | flushUnlock hpc | flushFsyncFails hpc | nextCall hpc |
      enterDone hpc _ | wakeDone hpc _ | finishFails hpc | finishDone hpc _ =>
    exact .inr ⟨rfl, by simp, by simp⟩
  case fsyncOk hpc => exact .inr ⟨rfl, by simp [hpc], by simp [hpc]⟩
  case notify hpc => exact .inr ⟨rfl, by simp, by simp [hpc]⟩
  case dropLog hpc | leaderUnlock hpc | enterWait hpc _ _ | wakeFlush hpc _ _ |
      wakeWait hpc _ _ | leaderFsyncFails hpc | finishWait hpc _ | spuriousWake hpc =>
    exact .inr ⟨rfl, by simp, fun _ => .inl (by rw [hpc]; rfl)⟩

theorem Step.midFlush_other (h : Step limits s i action t) (hj : j ≠ i) :
    (t.pcs j).midFlush = (s.pcs j).midFlush ∧ (t.pcs j).ticket = (s.pcs j).ticket := by
  rcases h.other hj with heq | ⟨heq, _⟩ <;> simp [heq, -Pc.midFlush, -Pc.ticket]

section

variable (h : s.Inv) (hs : Step limits s i action t)

include h hs

theorem Inv.running_step (a : Fin n)
    (ha : (t.pcs a).midFlush = true) (j : Fin n) (hj : (t.pcs j).ticket.isSome) :
    t.appendedAt j < t.flushBegan := by
  rcases hs.midFlush with ⟨hbegan, happended⟩ | ⟨hbegan, hmid, hticket⟩
  · rw [hbegan, happended]
    exact h.appended j
  · have hmid' : (s.pcs a).midFlush = true := by
      by_cases hai : a = i
      · subst hai
        exact hmid ha
      · rwa [← (hs.midFlush_other hai).1]
    have hreg : (s.pcs j).ticket.isSome := by
      by_cases hji : j = i
      · subst hji
        rcases hticket hj with hsome | hregistering
        · exact hsome
        · -- the registering thread holds the log lock, so no flush is running
          have haj := h.lock_unique (Pc.holdsLock_of_midFlush hmid')
            (show (s.pcs j).holdsLock = true by rw [hregistering]; rfl)
          rw [haj, hregistering] at hmid'
          cases hmid'
      · rwa [← (hs.midFlush_other hji).2]
    have hbusy : s.pcs j ≠ .idle := by
      intro hidle
      rw [hidle] at hreg
      cases hreg
    rw [hbegan, hs.appendedAt (.inl hbusy)]
    exact h.running a hmid' j hreg

theorem Inv.notifying_step (a : Fin n)
    (leader : Option Nat) (ha : t.pcs a = .notifying leader) : t.flushBegan ∈ t.goodFlushes := by
  by_cases hai : a = i
  · subst hai
    cases hs
    case fsyncOk => exact List.mem_cons_self
    case enterLead hnext => rcases hnext with rfl | rfl <;> simp at ha
    all_goals simp at ha
  · have ha' : s.pcs a = .notifying leader := by
      rcases hs.other hai with heq | ⟨heq, _⟩
      · exact Pc.eq_notifying_of_wakeUp (heq.symm.trans ha)
      · exact heq.symm.trans ha
    have hgood := h.notifying a leader ha'
    have hheld : s.logLock = some a := (h.lock a).mp (by rw [ha']; rfl)
    cases hs
    case flush _ hfree | lockLog _ hfree =>
      rw [hfree] at hheld
      cases hheld
    case fsyncOk => exact List.mem_cons_self
    all_goals exact hgood

theorem Inv.step (hfit : s.countersFit i action = true) : t.Inv where
  waiters := h.waiters_step hs hfit
  leaders := h.leaders_step hs
  lock := h.lock_step hs
  threads j := by
    by_cases hj : j = i
    · subst hj
      exact h.moved_ok hs hfit
    · exact h.other_ok hs hfit hj
  appended := h.appended_step hs
  running := h.running_step hs
  notifying := h.notifying_step hs

end

theorem Inv.tick (h : s.Inv) : s.tick.Inv := { h with }

/-- At most one thread is inside `flush_fn`. -/
theorem Inv.flushFn_unique (h : s.Inv) (hi : (s.pcs i).runsFlushFn = true)
    (hj : (s.pcs j).runsFlushFn = true) : i = j := by
  refine eq_of_census_le_one (f := Pc.leads) ?_ (Pc.leads_of_runsFlushFn hi)
    (Pc.leads_of_runsFlushFn hj)
  rw [h.leaders]
  exact Bool.toNat_le _

end Sys

end Volant.Storage.GroupCommit
