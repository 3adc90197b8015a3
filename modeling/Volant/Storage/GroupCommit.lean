-- SUMMARY: Model of the group-commit coordinator and of the threads that append, wait and lead flushes through it.
import Volant.Core
import Volant.Base.Threads

/-!
# Group commit

`GroupCommit` lets appenders share one fsync. An appender registers a ticket
under the log lock, releases the lock, and then either follows (waits on the
condition variable) or leads (waits out the window, flushes, wakes the rest).

Each section under the coordinator's mutex is one function on `Inner`; the
threads of `SharedPartitionLog` interleave these sections, the log lock and
the fsync in any order (`Sys.next`). Whether an fsync succeeds is the
scheduler's choice. `flush_gen`, `pending_records` and `pending_waiters` are
`u64` counters: the first wraps, the other two saturate.

`Sys` also keeps a history that no section reads: when each thread last
appended and when the successful flushes began.
-/

namespace Volant.Storage

open Function

/-- `u64::wrapping_add`. -/
def wrappingAdd (a b : Nat) : Nat := (a + b) % (u64Max + 1)

theorem wrappingAdd_one {a : Nat} (h : a < u64Max) : wrappingAdd a 1 = a + 1 :=
  Nat.mod_eq_of_lt (by omega)

namespace GroupCommit

/-- The window and batch limits; `GroupCommit::new` raises a zero batch limit to one. -/
structure Limits where
  maxMs : Nat
  maxRecords : Nat
  enabled : 0 < maxMs

/-- The state under the coordinator's mutex. Instants are milliseconds. -/
structure Inner where
  flushGen : Nat
  pendingRecords : Nat
  pendingWaiters : Nat
  windowStart : Option Nat
  hasLeader : Bool
  lastError : Option (Nat × String)
deriving Repr, DecidableEq

def Inner.new : Inner :=
  { flushGen := 0, pendingRecords := 0, pendingWaiters := 0, windowStart := none,
    hasLeader := false, lastError := none }

/-- A failed flush: the error the leader returns and its text for the followers. -/
structure FlushError where
  error : Error
  text : String
deriving Repr, DecidableEq

/-! ## The sections under the mutex -/

def remainingWindow (limits : Limits) (now : Nat) (g : Inner) : Nat :=
  match g.windowStart with
  | none => 0
  | some start => limits.maxMs - (now - start)

def shouldFlushNow (limits : Limits) (now : Nat) (g : Inner) : Bool :=
  decide (max limits.maxRecords 1 ≤ g.pendingRecords) || decide (remainingWindow limits now g = 0)

def flushErrorFor (g : Inner) (ticket : Nat) : Except Error Unit :=
  match g.lastError with
  | some (gen, msg) =>
    if ticket < gen then .error (.storage s!"group-commit flush failed: {msg}") else .ok ()
  | none => .ok ()

def alreadyDone (g : Inner) (ticket : Nat) : Option (Except Error Unit) :=
  if ticket < g.flushGen then some (flushErrorFor g ticket) else none

/-- Adds the records of an append; `true` wakes the waiters. -/
def addPending (limits : Limits) (n : Nat) (g : Inner) : Inner × Bool :=
  if n = 0 then (g, false)
  else
    let pendingRecords := saturatingAdd g.pendingRecords n
    ({ g with pendingRecords }, decide (max limits.maxRecords 1 ≤ pendingRecords))

def registerWaiter (now : Nat) (g : Inner) : Inner × Nat :=
  ({ g with
      windowStart := if g.pendingWaiters = 0 then some now else g.windowStart
      pendingWaiters := saturatingAdd g.pendingWaiters 1 },
    g.flushGen)

/-- A waiter returns. -/
def leave (g : Inner) : Inner := { g with pendingWaiters := g.pendingWaiters - 1 }

/-- What a caller of `wait_or_lead` does when it gives the mutex up. -/
inductive Outcome where
  /-- `wait_or_lead` returns. -/
  | done (result : Except Error Unit)
  /-- `cond.wait`. -/
  | wait
  /-- `cond.wait_for` inside the leader's loop. -/
  | waitFor
  /-- The leader goes on to `flush_fn`. -/
  | flush
deriving Repr

/-- The leader's loop up to the next release of the mutex. -/
def leadLoop (limits : Limits) (now ticket : Nat) (g : Inner) : Inner × Outcome × Bool :=
  match alreadyDone g ticket with
  | some result => (leave { g with hasLeader := false }, .done result, true)
  | none => if shouldFlushNow limits now g then (g, .flush, false) else (g, .waitFor, false)

/-- The outer loop from its head up to the next release of the mutex; `canFlush` is
`flush_fn.is_some()`. -/
def waitLoop (limits : Limits) (now ticket : Nat) (canFlush : Bool) (g : Inner) :
    Inner × Outcome × Bool :=
  match alreadyDone g ticket with
  | some result => (leave g, .done result, false)
  | none =>
    if g.hasLeader || !canFlush then (g, .wait, false)
    else leadLoop limits now ticket { g with hasLeader := true }

/-- The leader's section after `flush_fn`. -/
def afterFlush (limits : Limits) (now ticket : Nat) (result : Option FlushError) (g : Inner) :
    Inner × Outcome × Bool :=
  match result with
  | some e =>
    let flushGen := wrappingAdd g.flushGen 1
    (leave { g with
      hasLeader := false
      flushGen
      lastError := some (flushGen, e.text)
      windowStart := none }, .done (.error e.error), true)
  | none =>
    let (g, outcome, _) := waitLoop limits now ticket false { g with hasLeader := false }
    (g, outcome, true)

def notifyFlushed (g : Inner) : Inner :=
  { g with
    flushGen := wrappingAdd g.flushGen 1
    pendingRecords := 0
    windowStart := none
    lastError := none }

/-! ## The threads -/

/-- Where a thread is between two atomic steps. A flush is run by a leader (`some ticket`) or by
an explicit `SharedPartitionLog::flush` (`none`). -/
inductive Pc where
  | idle
  /-- Holds the log lock, records appended, before `add_pending`. -/
  | appending (records : Nat)
  /-- Holds the log lock, before `register_waiter`. -/
  | registering
  /-- Holds the log lock, before `drop(log)`. -/
  | registered (ticket : Nat)
  /-- Contends for the mutex, to run the outer loop of `wait_or_lead` from its head. -/
  | entering (ticket : Nat) (canFlush : Bool)
  /-- In `cond.wait`. -/
  | parked (ticket : Nat) (canFlush : Bool)
  /-- In `cond.wait_for`. -/
  | leadWaiting (ticket : Nat)
  /-- The leader, before it takes the log lock in `flush_fn`. -/
  | leadFlush (ticket : Nat)
  /-- Holds the log lock, fsync running. -/
  | flushing (leader : Option Nat)
  /-- Holds the log lock, fsync succeeded, before `notify_flushed`. -/
  | notifying (leader : Option Nat)
  /-- Holds the log lock, after `notify_flushed`. -/
  | flushed (leader : Option Nat)
  /-- The leader, back from `flush_fn`. -/
  | leadDone (ticket : Nat) (result : Option FlushError)
  | returned (result : Except Error Unit)
deriving Repr, DecidableEq

/-- Where the thread goes when a section of `wait_or_lead` ends. -/
def Outcome.pc (ticket : Nat) (canFlush : Bool) : Outcome → Pc
  | .done result => .returned result
  | .wait => .parked ticket canFlush
  | .waitFor => .leadWaiting ticket
  | .flush => .leadFlush ticket

/-- `notify_all`: the threads in `cond.wait` contend for the mutex again. -/
def Pc.wakeUp : Pc → Pc
  | .parked ticket canFlush => .entering ticket canFlush
  | pc => pc

def Pc.holdsLock : Pc → Bool
  | .appending _ | .registering | .registered _ | .flushing _ | .notifying _ | .flushed _ => true
  | _ => false

inductive Action where
  /-- Call `append` or `append_batch` and append this many records under the log lock. -/
  | append (records : Nat)
  /-- Call `SharedPartitionLog::flush` and take the log lock. -/
  | flush
  | addPending
  | registerWaiter
  | unlock
  /-- Take the mutex and run the outer loop. -/
  | enter
  /-- `wait_for` returns, by timeout, notification or spuriously. -/
  | wake
  /-- The leader takes the log lock. -/
  | lockLog
  | fsync (result : Option FlushError)
  | notify
  | finish
  /-- `cond.wait` returns without a notification. -/
  | spuriousWake
  /-- The caller goes on after the call returned. -/
  | nextCall
deriving Repr

structure Sys (n : Nat) where
  inner : Inner
  pcs : Fin n → Pc
  logLock : Option (Fin n)
  /-- The wall clock, in milliseconds. -/
  time : Nat
  /-- History: a counter of appends and flush starts, the moment of each thread's last append,
  of the start of the last flush, and of the starts of the successful flushes. -/
  moment : Nat
  appendedAt : Fin n → Nat
  flushBegan : Nat
  goodFlushes : List Nat

namespace Sys

variable {n : Nat}

def init (n : Nat) : Sys n :=
  { inner := Inner.new, pcs := fun _ => .idle, logLock := none, time := 0, moment := 1,
    appendedAt := fun _ => 0, flushBegan := 0, goodFlushes := [] }

def tick (s : Sys n) : Sys n := { s with time := s.time + 1 }

/-- Thread `i` moves to `pc`. -/
def goto (s : Sys n) (i : Fin n) (pc : Pc) : Sys n := { s with pcs := update s.pcs i pc }

/-- Thread `i` ends a section under the mutex, with `notify_all` if `wake`. -/
def leaveSection (s : Sys n) (i : Fin n) (inner : Inner) (pc : Pc) (wake : Bool) : Sys n :=
  let pcs := if wake then fun j => (s.pcs j).wakeUp else s.pcs
  { s with inner, pcs := update pcs i pc }

/-- Thread `i` ends a section of `wait_or_lead`. -/
def leaveWait (s : Sys n) (i : Fin n) (ticket : Nat) (canFlush : Bool) :
    Inner × Outcome × Bool → Sys n
  | (inner, outcome, wake) => s.leaveSection i inner (outcome.pc ticket canFlush) wake

def lock (s : Sys n) (i : Fin n) : Sys n := { s with logLock := some i }

def unlock (s : Sys n) : Sys n := { s with logLock := none }

def beginFlush (s : Sys n) : Sys n := { s with flushBegan := s.moment, moment := s.moment + 1 }

def recordAppend (s : Sys n) (i : Fin n) : Sys n :=
  { s with appendedAt := update s.appendedAt i s.moment, moment := s.moment + 1 }

/-- One atomic step of thread `i`; `none` if the thread cannot take it. -/
def next (limits : Limits) (s : Sys n) (i : Fin n) (action : Action) : Option (Sys n) :=
  match action, s.pcs i with
  | .append records, .idle =>
    if s.logLock = none ∧ 0 < records then
      some (((s.lock i).recordAppend i).goto i (.appending records))
    else none
  | .flush, .idle =>
    if s.logLock = none then some (((s.lock i).beginFlush).goto i (.flushing none)) else none
  | .addPending, .appending records =>
    let (inner, wake) := GroupCommit.addPending limits records s.inner
    some (s.leaveSection i inner .registering wake)
  | .registerWaiter, .registering =>
    let (inner, ticket) := GroupCommit.registerWaiter s.time s.inner
    some (s.leaveSection i inner (.registered ticket) false)
  | .unlock, .registered ticket => some (s.unlock.goto i (.entering ticket true))
  | .unlock, .flushed (some ticket) => some (s.unlock.goto i (.leadDone ticket none))
  | .unlock, .flushed none => some (s.unlock.goto i .idle)
  | .enter, .entering ticket canFlush =>
    some (s.leaveWait i ticket canFlush (waitLoop limits s.time ticket canFlush s.inner))
  | .wake, .leadWaiting ticket =>
    some (s.leaveWait i ticket true (leadLoop limits s.time ticket s.inner))
  | .lockLog, .leadFlush ticket =>
    if s.logLock = none then some (((s.lock i).beginFlush).goto i (.flushing (some ticket)))
    else none
  | .fsync none, .flushing leader =>
    some ({ s with goodFlushes := s.flushBegan :: s.goodFlushes }.goto i (.notifying leader))
  | .fsync (some e), .flushing (some ticket) => some (s.unlock.goto i (.leadDone ticket (some e)))
  | .fsync (some _), .flushing none => some (s.unlock.goto i .idle)
  | .notify, .notifying leader =>
    some (s.leaveSection i (notifyFlushed s.inner) (.flushed leader) true)
  | .finish, .leadDone ticket result =>
    some (s.leaveWait i ticket false (afterFlush limits s.time ticket result s.inner))
  | .spuriousWake, .parked ticket canFlush => some (s.goto i (.entering ticket canFlush))
  | .nextCall, .returned _ => some (s.goto i .idle)
  | _, _ => none

end Sys

/-! ## What a section of `wait_or_lead` can do -/

section Sections

variable (limits : Limits) (now ticket : Nat) (canFlush : Bool) (g : Inner)

theorem leadLoop_cases : (ticket < g.flushGen ∧ leadLoop limits now ticket g =
      (leave { g with hasLeader := false }, .done (flushErrorFor g ticket), true)) ∨
    (g.flushGen ≤ ticket ∧ shouldFlushNow limits now g = true ∧
      leadLoop limits now ticket g = (g, .flush, false)) ∨
    (g.flushGen ≤ ticket ∧ shouldFlushNow limits now g = false ∧
      leadLoop limits now ticket g = (g, .waitFor, false)) := by
  unfold leadLoop alreadyDone
  by_cases hdone : ticket < g.flushGen
  · simp [hdone]
  · cases hflush : shouldFlushNow limits now g <;> simp [hdone, Nat.le_of_not_lt hdone]

theorem waitLoop_cases : (ticket < g.flushGen ∧ waitLoop limits now ticket canFlush g =
      (leave g, .done (flushErrorFor g ticket), false)) ∨
    (g.flushGen ≤ ticket ∧ (g.hasLeader = true ∨ canFlush = false) ∧
      waitLoop limits now ticket canFlush g = (g, .wait, false)) ∨
    (g.flushGen ≤ ticket ∧ g.hasLeader = false ∧ canFlush = true ∧
      (waitLoop limits now ticket canFlush g = ({ g with hasLeader := true }, .flush, false) ∨
        waitLoop limits now ticket canFlush g =
          ({ g with hasLeader := true }, .waitFor, false))) := by
  by_cases hdone : ticket < g.flushGen
  · simp [waitLoop, alreadyDone, hdone]
  · have hle := Nat.le_of_not_lt hdone
    cases hl : g.hasLeader
    · cases hc : canFlush
      · simp [waitLoop, alreadyDone, hdone, hle]
      · have hlead := leadLoop_cases limits now ticket { g with hasLeader := true }
        simp only [waitLoop, alreadyDone, hdone, hl, if_false, Bool.false_or, Bool.not_true,
          Bool.false_eq_true]
        rcases hlead with ⟨hlt, _⟩ | ⟨_, _, heq⟩ | ⟨_, _, heq⟩
        · exact absurd hlt hdone
        · exact .inr (.inr ⟨hle, trivial, trivial, .inl heq⟩)
        · exact .inr (.inr ⟨hle, trivial, trivial, .inr heq⟩)
    · simp [waitLoop, alreadyDone, hdone, hl, hle]

end Sections

/-! ## Inversion of a step -/

namespace Sys

variable {n : Nat} {limits : Limits} {s t : Sys n} {i : Fin n} {action : Action}

@[simp] theorem goto_self (pc : Pc) : (s.goto i pc).pcs i = pc := update_self ..

theorem goto_ne {j : Fin n} (h : j ≠ i) (pc : Pc) : (s.goto i pc).pcs j = s.pcs j :=
  update_of_ne h ..

@[simp] theorem goto_inner (pc : Pc) : (s.goto i pc).inner = s.inner := rfl

@[simp] theorem lock_inner : (s.lock i).inner = s.inner := rfl

@[simp] theorem unlock_inner : s.unlock.inner = s.inner := rfl

@[simp] theorem beginFlush_inner : s.beginFlush.inner = s.inner := rfl

@[simp] theorem recordAppend_inner : (s.recordAppend i).inner = s.inner := rfl

@[simp] theorem leaveSection_self (inner : Inner) (pc : Pc) (wake : Bool) :
    (s.leaveSection i inner pc wake).pcs i = pc := update_self ..

theorem leaveSection_ne {j : Fin n} (h : j ≠ i) (inner : Inner) (pc : Pc) (wake : Bool) :
    (s.leaveSection i inner pc wake).pcs j = if wake then (s.pcs j).wakeUp else s.pcs j := by
  cases wake <;> exact update_of_ne h ..

@[simp] theorem leaveSection_inner (inner : Inner) (pc : Pc) (wake : Bool) :
    (s.leaveSection i inner pc wake).inner = inner := rfl

/-- Everything one step of thread `i` can do. -/
inductive Step (limits : Limits) (s : Sys n) (i : Fin n) : Action → Sys n → Prop where
  | append {records : Nat} (hpc : s.pcs i = .idle) (hfree : s.logLock = none)
      (hpos : 0 < records) :
      Step limits s i (.append records)
        (((s.lock i).recordAppend i).goto i (.appending records))
  | flush (hpc : s.pcs i = .idle) (hfree : s.logLock = none) :
      Step limits s i .flush (((s.lock i).beginFlush).goto i (.flushing none))
  | addPending {records : Nat} (hpc : s.pcs i = .appending records) :
      Step limits s i .addPending
        (s.leaveSection i (GroupCommit.addPending limits records s.inner).1 .registering
          (GroupCommit.addPending limits records s.inner).2)
  | registerWaiter (hpc : s.pcs i = .registering) :
      Step limits s i .registerWaiter
        (s.leaveSection i (GroupCommit.registerWaiter s.time s.inner).1
          (.registered s.inner.flushGen) false)
  | dropLog {ticket : Nat} (hpc : s.pcs i = .registered ticket) :
      Step limits s i .unlock (s.unlock.goto i (.entering ticket true))
  | leaderUnlock {ticket : Nat} (hpc : s.pcs i = .flushed (some ticket)) :
      Step limits s i .unlock (s.unlock.goto i (.leadDone ticket none))
  | flushUnlock (hpc : s.pcs i = .flushed none) :
      Step limits s i .unlock (s.unlock.goto i .idle)
  | enterDone {ticket : Nat} {canFlush : Bool} (hpc : s.pcs i = .entering ticket canFlush)
      (hdone : ticket < s.inner.flushGen) :
      Step limits s i .enter
        (s.leaveSection i (leave s.inner) (.returned (flushErrorFor s.inner ticket)) false)
  | enterWait {ticket : Nat} {canFlush : Bool} (hpc : s.pcs i = .entering ticket canFlush)
      (hundone : s.inner.flushGen ≤ ticket) (hwait : s.inner.hasLeader = true ∨ canFlush = false) :
      Step limits s i .enter (s.leaveSection i s.inner (.parked ticket canFlush) false)
  | enterLead {ticket : Nat} {pc : Pc} (hpc : s.pcs i = .entering ticket true)
      (hundone : s.inner.flushGen ≤ ticket) (hfree : s.inner.hasLeader = false)
      (hnext : pc = .leadFlush ticket ∨ pc = .leadWaiting ticket) :
      Step limits s i .enter (s.leaveSection i { s.inner with hasLeader := true } pc false)
  | wakeDone {ticket : Nat} (hpc : s.pcs i = .leadWaiting ticket)
      (hdone : ticket < s.inner.flushGen) :
      Step limits s i .wake
        (s.leaveSection i (leave { s.inner with hasLeader := false })
          (.returned (flushErrorFor s.inner ticket)) true)
  | wakeFlush {ticket : Nat} (hpc : s.pcs i = .leadWaiting ticket)
      (hundone : s.inner.flushGen ≤ ticket)
      (hnow : shouldFlushNow limits s.time s.inner = true) :
      Step limits s i .wake (s.leaveSection i s.inner (.leadFlush ticket) false)
  | wakeWait {ticket : Nat} (hpc : s.pcs i = .leadWaiting ticket)
      (hundone : s.inner.flushGen ≤ ticket)
      (hnow : shouldFlushNow limits s.time s.inner = false) :
      Step limits s i .wake (s.leaveSection i s.inner (.leadWaiting ticket) false)
  | lockLog {ticket : Nat} (hpc : s.pcs i = .leadFlush ticket) (hfree : s.logLock = none) :
      Step limits s i .lockLog (((s.lock i).beginFlush).goto i (.flushing (some ticket)))
  | fsyncOk {leader : Option Nat} (hpc : s.pcs i = .flushing leader) :
      Step limits s i (.fsync none)
        ({ s with goodFlushes := s.flushBegan :: s.goodFlushes }.goto i (.notifying leader))
  | leaderFsyncFails {ticket : Nat} {e : FlushError} (hpc : s.pcs i = .flushing (some ticket)) :
      Step limits s i (.fsync (some e)) (s.unlock.goto i (.leadDone ticket (some e)))
  | flushFsyncFails {e : FlushError} (hpc : s.pcs i = .flushing none) :
      Step limits s i (.fsync (some e)) (s.unlock.goto i .idle)
  | notify {leader : Option Nat} (hpc : s.pcs i = .notifying leader) :
      Step limits s i .notify
        (s.leaveSection i (notifyFlushed s.inner) (.flushed leader) true)
  | finishFails {ticket : Nat} {e : FlushError} (hpc : s.pcs i = .leadDone ticket (some e)) :
      Step limits s i .finish
        (s.leaveSection i
          (leave { s.inner with
            hasLeader := false
            flushGen := wrappingAdd s.inner.flushGen 1
            lastError := some (wrappingAdd s.inner.flushGen 1, e.text)
            windowStart := none }) (.returned (.error e.error)) true)
  | finishDone {ticket : Nat} (hpc : s.pcs i = .leadDone ticket none)
      (hdone : ticket < s.inner.flushGen) :
      Step limits s i .finish
        (s.leaveSection i (leave { s.inner with hasLeader := false })
          (.returned (flushErrorFor s.inner ticket)) true)
  | finishWait {ticket : Nat} (hpc : s.pcs i = .leadDone ticket none)
      (hundone : s.inner.flushGen ≤ ticket) :
      Step limits s i .finish
        (s.leaveSection i { s.inner with hasLeader := false } (.parked ticket false) true)
  | spuriousWake {ticket : Nat} {canFlush : Bool} (hpc : s.pcs i = .parked ticket canFlush) :
      Step limits s i .spuriousWake (s.goto i (.entering ticket canFlush))
  | nextCall {result : Except Error Unit} (hpc : s.pcs i = .returned result) :
      Step limits s i .nextCall (s.goto i .idle)

theorem step_enter {ticket : Nat} {canFlush : Bool} (hpc : s.pcs i = .entering ticket canFlush) :
    Step limits s i .enter
      (s.leaveWait i ticket canFlush (waitLoop limits s.time ticket canFlush s.inner)) := by
  rcases waitLoop_cases limits s.time ticket canFlush s.inner with
    ⟨hdone, heq⟩ | ⟨hundone, hwait, heq⟩ | ⟨hundone, hfree, rfl, heq | heq⟩
  all_goals rw [heq]
  · exact .enterDone hpc hdone
  · exact .enterWait hpc hundone hwait
  · exact .enterLead hpc hundone hfree (.inl rfl)
  · exact .enterLead hpc hundone hfree (.inr rfl)

theorem step_wake {ticket : Nat} (hpc : s.pcs i = .leadWaiting ticket) :
    Step limits s i .wake (s.leaveWait i ticket true (leadLoop limits s.time ticket s.inner)) := by
  rcases leadLoop_cases limits s.time ticket s.inner with
    ⟨hdone, heq⟩ | ⟨hundone, hnow, heq⟩ | ⟨hundone, hnow, heq⟩
  all_goals rw [heq]
  · exact .wakeDone hpc hdone
  · exact .wakeFlush hpc hundone hnow
  · exact .wakeWait hpc hundone hnow

theorem step_finish {ticket : Nat} {result : Option FlushError}
    (hpc : s.pcs i = .leadDone ticket result) : Step limits s i .finish
      (s.leaveWait i ticket false (afterFlush limits s.time ticket result s.inner)) := by
  cases result with
  | some e => exact .finishFails hpc
  | none =>
    rcases waitLoop_cases limits s.time ticket false { s.inner with hasLeader := false } with
      ⟨hdone, heq⟩ | ⟨hundone, _, heq⟩ | ⟨_, _, hfalse, _⟩
    · simp only [afterFlush, heq]
      exact .finishDone hpc hdone
    · simp only [afterFlush, heq]
      exact .finishWait hpc hundone
    · cases hfalse

theorem step_of_next (h : s.next limits i action = some t) : Step limits s i action t := by
  unfold next at h
  split at h
  case h_1 hpc =>
    split at h
    · rename_i hcond
      cases h
      exact .append hpc hcond.1 hcond.2
    · cases h
  case h_2 hpc =>
    split at h
    · rename_i hcond
      cases h
      exact .flush hpc hcond
    · cases h
  case h_10 hpc =>
    split at h
    · rename_i hcond
      cases h
      exact .lockLog hpc hcond
    · cases h
  all_goals cases h
  · exact .addPending ‹_›
  · exact .registerWaiter ‹_›
  · exact .dropLog ‹_›
  · exact .leaderUnlock ‹_›
  · exact .flushUnlock ‹_›
  · exact step_enter ‹_›
  · exact step_wake ‹_›
  · exact .fsyncOk ‹_›
  · exact .leaderFsyncFails ‹_›
  · exact .flushFsyncFails ‹_›
  · exact .notify ‹_›
  · exact step_finish ‹_›
  · exact .spuriousWake ‹_›
  · exact .nextCall ‹_›

end Sys

end GroupCommit

end Volant.Storage
