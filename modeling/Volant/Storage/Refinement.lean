-- SUMMARY: The partition log refines an abstract log: a start offset and a gap-free list of records.
import Volant.Storage.Reopen

/-!
# Refinement

The abstract log is what a partition log is for: a start offset and a gap-free
list of records, extended at the end and trimmed at the front. A run of
successful operations on the model of the code, including closing and
reopening, is matched step by step by a run of the abstract log, and reads of
the one are reads of the other.
-/

namespace Volant.Storage

open List

/-! ## The abstract log -/

structure AbstractLog where
  logStart : Nat
  records : List Record
  gapFree : GapFree logStart records

inductive Op where
  | openLog (config : StorageConfig)
  | close
  | append (message : Message)
  | appendBatch (messages : List Message)
  | appendWithOffset (offset : Nat) (message : Message)
  | roll
  | flush
  | deleteRecords (beforeOffset : Nat)
  | applyRetention
deriving DecidableEq, Repr

inductive Result where
  | done
  | records (rs : List Record)
  | offset (o : Nat)
deriving DecidableEq, Repr

namespace AbstractLog

def empty : AbstractLog := ⟨0, [], trivial⟩

def logEnd (a : AbstractLog) : Nat := a.logStart + a.records.length

/-- The first `n` records whose offset is at least `start`, and at least the log start. -/
def read (a : AbstractLog) (start n : Nat) : List Record :=
  (a.records.filter (max start a.logStart ≤ ·.offset)).take n

/-- `c` is `a` with the messages `ms`, stamped as `rs`, at its end. -/
def Appends (a : AbstractLog) (ms : List Message) (rs : List Record) (c : AbstractLog) : Prop :=
  Stamped a.logEnd ms rs ∧ c.logStart = a.logStart ∧ c.records = a.records ++ rs

/-- `c` is `a` without a prefix of records that all satisfy `p`. -/
def Drops (a : AbstractLog) (p : Record → Prop) (c : AbstractLog) : Prop :=
  ∃ j, j ≤ a.records.length ∧ c.logStart = a.logStart + j ∧ c.records = a.records.drop j ∧
    ∀ r ∈ a.records.take j, p r

/-- What an operation may do to the abstract log, and what it returns. -/
def Step (a : AbstractLog) : Op → Result → AbstractLog → Prop
  | .append m, .records rs, c => a.Appends [m] rs c
  | .appendBatch ms, .records rs, c => a.Appends ms rs c
  | .appendWithOffset o m, .records rs, c => o = a.logEnd ∧ a.Appends [m] rs c
  | .deleteRecords b, .offset o, c => a.Drops (·.offset < b) c ∧ o = c.logStart
  | .applyRetention, .done, c => a.Drops (fun _ => True) c
  | .openLog _, .done, c => c = a
  | .close, .done, c => c = a
  | .roll, .done, c => c = a
  | .flush, .done, c => c = a
  | _, _, _ => False

def Run : AbstractLog → List (Op × Result) → AbstractLog → Prop
  | a, [], b => b = a
  | a, (op, r) :: trace, b => ∃ c, a.Step op r c ∧ Run c trace b

end AbstractLog

/-! ## Runs of the code -/

/-- The files of a partition, and the log object while it is open. -/
structure Store where
  host : Host
  log : Option PartitionLog

/-- An empty data directory. -/
def Store.fresh (clock : Nat → Int64) : Store where
  host := { logs := ∅, indexes := [], clock := clock, tick := 0 }
  log := none

abbrev StoreM := EStateM Error Store

/-- Run an operation of the open log. Without one there is no object to call. -/
def onLog {α : Type} (x : LogM α) (result : α → Result) : StoreM Result := fun s =>
  match s.log with
  | none => .error (.notFound "no open log") s
  | some log =>
    match x ⟨s.host, log⟩ with
    | .ok a t => .ok (result a) { host := t.host, log := some t.log }
    | .error e t => .error e { host := t.host, log := some t.log }

/-- Opening drops the log object that was there before. -/
def openStore (P : Platform) (config : StorageConfig) : StoreM Result := fun s =>
  match PartitionLog.open P config s.host with
  | .ok log h => .ok .done { host := h, log := some log }
  | .error e h => .error e { host := h, log := none }

def exec (P : Platform) : Op → StoreM Result
  | .openLog config => openStore P config
  | .close => fun s => .ok .done { s with log := none }
  | .append m => onLog (PartitionLog.append P m) fun r => .records [r]
  | .appendBatch ms => onLog (PartitionLog.appendBatch P ms) .records
  | .appendWithOffset o m => onLog (PartitionLog.appendWithOffset P o m) fun r => .records [r]
  | .roll => onLog (PartitionLog.roll P) fun _ => .done
  | .flush => onLog PartitionLog.flush fun _ => .done
  | .deleteRecords b => onLog (PartitionLog.deleteRecords P b) .offset
  | .applyRetention => onLog (PartitionLog.applyRetention P) fun _ => .done

/-- Run operations that all succeed and are all allowed by `ok` where they are called. -/
def runWhen (P : Platform) (ok : Store → Op → Bool) :
    List Op → Store → Option (List (Op × Result) × Store)
  | [], s => some ([], s)
  | op :: ops, s =>
    if ok s op then
      match exec P op s with
      | .ok r t => (runWhen P ok ops t).map fun x => ((op, r) :: x.1, x.2)
      | .error _ _ => none
    else none

/-- Retention is run without compaction. -/
def withoutCompaction (s : Store) : Op → Bool
  | .applyRetention => s.log.all (!·.config.compact)
  | _ => true

/-- No byte of the open log is in memory only. -/
def nothingPending (s : Store) : Bool :=
  s.log.all fun log => log.segments.all fun g =>
    !g.directIo || g.pending.isPrefixOf ((s.host.bytesOf g.path).drop g.physicalSize)

/-- The condition on each step: retention without compaction, no close or reopen while bytes are
pending, and direct I/O only together with memory mapping. -/
def admissible (P : Platform) (s : Store) (op : Op) : Bool :=
  withoutCompaction s op &&
    match op with
    | .close => nothingPending s
    | .openLog config =>
      nothingPending s && (!applyDirectIoFlag P config.directIo || config.useMmap)
    | _ => true

/-- The messages an operation appends. -/
def Op.messages : Op → List Message
  | .append m => [m]
  | .appendBatch ms => ms
  | .appendWithOffset _ m => [m]
  | _ => []

/-- The open log and the abstract one agree on every read and on both ends. -/
structure Represents (P : Platform) (s : LogState) (a : AbstractLog) : Prop where
  read : ∀ start n, PartitionLog.read P s start n = .ok (a.read start n)
  logEnd : s.log.logEndOffset = a.logEnd
  logStart : s.log.logStartOffset = a.logStart

/-- The trace is one of the abstract log, and its end state is what the store holds. -/
def Refined (P : Platform) (trace : List (Op × Result)) (s : Store) : Prop :=
  ∃ a, AbstractLog.Run .empty trace a ∧ ∀ log, s.log = some log → Represents P ⟨s.host, log⟩ a

/-! ## Simulation -/

/-- The store holds the abstract log, open or closed. -/
def Sim (P : Platform) (s : Store) (a : AbstractLog) : Prop :=
  match s.log with
  | some log => LogInv P ⟨s.host, log⟩ a.logStart a.records
  | none => DiskInv P s.host a.logStart a.records

section

variable {P : Platform} {s t : Store} {a : AbstractLog} {r : Result}

theorem onLog_ok {α : Type} {x : LogM α} {result : α → Result} (hrun : onLog x result s = .ok r t) :
    ∃ log v u, s.log = some log ∧ x ⟨s.host, log⟩ = .ok v u ∧ r = result v ∧
      t = { host := u.host, log := some u.log } := by
  unfold onLog at hrun
  split at hrun
  · cases hrun
  · rename_i log hlog
    split at hrun
    · rename_i v u hx
      cases hrun
      exact ⟨log, v, u, hlog, hx, rfl, rfl⟩
    · cases hrun

theorem openStore_ok {config : StorageConfig} (hrun : openStore P config s = .ok r t) :
    ∃ log h, PartitionLog.open P config s.host = .ok log h ∧ r = .done ∧
      t = { host := h, log := some log } := by
  unfold openStore at hrun
  split at hrun
  · rename_i log h hopen
    cases hrun
    exact ⟨log, h, hopen, rfl, rfl⟩
  · cases hrun

variable {log : PartitionLog}

theorem Sim.open (hsim : Sim P s a) (hlog : s.log = some log) :
    LogInv P ⟨s.host, log⟩ a.logStart a.records := by
  unfold Sim at hsim
  rw [hlog] at hsim
  exact hsim

/-- Whether open or closed, a log with nothing pending is on disk. -/
theorem Sim.diskInv (hsim : Sim P s a) (hpend : nothingPending s = true) :
    DiskInv P s.host a.logStart a.records := by
  cases hlog : s.log with
  | none =>
    unfold Sim at hsim
    rw [hlog] at hsim
    exact hsim
  | some log =>
    refine (hsim.open hlog).diskInv fun g hg hd => ?_
    simp only [nothingPending, hlog, Option.all_some, all_eq_true] at hpend
    have hg' := hpend g hg
    rw [hd, Bool.not_true] at hg'
    exact isPrefixOf_iff_prefix.mp hg'

/-- The abstract log after an append. -/
theorem appends_of_inv {u : LogState} {ms : List Message} {rs : List Record}
    (hst : Stamped a.logEnd ms rs) (hi : LogInv P u a.logStart (a.records ++ rs)) :
    ∃ c, a.Appends ms rs c ∧ c.logEnd = a.logEnd + ms.length ∧ LogInv P u c.logStart c.records := by
  refine ⟨⟨a.logStart, a.records ++ rs, hi.chain.gapFree⟩, ⟨hst, rfl, rfl⟩, ?_, hi⟩
  simp only [AbstractLog.logEnd, length_append, hst.length]
  omega

/-- The abstract log after a prefix is dropped. -/
theorem drops_of_inv {u : LogState} {j : Nat} {p : Record → Prop} (hj : j ≤ a.records.length)
    (hi : LogInv P u (a.logStart + j) (a.records.drop j)) (hp : ∀ r ∈ a.records.take j, p r) :
    ∃ c, a.Drops p c ∧ c.logEnd = a.logEnd ∧ c.logStart = a.logStart + j ∧
      LogInv P u c.logStart c.records := by
  refine ⟨⟨a.logStart + j, a.records.drop j, hi.chain.gapFree⟩, ⟨j, hj, rfl, rfl, hp⟩, ?_, rfl, hi⟩
  simp only [AbstractLog.logEnd, length_drop]
  omega

/-- One admissible step of the code is a step of the abstract log. -/
theorem exec_sim {op : Op} (hsim : Sim P s a) (hok : admissible P s op = true)
    (hfits : ∀ m ∈ op.messages, Message.Fits m) (hcount : a.logEnd + op.messages.length ≤ u64Max)
    (hrun : exec P op s = .ok r t) :
    ∃ c, a.Step op r c ∧ Sim P t c ∧ c.logEnd = a.logEnd + op.messages.length := by
  simp only [admissible, Bool.and_eq_true] at hok
  obtain ⟨hcompact, hok⟩ := hok
  cases op with
  | openLog config =>
    simp only [Bool.and_eq_true] at hok
    obtain ⟨log, h, hopen, rfl, rfl⟩ := openStore_ok hrun
    refine ⟨a, rfl, open_inv (hsim.diskInv hok.1) (fun hd => ?_) hopen, rfl⟩
    simpa [hd] using hok.2
  | close =>
    cases hrun
    exact ⟨a, rfl, hsim.diskInv hok, rfl⟩
  | append m =>
    obtain ⟨log, v, u, hlog, hx, rfl, rfl⟩ := onLog_ok hrun
    obtain ⟨hst, hi, -⟩ := PartitionLog.append_inv (hsim.open hlog) (hfits m mem_cons_self)
      hcount hx
    obtain ⟨c, happ, hend, hi'⟩ := appends_of_inv hst hi
    exact ⟨c, happ, hi', hend⟩
  | appendBatch ms =>
    obtain ⟨log, v, u, hlog, hx, rfl, rfl⟩ := onLog_ok hrun
    obtain ⟨hst, hi, -⟩ := PartitionLog.appendBatch_inv (hsim.open hlog) hfits hcount hx
    obtain ⟨c, happ, hend, hi'⟩ := appends_of_inv hst hi
    exact ⟨c, happ, hi', hend⟩
  | appendWithOffset o m =>
    obtain ⟨log, v, u, hlog, hx, rfl, rfl⟩ := onLog_ok hrun
    obtain ⟨ho, hst, hi, -⟩ := PartitionLog.appendWithOffset_inv (hsim.open hlog)
      (hfits m mem_cons_self) hcount hx
    obtain ⟨c, happ, hend, hi'⟩ := appends_of_inv hst hi
    exact ⟨c, ⟨ho, happ⟩, hi', hend⟩
  | roll =>
    obtain ⟨log, v, u, hlog, hx, rfl, rfl⟩ := onLog_ok hrun
    exact ⟨a, rfl, (PartitionLog.roll_inv (hsim.open hlog) hx).1, rfl⟩
  | flush =>
    obtain ⟨log, v, u, hlog, hx, rfl, rfl⟩ := onLog_ok hrun
    exact ⟨a, rfl, (PartitionLog.flush_inv (hsim.open hlog) hx).1, rfl⟩
  | deleteRecords b =>
    obtain ⟨log, v, u, hlog, hx, rfl, rfl⟩ := onLog_ok hrun
    obtain ⟨j, hj, hi, hpre, rfl, -, -⟩ := PartitionLog.deleteRecords_inv (hsim.open hlog) hx
    obtain ⟨c, hdrop, hend, hstart, hi'⟩ := drops_of_inv hj hi hpre
    exact ⟨c, ⟨hdrop, hstart.symm⟩, hi', hend⟩
  | applyRetention =>
    obtain ⟨log, v, u, hlog, hx, rfl, rfl⟩ := onLog_ok hrun
    have hno : log.config.compact = false := by
      simpa [withoutCompaction, hlog] using hcompact
    obtain ⟨j, hj, hi, -⟩ := PartitionLog.applyRetention_trimmed (hsim.open hlog) hno hx
    obtain ⟨c, hdrop, hend, -, hi'⟩ := drops_of_inv (p := fun _ => True) hj hi (by simp)
    exact ⟨c, hdrop, hi', hend⟩

variable {trace : List (Op × Result)} {ok : Store → Op → Bool}

/-- A run of admissible steps is a run of the abstract log. -/
theorem runWhen_sim {ops : List Op}
    (hok : ∀ {s a op}, Sim P s a → ok s op = true → admissible P s op = true) (hsim : Sim P s a)
    (hfits : ∀ op ∈ ops, ∀ m ∈ op.messages, Message.Fits m)
    (hcount : a.logEnd + (ops.flatMap Op.messages).length ≤ u64Max)
    (hrun : runWhen P ok ops s = some (trace, t)) : ∃ b, a.Run trace b ∧ Sim P t b := by
  induction ops generalizing s a trace with
  | nil =>
    cases hrun
    exact ⟨a, rfl, hsim⟩
  | cons op ops ih =>
    simp only [runWhen] at hrun
    split at hrun
    · rename_i hop
      split at hrun
      · rename_i r s1 hexec
        obtain ⟨⟨trace', t'⟩, hrest, heq⟩ := Option.map_eq_some_iff.mp hrun
        cases heq
        simp only [flatMap_cons, length_append] at hcount
        obtain ⟨c, hstep, hsim', hend⟩ := exec_sim hsim (hok hsim hop)
          (hfits op mem_cons_self) (by omega) hexec
        obtain ⟨b, hb, hsimb⟩ := ih hsim' (fun o ho => hfits o (mem_cons_of_mem _ ho))
          (by omega) hrest
        exact ⟨b, ⟨c, hstep, hb⟩, hsimb⟩
      · cases hrun
    · cases hrun

theorem Sim.represents (hsim : Sim P s a) (hlog : s.log = some log) :
    Represents P ⟨s.host, log⟩ a where
  read start n := PartitionLog.read_eq (hsim.open hlog) start n
  logEnd := (hsim.open hlog).next
  logStart := (hsim.open hlog).chain.head_base

theorem sim_fresh (clock : Nat → Int64) : Sim P (Store.fresh clock) .empty :=
  .inl ⟨rfl, rfl, fun _ => rfl⟩

theorem refined_of_run {clock : Nat → Int64} {ops : List Op}
    (hok : ∀ {s a op}, Sim P s a → ok s op = true → admissible P s op = true)
    (hfits : ∀ op ∈ ops, ∀ m ∈ op.messages, Message.Fits m)
    (hcount : (ops.flatMap Op.messages).length ≤ u64Max)
    (hrun : runWhen P ok ops (Store.fresh clock) = some (trace, s)) : Refined P trace s := by
  have hzero : AbstractLog.empty.logEnd + (ops.flatMap Op.messages).length ≤ u64Max := by
    simpa [AbstractLog.logEnd, AbstractLog.empty] using hcount
  obtain ⟨a, htrace, hsim⟩ := runWhen_sim hok (sim_fresh clock) hfits hzero hrun
  exact ⟨a, htrace, fun log hlog => hsim.represents hlog⟩

/-- Without direct I/O in the build nothing is ever pending. -/
theorem admissible_of_buffered {op : Op} (hP : P.directIo = false) (hsim : Sim P s a)
    (hop : withoutCompaction s op = true) : admissible P s op = true := by
  have hpend : nothingPending s = true := by
    cases hlog : s.log with
    | none => simp [nothingPending, hlog]
    | some log =>
      simp only [nothingPending, hlog, Option.all_some, all_eq_true]
      intro g hg
      cases hd : g.directIo with
      | false => rfl
      | true =>
        have := (hsim.open hlog).chain.directBuild g hg hd
        simp [hP] at this
  cases op with
  | openLog config => simp [admissible, hop, hpend, applyDirectIoFlag, hP]
  | close => simp [admissible, hop, hpend]
  | append | appendBatch | appendWithOffset | roll | flush | deleteRecords | applyRetention =>
    simp [admissible, hop]

end

/-- Every run of successful operations in which no log is closed or reopened with bytes pending in
memory, and direct I/O is used only with memory mapping, refines the abstract log. -/
theorem partition_log_refines_abstract_log (P : Platform) (clock : Nat → Int64) (ops : List Op)
    (trace : List (Op × Result)) (s : Store) (hfits : ∀ op ∈ ops, ∀ m ∈ op.messages, Message.Fits m)
    (hcount : (ops.flatMap Op.messages).length ≤ u64Max)
    (hrun : runWhen P (admissible P) ops (Store.fresh clock) = some (trace, s)) :
    Refined P trace s :=
  refined_of_run (fun _ hop => hop) hfits hcount hrun

/-- In a build without direct I/O the condition is empty: every run without compaction refines the
abstract log, whatever the configuration. -/
theorem buffered_log_refines_abstract_log (P : Platform) (hP : P.directIo = false)
    (clock : Nat → Int64) (ops : List Op) (trace : List (Op × Result)) (s : Store)
    (hfits : ∀ op ∈ ops, ∀ m ∈ op.messages, Message.Fits m)
    (hcount : (ops.flatMap Op.messages).length ≤ u64Max)
    (hrun : runWhen P withoutCompaction ops (Store.fresh clock) = some (trace, s)) :
    Refined P trace s :=
  refined_of_run (admissible_of_buffered hP) hfits hcount hrun

/-! ## Concrete runs -/

def plainPlatform : Platform := { crc := fun _ => 0, directIo := false, acceptsDirect := false }

/-- Linux with the `direct-io` feature, on a file system that accepts `O_DIRECT`. -/
def directPlatform : Platform := { plainPlatform with directIo := true, acceptsDirect := true }

/-- Room for one small record in a segment. -/
def smallSegments : StorageConfig := { StorageConfig.default with segmentSize := 100 }

def smallMessage : Message where
  key := none
  value := [120]
  timestampMs := some 0
  headers := []

theorem smallMessage_fits : Message.Fits smallMessage where
  recordLength := by decide
  names := by simp [smallMessage]

/-- Three records in three segments, reopened and trimmed. -/
def trimmedRun : List Op :=
  [.openLog smallSegments, .append smallMessage, .appendBatch [smallMessage, smallMessage], .flush,
    .close, .openLog smallSegments, .deleteRecords 2, .applyRetention]

theorem trimmedRun_fits : ∀ op ∈ trimmedRun, ∀ m ∈ op.messages, Message.Fits m := by
  intro op hop m hm
  have hmem : m ∈ trimmedRun.flatMap Op.messages := mem_flatMap.mpr ⟨op, hop, hm⟩
  obtain rfl : m = smallMessage := by simpa [trimmedRun, Op.messages] using hmem
  exact smallMessage_fits

theorem partition_log_refines_trimmed_run :
    ∃ trace s, runWhen plainPlatform (admissible plainPlatform) trimmedRun
        (Store.fresh fun _ => 0) = some (trace, s) ∧
      s.log.map (·.logStartOffset) = some 2 ∧ s.log.map (·.logEndOffset) = some 3 ∧
      Refined plainPlatform trace s := by
  have hends : (runWhen plainPlatform (admissible plainPlatform) trimmedRun
      (Store.fresh fun _ => 0)).map
        (fun x => (x.2.log.map (·.logStartOffset), x.2.log.map (·.logEndOffset))) =
      some (some 2, some 3) := by decide +kernel
  obtain ⟨⟨trace, s⟩, hrun, hx⟩ := Option.map_eq_some_iff.mp hends
  obtain ⟨hstart, hend⟩ := Prod.mk.inj hx
  exact ⟨trace, s, hrun, hstart, hend, partition_log_refines_abstract_log plainPlatform _ trimmedRun
    trace s trimmedRun_fits (by decide) hrun⟩

theorem buffered_log_refines_rolled_run :
    ∃ trace s, runWhen plainPlatform withoutCompaction trimmedRun (Store.fresh fun _ => 0) =
        some (trace, s) ∧
      s.log.map (fun log => (log.logStartOffset, log.segments.length)) = some (2, 1) ∧
      Refined plainPlatform trace s := by
  have hends : (runWhen plainPlatform withoutCompaction trimmedRun (Store.fresh fun _ => 0)).map
      (·.2.log.map fun log => (log.logStartOffset, log.segments.length)) = some (some (2, 1)) := by
    decide +kernel
  obtain ⟨⟨trace, s⟩, hrun, hlog⟩ := Option.map_eq_some_iff.mp hends
  exact ⟨trace, s, hrun, hlog, buffered_log_refines_abstract_log plainPlatform rfl _ trimmedRun
    trace s trimmedRun_fits (by decide) hrun⟩

def directConfig : StorageConfig := { StorageConfig.default with directIo := true }

/-- The results of opening, flushing, appending, closing and opening again. -/
def lostTrace : List (Op × Result) :=
  [(.openLog directConfig, .done), (.flush, .done),
    (.append smallMessage, .records [smallMessage.toRecord 0 0]), (.close, .done),
    (.openLog directConfig, .done)]

/-- One acknowledged append and no deletion: the abstract log ends one past its start. -/
theorem logEnd_of_lostTrace {a : AbstractLog} (h : AbstractLog.Run .empty lostTrace a) :
    a.logEnd = 1 := by
  obtain ⟨a1, h1, a2, h2, a3, h3, a4, h4, a5, h5, h6⟩ := h
  obtain rfl : a1 = .empty := h1
  obtain rfl : a2 = .empty := h2
  obtain rfl : a4 = a3 := h4
  obtain rfl : a5 = a4 := h5
  obtain rfl : a = a5 := h6
  obtain ⟨hst, hstart, hrecs⟩ := h3
  simp [AbstractLog.logEnd, hstart, hrecs, AbstractLog.empty]

/-- With direct I/O, an acknowledged record that is still pending is lost by closing the log: all
five operations succeed, and the reopened log ends at offset 0. -/
theorem direct_io_loses_acknowledged_record :
    ∃ s, runWhen directPlatform withoutCompaction (lostTrace.map (·.1)) (Store.fresh fun _ => 0) =
        some (lostTrace, s) ∧ s.log.map (·.logEndOffset) = some 0 ∧
      ¬ Refined directPlatform lostTrace s := by
  have hends : (runWhen directPlatform withoutCompaction (lostTrace.map (·.1))
      (Store.fresh fun _ => 0)).map (fun x => (x.1, x.2.log.map (·.logEndOffset))) =
      some (lostTrace, some 0) := by decide +kernel
  obtain ⟨⟨trace, s⟩, hrun, hx⟩ := Option.map_eq_some_iff.mp hends
  obtain ⟨rfl, hend⟩ := Prod.mk.inj hx
  refine ⟨s, hrun, hend, ?_⟩
  rintro ⟨a, htrace, hrep⟩
  obtain ⟨log, hlog, hzero⟩ := Option.map_eq_some_iff.mp hend
  have hone := (hrep log hlog).logEnd
  rw [logEnd_of_lostTrace htrace] at hone
  simp only [hzero] at hone
  cases hone

/-- The other half of the condition: with direct I/O and no memory mapping, a sealed segment whose
size is not a multiple of the alignment cannot be read. -/
theorem sealed_direct_segment_unreadable : (runWhen directPlatform withoutCompaction
        [.openLog { smallSegments with directIo := true, useMmap := false }, .append smallMessage,
          .append smallMessage] (Store.fresh fun _ => 0)).bind
      (fun x => x.2.log.map fun log =>
        (PartitionLog.read directPlatform ⟨x.2.host, log⟩ 0 10).toOption) = some none := by
  decide +kernel

end Volant.Storage
