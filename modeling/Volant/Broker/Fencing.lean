-- SUMMARY: The pairs that InitProducerId hands out for a transactional id, and the fencing of earlier ones.
import Volant.Broker.CrashAbort
import Volant.Broker.Identities

/-!
# Fencing

The pairs handed out for a transactional id have one producer id and growing
epochs. A call with an earlier epoch finds another one in the table and is
turned away, after it has expired what has timed out, as every call does.
-/

namespace Volant.Broker.State

open List

variable {s s' : State} {id : String} {handed : List (Nat × Nat)} {epoch : Nat}

/-! ## Runs -/

/-- The pair that an operation hands out for a transactional id. -/
def handedOut (id : String) (s : State) : Op → Option (Nat × Nat)
  | .initProducerId id' enable2pc keepPrepared timeoutMs =>
    let r := (s.idle.initProducerIdWithOpts id' enable2pc keepPrepared timeoutMs).1
    if id' = id ∧ r.errorCode = .ok then some (r.producerId, r.epoch) else none
  | _ => none

/-- An InitProducerId does not use up the producer ids. One for `id` itself does not keep a
prepared transaction and does not wrap the epoch. -/
def Unwrapped (id : String) (s : State) : Op → Prop
  | .initProducerId id' _ keepPrepared _ => s.nextProducerId + 1 < 2 ^ 64 ∧
    (id' = id → keepPrepared = false ∧ ∀ pair ∈ s.pairOf id, pair.2 + 1 < 2 ^ 16)
  | _ => True

instance (id : String) (s : State) (op : Op) : Decidable (Unwrapped id s op) := by
  cases op <;> unfold Unwrapped <;> infer_instance

/-- The broker has run from its first start, and has handed out these pairs for `id`. -/
inductive Hands (id : String) (config : Config) : List (Nat × Nat) → State → Prop
  | fresh : Hands id config [] (fresh config)
  | exec {handed : List (Nat × Nat)} {s : State} (h : Hands id config handed s) (op : Op)
      (hop : Unwrapped id s op) :
      Hands id config (handed ++ (s.handedOut id op).toList) (s.exec op)

/-- The pairs have one producer id and growing epochs, and the last one is current. -/
structure Fenced (id : String) (handed : List (Nat × Nat)) (s : State) : Prop where
  identities : Identities s
  filed : Filed s
  ordered : handed.Pairwise fun a b => a.1 = b.1 ∧ a.2 < b.2
  last : handed.getLast? = s.pairOf id

theorem identities_fresh (config : Config) : Identities (fresh config) :=
  ⟨nofun, nofun, nofun, Nat.one_pos, nofun, nofun, nofun⟩

theorem Fenced.same (h : Fenced id handed s) (hsame : SameIds s s') :
    Fenced id (handed ++ (none : Option (Nat × Nat)).toList) s' := by
  rw [Option.toList_none, append_nil]
  exact ⟨hsame.identities, hsame.filed, h.ordered, by rw [h.last, hsame.pairOf]⟩

/-- A pair is the last one or was handed out before it. -/
theorem Fenced.before (h : Fenced id handed s) {a b : Nat × Nat} (ha : a ∈ handed)
    (hb : s.pairOf id = some b) : a.1 = b.1 ∧ a.2 ≤ b.2 := by
  obtain ⟨earlier, rfl⟩ := getLast?_eq_some_iff.mp (h.last.trans hb)
  rcases mem_append.mp ha with hin | hin
  · have hlt := (pairwise_append.mp h.ordered).2.2 a hin b (mem_singleton_self b)
    exact ⟨hlt.1, hlt.2.le⟩
  · rw [mem_singleton.mp hin]
    exact ⟨rfl, le_rfl⟩

theorem bumpEpoch_of_lt (h : epoch + 1 < 2 ^ 16) : bumpEpoch epoch = epoch + 1 := by
  unfold bumpEpoch
  rw [Nat.mod_eq_of_lt h]
  rfl

/-- A new pair comes after all earlier ones. -/
theorem Fenced.handOut (h : Fenced id handed s) {r : InitProducerIdResult} (hids : Identities s')
    (hfiled : Filed s') (hout : HandsOut id s r s')
    (hwrap : ∀ pair ∈ s.pairOf id, pair.2 + 1 < 2 ^ 16) :
    Fenced id (handed ++ [(r.producerId, r.epoch)]) s' := by
  refine ⟨hids, hfiled, pairwise_append.mpr ⟨h.ordered, pairwise_singleton _ _, ?_⟩, ?_⟩
  · intro a ha b hb
    rw [mem_singleton.mp hb]
    cases hpair : s.pairOf id with
    | none =>
      have hnil : handed = [] := getLast?_eq_none_iff.mp (h.last.trans hpair)
      rw [hnil] at ha
      cases ha
    | some b =>
      obtain ⟨hpid, hle⟩ := h.before ha hpair
      obtain ⟨hpid', hepoch⟩ := hout.bumped b.1 b.2 hpair
      rw [bumpEpoch_of_lt (hwrap b hpair)] at hepoch
      exact ⟨hpid.trans hpid'.symm, by show a.2 < r.epoch; omega⟩
  · rw [getLast?_concat, hout.pair]

theorem Fenced.initProducerId (h : Fenced id handed s) (hne : id ≠ "") (id' : String)
    (enable2pc keepPrepared : Bool) (timeoutMs : Int)
    (hop : Unwrapped id s (.initProducerId id' enable2pc keepPrepared timeoutMs)) :
    let op := Op.initProducerId id' enable2pc keepPrepared timeoutMs
    Fenced id (handed ++ (s.handedOut id op).toList) (s.exec op) := by
  intro op
  have hidle : Fenced id handed s.idle := ⟨h.identities.keep (.others s), h.filed, h.ordered, h.last⟩
  obtain ⟨hids, hfiled, hothers, hout⟩ := hidle.identities.initProducerIdWithOpts hidle.filed hop.1
    id' enable2pc keepPrepared timeoutMs
  by_cases hid : id' = id
  · subst hid
    obtain ⟨hkeep, hwrap⟩ := hop.2 rfl
    rcases hout hne hkeep with ⟨herror, hpair⟩ | hhands
    · have hnone : s.handedOut id' op = none := if_neg fun hok => herror hok.2
      rw [hnone, Option.toList_none, append_nil]
      exact ⟨hids, hfiled, h.ordered, h.last.trans hpair.symm⟩
    · have hsome : s.handedOut id' op = some _ := if_pos ⟨rfl, hhands.ok⟩
      rw [hsome]
      exact hidle.handOut hids hfiled hhands hwrap
  · have hnone : s.handedOut id op = none := if_neg fun hok => hid hok.1
    rw [hnone, Option.toList_none, append_nil]
    exact ⟨hids, hfiled, h.ordered, h.last.trans (hothers id (Ne.symm hid)).symm⟩

theorem handedOut_eq_none {op : Op} (h : op.initialised = none) (id : String) :
    s.handedOut id op = none := by
  cases op with
  | initProducerId id enable2pc keepPrepared timeoutMs => cases h
  | _ => rfl

theorem Fenced.exec (h : Fenced id handed s) (hne : id ≠ "") (op : Op) (hop : Unwrapped id s op) :
    Fenced id (handed ++ (s.handedOut id op).toList) (s.exec op) := by
  rcases exec_cases h.identities.keyed op with ⟨hinit, hkeep⟩ | ⟨id', enable2pc, keepPrepared, timeoutMs, rfl⟩ |
    ⟨pid, epoch, committed, offsets, rfl⟩ | ⟨nowMs, rfl⟩
  · rw [handedOut_eq_none hinit]
    exact h.same (hkeep.same h.identities h.filed)
  · exact h.initProducerId hne id' enable2pc keepPrepared timeoutMs hop
  · have hidle : SameIds s s.idle := (KeepsIds.others s).same h.identities h.filed
    have hend := sameIds_endTxn hidle.identities hidle.filed pid epoch committed offsets
    exact h.same ⟨hend.identities, hend.filed, hend.pairOf⟩
  · exact h.same (sameIds_restart s.config nowMs s.nextSerial s.committed h.identities h.filed)

theorem Hands.fenced {config : Config} (h : Hands id config handed s) (hne : id ≠ "") :
    Fenced id handed s := by
  induction h with
  | fresh => exact ⟨identities_fresh config, ⟨rfl, fun _ => rfl⟩, List.Pairwise.nil, rfl⟩
  | exec _ op hop ih => exact ih.exec hne op hop

/-! ## Rejection -/

/-- An earlier pair names the producer of the current one, with a smaller epoch. -/
theorem Fenced.stale (h : Fenced id handed s) {pair : Nat × Nat} (hpair : pair ∈ handed.dropLast) :
    ∃ epoch, pair.2 < epoch ∧ s.identityOf pair.1 = some (epoch, id) := by
  have hnil : handed ≠ [] := by
    rintro rfl
    cases hpair
  obtain ⟨earlier, b, rfl⟩ := (eq_nil_or_concat' handed).resolve_left hnil
  have hlast : s.pairOf id = some b := h.last.symm.trans getLast?_concat
  rw [dropLast_concat] at hpair
  have hlt := (pairwise_append.mp h.ordered).2.2 pair hpair b (mem_singleton_self b)
  obtain ⟨pid, hpid, hident⟩ := Option.bind_eq_some_iff.mp hlast
  obtain ⟨epoch, hepoch, hpair'⟩ := h.identities.pairOf_eq hpid
  obtain rfl : b = (pid, epoch) := Option.some.inj (hlast.symm.trans hpair')
  exact ⟨epoch, hlt.2, hlt.1 ▸ hepoch⟩

/-- The pairs handed out for a transactional id are distinct. Once a later pair is out, every
transactional call with an earlier one is rejected, and leaves the state that the expiry of
timed-out transactions leaves: the state it found if nothing has timed out. -/
theorem earlier_pair_fenced {id : String} {config : Config} {handed : List (Nat × Nat)}
    (h : Hands id config handed s) (hne : id ≠ "") : handed.Nodup ∧ ∀ pair ∈ handed.dropLast,
      s.beginTxn pair.1 pair.2 = (.invalidProducerEpoch, s.expireTimedOutTxns) ∧
      (∀ tp baseSequence messages, ∃ code,
        s.bufferTxnProduce pair.1 pair.2 tp baseSequence messages =
          (.reject code, s.expireTimedOutTxns)) ∧
      (∀ offsets, s.bufferTxnOffsets pair.1 pair.2 offsets =
        (.invalidProducerEpoch, s.expireTimedOutTxns)) ∧
      (∀ committed offsets, s.endTxn pair.1 pair.2 committed offsets =
        (.invalidProducerEpoch, [], s.expireTimedOutTxns)) ∧
      (s.expiredOpenTxns = [] → s.expiredPreparedTxns = [] → s.expireTimedOutTxns = s) := by
  have hfenced := h.fenced hne
  refine ⟨hfenced.ordered.imp fun hlt heq => hlt.2.ne (congrArg Prod.snd heq), ?_⟩
  rintro ⟨pid, epoch⟩ hpair
  obtain ⟨epoch', hlt, hident⟩ := hfenced.stale hpair
  rw [← (keepsIds_expireTimedOutTxns s).identities] at hident
  obtain ⟨prod, hprod, heq⟩ := Option.map_eq_some_iff.mp hident
  have hepoch : prod.epoch ≠ epoch := by
    rw [show prod.epoch = epoch' from congrArg Prod.fst heq]
    exact hlt.ne'
  have hcheck : s.expireTimedOutTxns.checkTxnProducer pid epoch = .error .invalidProducerEpoch := by
    simp [checkTxnProducer, hprod, hepoch]
  refine ⟨by simp [beginTxn, hcheck], fun tp baseSequence messages => ?_,
    fun offsets => by simp [bufferTxnOffsets, hcheck],
    fun committed offsets => by simp [endTxn, hprod, hepoch], expireTimedOutTxns_of_nil⟩
  unfold bufferTxnProduce
  simp only [hcheck]
  split_ifs
  · exact ⟨_, rfl⟩
  · exact ⟨_, rfl⟩

def inits : Op := .initProducerId "a" false false 0

/-- The zombie is turned away after a restart, too. -/
theorem fenced_after_restart :
    let s := (fresh oneSecond).serve [inits, inits, .restart 1]
    (s.beginTxn 1 0).1 = .invalidProducerEpoch ∧ (s.endTxn 1 0 true []).1 = .invalidProducerEpoch ∧
      (s.beginTxn 1 1).1 = .ok := by
  intro s
  have hhands : Hands "a" oneSecond _ s :=
    ((Hands.fresh.exec inits (by decide +kernel)).exec inits (by decide +kernel)).exec (.restart 1)
      (by decide +kernel)
  obtain ⟨hbegin, -, -, hend, -⟩ := (earlier_pair_fenced hhands (by decide)).2 (1, 0)
    (by decide +kernel)
  exact ⟨congrArg Prod.fst hbegin, congrArg Prod.fst (hend true []), by decide +kernel⟩

/-! ## Wrapping epochs, and a zombie's call that changes the log -/

/-- Producer 1 is that of `"a"`, and no transaction is running. -/
structure Idles (epoch : Nat) (s : State) : Prop where
  owner : s.transactionalIds.lookup "a" = some 1
  identity : s.identityOf 1 = some (epoch, "a")
  openTxns : s.openTxns = ∅
  preparedTxns : s.preparedTxns = ∅

theorem Idles.inits (h : Idles epoch s) : s.handedOut "a" inits = some (1, bumpEpoch epoch) ∧
      Idles (bumpEpoch epoch) (s.exec inits) := by
  obtain ⟨prod, hprod, heq⟩ := Option.map_eq_some_iff.mp h.identity
  obtain rfl : prod.epoch = epoch := congrArg Prod.fst heq
  have hexpire : s.idle.expireTimedOutTxns = s.idle :=
    expireTimedOutTxns_of_nil (by simp [expiredOpenTxns, idle, h.openTxns])
      (by simp [expiredPreparedTxns, idle, h.preparedTxns])
  have hdrop : s.idle.dropPreparedTxn "a" = s.idle := by
    simp [dropPreparedTxn, idle, h.preparedTxns]
  have hinit : s.idle.initProducerIdWithOpts "a" false false 0 =
      s.idle.fenceOrAllocate "a" false 0 := by
    simp [initProducerIdWithOpts, hexpire, hdrop]
  refine ⟨?_, ?_⟩
  · simp only [handedOut, inits, hinit]
    simp [fenceOrAllocate, idle, h.owner, hprod]
  · simp only [exec, inits, hinit]
    constructor <;>
      simp [fenceOrAllocate, idle, h.owner, hprod, fenceOpenTxn, h.openTxns, clearTxnAbortable,
        persistProducerState, durable, identityOf, Producer.identity, h.preparedTxns]

theorem inits_epoch (n : Nat) (hn : n < 2 ^ 16) :
    Idles n ((fresh oneSecond).serve (replicate (n + 1) inits)) := by
  induction n with
  | zero => exact ⟨rfl, rfl, rfl, rfl⟩
  | succ n ih =>
    have hstep := (ih (by omega)).inits.2
    rw [bumpEpoch_of_lt hn] at hstep
    rw [replicate_succ', serve, foldl_concat]
    exact hstep

/-- `"a"` is initialised twice, and a transaction of `"b"` times out. -/
def fencedThenOverdue : List Op :=
  [.clock 1, .createPartition orders, inits, inits, .initProducerId "b" false false 0,
    .beginTxn 2 0, .bufferTxnProduce 2 0 orders 0 [order 7], .clock 5000]

/-- A zombie's call is rejected, and on the way the overdue transaction of another producer is
aborted. The pair of the second InitProducerId is handed out again by number 65537. -/
theorem zombie_changes_log :
    let s := (fresh oneSecond).serve fencedThenOverdue
    s.handedOut "a" inits = some (1, 2) ∧ (s.beginTxn 1 0).1 = .invalidProducerEpoch ∧
      (s.partitions orders).map (·.log.length) = some 1 ∧
      ((s.beginTxn 1 0).2.partitions orders).map (·.log.length) = some 2 ∧
      s.openTxns.keys = [2] ∧ (s.beginTxn 1 0).2.openTxns.keys = [] ∧
      ((fresh oneSecond).serve [inits]).handedOut "a" inits = some (1, 1) ∧
      ((fresh oneSecond).serve (List.replicate 65536 inits)).handedOut "a" inits = some (1, 1) := by
  refine ⟨by decide +kernel, by decide +kernel, by decide +kernel, by decide +kernel,
    by decide +kernel, by decide +kernel, by decide +kernel, ?_⟩
  exact (inits_epoch 65535 (by norm_num)).inits.1

end Volant.Broker.State
