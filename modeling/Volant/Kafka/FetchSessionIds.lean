-- SUMMARY: The ids of new fetch sessions, and when one is already in the table.
import Mathlib
import Volant.Base.Assoc
import Volant.Kafka.FetchSession

/-!
# Ids of fetch sessions

A new session gets the next number of a counter, on a broker of a cluster behind
the id of the broker. The counter wraps, starts over with the process and is
reloaded from a file, and `alloc_id` does not look at the table.
-/

namespace Volant.Kafka

def SESSION_OWNER_SHIFT : Nat := 19
def SESSION_LOCAL_MASK : Nat := 2 ^ 19 - 1
def SESSION_OWNER_MASK : Nat := 0xFFF

def encodeSessionId (ownerNodeId n : Nat) : Nat :=
  (ownerNodeId &&& SESSION_OWNER_MASK) <<< SESSION_OWNER_SHIFT ||| (n &&& SESSION_LOCAL_MASK)

def decodeSessionOwner (id : Int) : Option Nat :=
  let owner := id.toNat >>> SESSION_OWNER_SHIFT
  if id ≤ 0 ∨ owner = 0 then none else some owner

def sessionLocalPart (id : Int) : Int :=
  if (decodeSessionOwner id).isSome then id.toNat &&& SESSION_LOCAL_MASK else id

theorem encodeSessionId_eq {owner n : Nat} (hn : n < 2 ^ 19) :
    encodeSessionId owner n = owner % 2 ^ 12 * 2 ^ 19 + n := by
  have howner : owner &&& SESSION_OWNER_MASK = owner % 2 ^ 12 :=
    Nat.and_two_pow_sub_one_eq_mod owner 12
  have hlocal : n &&& SESSION_LOCAL_MASK = n % 2 ^ 19 := Nat.and_two_pow_sub_one_eq_mod n 19
  rw [encodeSessionId, howner, hlocal, Nat.mod_eq_of_lt hn, SESSION_OWNER_SHIFT,
    ← Nat.shiftLeft_add_eq_or_of_lt hn, Nat.shiftLeft_eq]

theorem decodeSessionOwner_eq_some {id : Int} {owner : Nat} (howner : owner ≠ 0) :
    decodeSessionOwner id = some owner ↔ id / 2 ^ 19 = owner := by
  rw [decodeSessionOwner, SESSION_OWNER_SHIFT, Nat.shiftRight_eq_div_pow]
  split_ifs with h
  · exact iff_of_false nofun (by omega)
  · rw [Option.some_inj]
    omega

/-- The id of an owner and a number decodes to both. -/
theorem decode_encodeSessionId {owner n : Nat} (h₀ : owner ≠ 0) (howner : owner < 2 ^ 12)
    (hn : n < 2 ^ 19) : decodeSessionOwner (encodeSessionId owner n) = some owner ∧
      sessionLocalPart (encodeSessionId owner n) = n := by
  have heq := @encodeSessionId_eq owner n hn
  rw [Nat.mod_eq_of_lt howner] at heq
  have hdecode : decodeSessionOwner (encodeSessionId owner n) = some owner := by
    rw [decodeSessionOwner_eq_some h₀, heq]
    omega
  refine ⟨hdecode, ?_⟩
  have hlocal : encodeSessionId owner n &&& SESSION_LOCAL_MASK = encodeSessionId owner n % 2 ^ 19 :=
    Nat.and_two_pow_sub_one_eq_mod _ 19
  rw [sessionLocalPart, hdecode, Option.isSome_some, if_pos rfl, Int.toNat_natCast, hlocal, heq]
  omega

namespace FetchSessionManager

variable {T : Type} (m : FetchSessionManager T)

/-! ## The table -/

/-- More than the idle timeout ago, in the arithmetic of an `i64`. -/
def isIdle (s : FetchSession T) (now : Int) : Bool :=
  let age := max (-2 ^ 63) (min (2 ^ 63 - 1) (now - s.lastActivityMs))
  m.idleTimeoutMs ≠ 0 ∧ Int.bmod m.idleTimeoutMs (2 ^ 64) < age

def evictIdle (now : Int) : FetchSessionManager T :=
  { m with sessions := Assoc.retain (fun _ s => !m.isIdle s now) m.sessions }

/-- The session that was used the longest ago goes, and of several the one with the lowest id. -/
def evictLruIfFull : FetchSessionManager T :=
  letI := (Prod.Lex.instLinearOrder Int Int).toPreorder
  let victim := m.sessions.entries.argmin fun e => toLex (e.2.lastActivityMs, e.1)
  { m with sessions :=
      if m.maxSessions = 0 ∨ m.sessions.entries.length < m.maxSessions then m.sessions
      else (victim.map fun e => m.sessions.erase e.1).getD m.sessions }

/-- The number that is next: the counter is set back to `1` when it is out of range. -/
def nextLocal : Nat :=
  if 0 < m.nextId ∧ (m.ownerNodeId = 0 ∨ m.nextId ≤ SESSION_LOCAL_MASK) then m.nextId.toNat else 1

def allocId : FetchSessionManager T × Int :=
  ({ m with nextId := Int.bmod (m.nextLocal + 1) (2 ^ 32) },
    if m.ownerNodeId = 0 then m.nextLocal else encodeSessionId m.ownerNodeId m.nextLocal)

/-- What `createAt` makes room in. -/
def evicted (now : Int) : FetchSessionManager T := (m.evictIdle now).evictLruIfFull

def createAt (topics : String → Option T) (now : Int) : FetchSessionManager T × Int :=
  let (m, id) := (m.evicted now).allocId
  ({ m with sessions := m.sessions.insert id ⟨1, topics, now, 1, 0⟩ }, id)

def close (id : Int) : FetchSessionManager T :=
  if id = 0 then m
  else if id ∈ m.sessions then { m with sessions := m.sessions.erase id }
  else { m with mirrors := m.mirrors.erase id }

def promoteFromMirror (id : Int) : FetchSessionManager T :=
  let dropped := { m with mirrors := m.mirrors.erase id }
  match m.mirrors.lookup id with
  | none => dropped
  | some mirror =>
    if (m.sessions.lookup id).all (sessionClaimWins mirror) then
      let claim := if mirror.promotedBy = 0 then m.ownerNodeId else mirror.promotedBy
      { dropped with sessions := m.sessions.insert id { mirror with promotedBy := claim } }
    else dropped

/-- The sessions of a file, and whether their topics can be read. -/
abbrev SessionFile (T : Type) := List (StoredFetchSession T × Bool)

/-- `load_from_disk_at`: the sessions of the file that are not idle and whose topics can be read. -/
def loadSessions (file : SessionFile T) (now : Int) : AList fun _ : Int => FetchSession T :=
  file.foldl (fun loaded (s, readable) =>
    if s.id ≤ 0 ∨ m.isIdle s.toFetchSession now ∨ ¬ readable then loaded
    else loaded.insert s.id s.toFetchSession) ∅

/-- The largest number of a session in the file. -/
def maxLocal (file : SessionFile T) : Int :=
  file.foldl (fun n (s, _) => if s.id ≤ 0 then n else max n (sessionLocalPart s.id)) 0

def loadNextId (file : SessionFile T) (fileNextId : Int) : Int :=
  let behind := min (maxLocal file + 1) (2 ^ 31 - 1)
  let next := max (max (sessionLocalPart fileNextId) 1) behind
  if m.ownerNodeId = 0 ∨ next ≤ SESSION_LOCAL_MASK then next
  else if behind ≤ SESSION_LOCAL_MASK then behind else 1

/-! ## New ids -/

def withLimitsAndOwner (idleTimeoutMs maxSessions ownerNodeId : Nat) : FetchSessionManager T :=
  ⟨∅, ∅, 1, idleTimeoutMs, maxSessions, ownerNodeId, true, true⟩

inductive Op (T : Type) where
  | create (topics : String → Option T) (now : Int)
  | close (id : Int)
  | evictIdle (now : Int)
  | promoteFromMirror (id : Int)
  | mirrorPut (stored : StoredFetchSession T)
  | mirrorDelete (id : Int)
  /-- A new process reads the files of sessions and of mirrors. -/
  | reload (file mirrorFile : SessionFile T) (fileNextId now : Int)

def exec : Op T → FetchSessionManager T
  | .create topics now => (m.createAt topics now).1
  | .close id => m.close id
  | .evictIdle now => m.evictIdle now
  | .promoteFromMirror id => m.promoteFromMirror id
  | .mirrorPut stored => m.deliver (some stored)
  | .mirrorDelete id => { m with mirrors := m.mirrors.erase id }
  | .reload file mirrorFile fileNextId now =>
    { m with sessions := m.loadSessions file now
             mirrors := m.loadSessions mirrorFile now
             nextId := m.loadNextId file fileNextId }

/-- The id of a new session is of this broker, and nothing in the table has it. -/
def CreatesFresh (now : Int) : Prop :=
  ∀ topics id, (m.createAt topics now).2 = id →
    0 < id ∧ id ∉ m.sessions ∧ id ∉ m.mirrors ∧
      (m.ownerNodeId ≠ 0 → decodeSessionOwner id = some m.ownerNodeId)

/-- An id that is not one of this broker's, or that the counter has passed. -/
def Behind (id : Int) : Prop :=
  if m.ownerNodeId = 0 then id < m.nextId
  else decodeSessionOwner id = some m.ownerNodeId → sessionLocalPart id < m.nextId

/-- The sessions of a file whose numbers leave one for the counter. -/
def InRange (file : SessionFile T) : Prop :=
  ∀ e ∈ file, if m.ownerNodeId = 0 then e.1.id < 2 ^ 19
    else sessionLocalPart e.1.id < SESSION_LOCAL_MASK

/-- The counter has not come to its end. -/
def HasNext : Prop :=
  if m.ownerNodeId = 0 then m.nextId < 2 ^ 31 - 1 else m.nextId ≤ SESSION_LOCAL_MASK

/-- A session is created while the counter has a next number. A mirror, put or reloaded, is of
another broker, or of a session whose number the counter has passed. -/
def Safe : Op T → Prop
  | .create _ _ => m.HasNext
  | .mirrorPut stored => m.Behind stored.id
  | .reload file mirrorFile fileNextId _ => m.InRange file ∧
      ∀ e ∈ mirrorFile, { m with nextId := m.loadNextId file fileNextId }.Behind e.1.id
  | _ => True

def SafeRun : FetchSessionManager T → List (Op T) → Prop
  | _, [] => True
  | m, op :: ops => m.Safe op ∧ SafeRun (m.exec op) ops

/-- The ids of this broker lie behind the counter. -/
structure Inv (m : FetchSessionManager T) : Prop where
  fits : m.ownerNodeId < 2 ^ 12
  counter : 0 < m.nextId
  behind : ∀ id, id ∈ m.sessions ∨ id ∈ m.mirrors → m.Behind id

variable {m} {m' : FetchSessionManager T} {id : Int}

theorem Behind.congr (howner : m'.ownerNodeId = m.ownerNodeId) (hle : m.nextId ≤ m'.nextId)
    (h : m.Behind id) : m'.Behind id := by
  unfold Behind at h ⊢
  rw [howner]
  split_ifs at h ⊢
  · omega
  · exact fun hown => (h hown).trans_le hle

/-- The counter stays, and new ids in the table are ones that it has passed. -/
structure Keeps (m m' : FetchSessionManager T) : Prop where
  owner : m'.ownerNodeId = m.ownerNodeId
  nextId : m'.nextId = m.nextId
  table : ∀ id, id ∈ m'.sessions ∨ id ∈ m'.mirrors →
    (id ∈ m.sessions ∨ id ∈ m.mirrors) ∨ m.Behind id

theorem Inv.of_keeps (h : Inv m) (hkeeps : Keeps m m') : Inv m' := by
  refine ⟨hkeeps.owner ▸ h.fits, hkeeps.nextId ▸ h.counter, fun id hid => ?_⟩
  have hbehind : m.Behind id := (hkeeps.table id hid).elim (h.behind id) fun h => h
  exact hbehind.congr hkeeps.owner hkeeps.nextId.ge

theorem mem_of_mem_evictIdle {now : Int} (h : id ∈ (m.evictIdle now).sessions) :
    id ∈ m.sessions := by
  rw [← AList.lookup_isSome, evictIdle, Assoc.lookup_retain] at h
  exact AList.lookup_isSome.mp (Option.isSome_of_isSome_filter _ _ h)

theorem mem_of_mem_evicted {now : Int} (h : id ∈ (m.evicted now).sessions) : id ∈ m.sessions := by
  refine @mem_of_mem_evictIdle T m id now ?_
  simp only [evicted, evictLruIfFull] at h
  split_ifs at h
  · exact h
  · have herase (victim : Option (Sigma fun _ : Int => FetchSession T))
        (sessions : AList fun _ : Int => FetchSession T)
        (h : id ∈ (victim.map fun e => sessions.erase e.1).getD sessions) : id ∈ sessions := by
      cases victim with
      | none => exact h
      | some e => exact (AList.mem_erase.mp h).2
    exact herase _ _ h

theorem keeps_close (key : Int) : Keeps m (m.close key) := by
  unfold close
  split_ifs <;> refine ⟨rfl, rfl, fun id hid => .inl ?_⟩
  · exact hid
  · exact hid.imp_left fun h => (AList.mem_erase.mp h).2
  · exact hid.imp_right fun h => (AList.mem_erase.mp h).2

theorem keeps_promoteFromMirror (key : Int) : Keeps m (m.promoteFromMirror key) := by
  have hdrop (id : Int) (hid : id ∈ m.sessions ∨ id ∈ m.mirrors.erase key) :
      id ∈ m.sessions ∨ id ∈ m.mirrors := hid.imp_right fun h => (AList.mem_erase.mp h).2
  unfold promoteFromMirror
  dsimp only
  split
  · exact ⟨rfl, rfl, fun id hid => .inl (hdrop id hid)⟩
  · rename_i mirror hmirror
    split
    · refine ⟨rfl, rfl, fun id hid => .inl ?_⟩
      rcases hid with hid | hid
      · rcases (AList.mem_insert _).mp hid with rfl | hid
        · exact .inr (AList.lookup_isSome.mp (hmirror ▸ rfl))
        · exact .inl hid
      · exact hdrop id (.inr hid)
    · exact ⟨rfl, rfl, fun id hid => .inl (hdrop id hid)⟩

/-- A put adds no id but its own. -/
theorem keeps_deliver {stored : StoredFetchSession T} (hbehind : m.Behind stored.id) :
    Keeps m (m.deliver (some stored)) := by
  have hrefl : Keeps m m := ⟨rfl, rfl, fun _ hid => .inl hid⟩
  have hmove {sessions mirrors : AList fun _ : Int => FetchSession T}
      (h : ∀ id, id ∈ sessions ∨ id ∈ mirrors →
        id = stored.id ∨ id ∈ m.sessions ∨ id ∈ m.mirrors) : Keeps m { m with sessions, mirrors } :=
    ⟨rfl, rfl, fun id hid => (h id hid).symm.imp_right fun heq : id = stored.id => heq ▸ hbehind⟩
  simp only [deliver, Option.bind_some, applyMirrorPut]
  repeat' split
  all_goals first
    | exact hrefl
    | refine hmove fun id hid => ?_
      simp only [AList.mem_insert, AList.mem_erase] at hid
      tauto

/-- While there is a next number, it is the counter, which goes up by one. -/
theorem allocId_eq (hcounter : 0 < m.nextId) (hnext : m.HasNext) :
    m.allocId = ({ m with nextId := m.nextId + 1 },
      if m.ownerNodeId = 0 then m.nextId
      else encodeSessionId m.ownerNodeId m.nextId.toNat) := by
  rw [HasNext, SESSION_LOCAL_MASK] at hnext
  have hlocal : (m.nextLocal : Int) = m.nextId := by
    unfold nextLocal SESSION_LOCAL_MASK
    split_ifs at hnext ⊢ <;> omega
  have hnat : m.nextLocal = m.nextId.toNat := by omega
  have hlt : m.nextId < 2 ^ 31 - 1 := by
    split_ifs at hnext <;> omega
  have hstep : Int.bmod (m.nextId + 1) (2 ^ 32) = m.nextId + 1 :=
    Int.bmod_eq_of_le (by omega) (by omega)
  unfold allocId
  rw [hlocal, hstep, hnat]

/-- The new id is one of this broker's, and the next one that the counter passes. -/
theorem allocId_spec (h : Inv m) (hnext : m.HasNext) :
    0 < m.allocId.2 ∧ ¬ m.Behind m.allocId.2 ∧
      { m with nextId := m.nextId + 1 }.Behind m.allocId.2 ∧
      (m.ownerNodeId ≠ 0 → decodeSessionOwner m.allocId.2 = some m.ownerNodeId) := by
  have hcounter := h.counter
  rw [allocId_eq hcounter hnext]
  unfold Behind
  by_cases hzero : m.ownerNodeId = 0
  · simp only [if_pos hzero]
    exact ⟨hcounter, by omega, by omega, fun h => absurd hzero h⟩
  · have hlt : m.nextId.toNat < 2 ^ 19 := by
      rw [HasNext, if_neg hzero, SESSION_LOCAL_MASK] at hnext
      omega
    obtain ⟨hdecode, hlocal⟩ := decode_encodeSessionId hzero h.fits hlt
    have hpos : 0 < encodeSessionId m.ownerNodeId m.nextId.toNat := by
      rw [encodeSessionId_eq hlt]
      omega
    simp only [if_neg hzero, hdecode, hlocal, forall_const]
    exact ⟨Int.natCast_pos.mpr hpos, by omega, by omega, fun _ => trivial⟩

/-- What is in the table lies behind the counter, and the new id does not. -/
theorem Inv.createsFresh (h : Inv m) (hnext : m.HasNext) (now : Int) : m.CreatesFresh now := by
  rintro topics id rfl
  obtain ⟨hpos, hnew, -, howner⟩ := allocId_spec h hnext
  exact ⟨hpos, fun hid => hnew (h.behind _ (.inl hid)), fun hid => hnew (h.behind _ (.inr hid)),
    howner⟩

theorem Inv.create (h : Inv m) (hnext : m.HasNext) (topics : String → Option T) (now : Int) :
    Inv (m.exec (.create topics now)) := by
  have hcounter := h.counter
  have hexec : m.exec (.create topics now) = { m with
      nextId := m.nextId + 1
      sessions := (m.evicted now).sessions.insert m.allocId.2 ⟨1, topics, now, 1, 0⟩ } := by
    have heq := allocId_eq (m := m.evicted now) hcounter hnext
    simp only [exec, createAt, heq]
    rw [allocId_eq hcounter hnext]
    rfl
  obtain ⟨-, -, hbehind, -⟩ := allocId_spec h hnext
  rw [hexec]
  refine ⟨h.fits, Int.add_pos hcounter Int.one_pos, fun id hid => ?_⟩
  have hle : m.nextId ≤ m.nextId + 1 := by omega
  have hold (hid : id ∈ m.sessions ∨ id ∈ m.mirrors) :
      { m with nextId := m.nextId + 1 }.Behind id := Behind.congr (m := m) rfl hle (h.behind id hid)
  rcases hid with hid | hid
  · rcases (AList.mem_insert _).mp hid with rfl | hid
    · exact hbehind
    · exact hold (.inl (mem_of_mem_evicted hid))
  · exact hold (.inr hid)

/-! ## Reloads -/

theorem mem_loadSessions {file : SessionFile T} {now : Int}
    (h : id ∈ m.loadSessions file now) : ∃ e ∈ file, e.1.id = id ∧ 0 < id := by
  unfold loadSessions at h
  induction file using List.reverseRecOn with
  | nil => cases h
  | append_singleton file e ih =>
    rw [List.foldl_append] at h
    simp only [List.foldl_cons, List.foldl_nil] at h
    have hold (h : id ∈ List.foldl _ ∅ file) : ∃ e' ∈ file ++ [e], e'.1.id = id ∧ 0 < id :=
      (ih h).imp fun _ he => ⟨List.mem_append_left _ he.1, he.2⟩
    split_ifs at h with hskip
    · exact hold h
    · rcases (AList.mem_insert _).mp h with rfl | h
      · exact ⟨e, by simp, rfl, by omega⟩
      · exact hold h

theorem maxLocal_spec {file : SessionFile T} :
    0 ≤ maxLocal file ∧ (∀ e ∈ file, 0 < e.1.id → sessionLocalPart e.1.id ≤ maxLocal file) ∧
      ∀ k, 0 < k → (∀ e ∈ file, sessionLocalPart e.1.id < k) → maxLocal file < k := by
  unfold maxLocal
  induction file using List.reverseRecOn with
  | nil => exact ⟨le_rfl, nofun, fun k hk _ => hk⟩
  | append_singleton file e ih =>
    obtain ⟨hpos, hmem, hlt⟩ := ih
    simp only [List.foldl_append, List.foldl_cons, List.foldl_nil, List.forall_mem_append,
      List.forall_mem_singleton]
    split_ifs with hid
    · exact ⟨hpos, ⟨hmem, by omega⟩, fun k hk hfile => hlt k hk hfile.1⟩
    · exact ⟨le_max_of_le_left hpos, ⟨fun e' he' h => le_max_of_le_left (hmem e' he' h),
        fun _ => le_max_right _ _⟩, fun k hk hfile => max_lt (hlt k hk hfile.1) hfile.2⟩

theorem sessionLocalPart_of_lt (h : id < 2 ^ 19) : sessionLocalPart id = id := by
  have hdecode : decodeSessionOwner id = none := by
    rw [decodeSessionOwner, SESSION_OWNER_SHIFT, Nat.shiftRight_eq_div_pow]
    exact if_pos (by omega)
  simp [sessionLocalPart, hdecode]

/-- The counter is put behind the numbers of all sessions of the file. -/
theorem maxLocal_lt_loadNextId {file : SessionFile T} (fileNextId : Int)
    (hrange : m.InRange file) : maxLocal file < m.loadNextId file fileNextId := by
  obtain ⟨-, -, hlt⟩ := @maxLocal_spec T file
  unfold loadNextId
  dsimp only
  rw [SESSION_LOCAL_MASK]
  by_cases hzero : m.ownerNodeId = 0
  · have hbound : maxLocal file < 2 ^ 19 := hlt _ (by norm_num) fun e he => by
      have hid := hrange e he
      rw [if_pos hzero] at hid
      rwa [sessionLocalPart_of_lt hid]
    rw [if_pos (.inl hzero)]
    omega
  · have hbound : maxLocal file < 2 ^ 19 - 1 := hlt _ (by norm_num) fun e he => by
      have hid := hrange e he
      rwa [if_neg hzero] at hid
    split_ifs <;> omega

theorem Inv.reload (h : Inv m) {file mirrorFile : SessionFile T}
    {fileNextId now : Int} (hsafe : m.Safe (.reload file mirrorFile fileNextId now)) :
    Inv (m.exec (.reload file mirrorFile fileNextId now)) := by
  obtain ⟨hrange, hmirrors⟩ := hsafe
  have hnext := maxLocal_lt_loadNextId fileNextId hrange
  obtain ⟨hzero, hmax, -⟩ := @maxLocal_spec T file
  refine ⟨h.fits, hzero.trans_lt hnext, fun id hid => ?_⟩
  rcases hid with hid | hid
  · obtain ⟨e, he, rfl, hpos⟩ := mem_loadSessions hid
    have hlt : sessionLocalPart e.1.id < m.loadNextId file fileNextId :=
      (hmax e he hpos).trans_lt hnext
    have hbehind : { m with nextId := m.loadNextId file fileNextId }.Behind e.1.id := by
      have hfile := hrange e he
      unfold Behind
      split_ifs at hfile ⊢
      · rwa [sessionLocalPart_of_lt hfile] at hlt
      · exact fun _ => hlt
    exact hbehind
  · obtain ⟨e, he, rfl, -⟩ := mem_loadSessions hid
    exact hmirrors e he

/-- One operation keeps the ids of this broker behind the counter. -/
theorem Inv.exec (h : Inv m) {op : Op T} (hsafe : m.Safe op) : Inv (m.exec op) := by
  cases op with
  | create topics now => exact h.create hsafe topics now
  | close key => exact h.of_keeps (keeps_close key)
  | evictIdle now =>
    exact h.of_keeps ⟨rfl, rfl, fun _ hid => .inl (hid.imp_left mem_of_mem_evictIdle)⟩
  | promoteFromMirror key => exact h.of_keeps (keeps_promoteFromMirror key)
  | mirrorPut stored => exact h.of_keeps (keeps_deliver hsafe)
  | mirrorDelete key =>
    exact h.of_keeps ⟨rfl, rfl, fun _ hid => .inl (hid.imp_right fun h => (AList.mem_erase.mp h).2)⟩
  | reload file mirrorFile fileNextId now => exact h.reload hsafe

theorem Inv.run {ops : List (Op T)} (h : Inv m) (hsafe : m.SafeRun ops) :
    Inv (ops.foldl FetchSessionManager.exec m) := by
  induction ops generalizing m with
  | nil => exact h
  | cons op ops ih => exact ih (h.exec hsafe.1) hsafe.2

/-- Every id that is given out after a safe run is new, and of this broker. -/
theorem created_ids_fresh (idleTimeoutMs maxSessions : Nat) {owner : Nat} (howner : owner < 2 ^ 12)
    {ops : List (Op T)} (hsafe : (withLimitsAndOwner idleTimeoutMs maxSessions owner).SafeRun ops)
    (hnext : (ops.foldl exec (withLimitsAndOwner idleTimeoutMs maxSessions owner)).HasNext)
    (now : Int) :
    (ops.foldl exec (withLimitsAndOwner idleTimeoutMs maxSessions owner)).CreatesFresh now := by
  have hopened : Inv (withLimitsAndOwner idleTimeoutMs maxSessions owner : FetchSessionManager T) :=
    ⟨howner, Int.one_pos, fun id hid => by cases hid <;> rename_i h <;> cases h⟩
  exact (hopened.run hsafe).createsFresh hnext now

/-- A broker creates a session, gets the mirrors of that one and of a session of broker 2, and is
restarted with its file. -/
def restartedRun : List (Op Unit) :=
  [.create (fun _ => none) 0, .mirrorPut ⟨⟨1, fun _ => none, 0, 1, 0⟩, 524289, true, false, []⟩,
    .mirrorPut ⟨⟨1, fun _ => none, 0, 1, 0⟩, 1048577, true, false, []⟩,
    .reload [(⟨⟨1, fun _ => none, 0, 1, 0⟩, 524289, false, false, []⟩, true)] [] 2 0]

theorem created_ids_fresh_restarted : (restartedRun.foldl exec
    (withLimitsAndOwner 60000 1000 1 : FetchSessionManager Unit)).CreatesFresh 0 := by
  have hsafe : (withLimitsAndOwner 60000 1000 1).SafeRun restartedRun := by
    simp only [restartedRun, SafeRun, Safe, HasNext, Behind, InRange]
    decide +kernel
  have hnext : (restartedRun.foldl exec (withLimitsAndOwner 60000 1000 1)).HasNext := by
    unfold HasNext
    decide +kernel
  exact created_ids_fresh 60000 1000 (by decide) hsafe hnext 0

/-- A broker that has started over gets back the mirror of a session of its own, promotes it, and
creates a session over it. -/
theorem promoted_session_overwritten :
    let m := [.mirrorPut ⟨⟨4, fun _ => none, 0, 3, 0⟩, 524289, true, false, []⟩,
      .promoteFromMirror 524289].foldl exec
        (withLimitsAndOwner 60000 1000 1 : FetchSessionManager Unit)
    (m.createAt (fun _ => none) 0).2 = 524289 ∧ 524289 ∈ (m.evicted 0).sessions := by
  decide +kernel

end FetchSessionManager
end Volant.Kafka
