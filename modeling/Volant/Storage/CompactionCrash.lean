-- SUMMARY: Compaction as its sequence of file operations: which crash points and which failing operations lose records.
import Volant.Storage.Compaction
import Volant.Storage.WritePath

/-!
# Compaction and crashes

Compaction writes the survivors to a temporary directory, deletes the sealed
segments one by one and renames the new files into their place. `compactOps` is
that sequence; a crash leaves the files as a number of its operations have made
them, and the next open finds what it finds. Between the first deletion and the
rename of the log file the sealed records are in the temporary directory only,
and an open does not look there.
-/

namespace Volant.Storage

open Exec List

namespace PartitionLog

/-! ## File operations -/

inductive FileOp where
  /-- `fs::remove_dir_all` of the temporary directory, if it exists. -/
  | removeTemp (base : Nat)
  /-- The temporary log file now holds these bytes. -/
  | writeTemp (base : Nat) (file : Bytes)
  | createTempIndex (base : Nat)
  | deleteLog (p : Path)
  | deleteIndex (p : Path)
  | renameLog (base : Nat)
  | renameIndex (base : Nat)
deriving DecidableEq, Repr

def FileOp.apply : FileOp → Host → Host
  | .removeTemp base, h => { h with
      logs := h.logs.erase ⟨.compact base, base⟩
      indexes := h.indexes.erase ⟨.compact base, base⟩ }
  | .writeTemp base file, h => h.putLog ⟨.compact base, base⟩ file
  | .createTempIndex base, h => { h with indexes := ⟨.compact base, base⟩ :: h.indexes }
  | .deleteLog p, h => { h with logs := h.logs.erase p }
  | .deleteIndex p, h => { h with indexes := h.indexes.erase p }
  | .renameLog base, h =>
    match h.logs.lookup ⟨.compact base, base⟩ with
    | none => h
    | some file => { h with
        logs := (h.logs.erase ⟨.compact base, base⟩).insert ⟨.data, base⟩ file }
  | .renameIndex base, h => { h with
      indexes := ⟨.data, base⟩ ::
        (h.indexes.erase ⟨.compact base, base⟩).erase ⟨.data, base⟩ }

def applyAll (ops : List FileOp) (h : Host) : Host := ops.foldl (fun h op => op.apply h) h

/-- The temporary segment, filled record by record. -/
def buildOps (crc : Bytes → UInt32) (base : Nat) (created : Int64) (kept : List Record) :
    List FileOp :=
  [.removeTemp base, .writeTemp base [], .writeTemp base (encodeHeader base created),
    .createTempIndex base] ++
  (List.range kept.length).map fun i =>
    .writeTemp base (segmentBytes crc base created (kept.take (i + 1)))

/-- `delete_files` of each sealed segment. -/
def deleteOps (sealedSegs : List Segment) : List FileOp :=
  sealedSegs.flatMap fun g => [.deleteLog g.path, .deleteIndex g.path]

def renameOps (base : Nat) : List FileOp := [.renameLog base, .renameIndex base, .removeTemp base]

variable (P : Platform) (s : LogState) (created : Int64)

/-- The file operations of a compaction, with the timestamp the new segment gets. -/
def compactOps : List FileOp :=
  match readSealed P s.host s.log.segments.dropLast with
  | .error _ => []
  | .ok input =>
    if idle s.log.segments.dropLast input then []
    else
      buildOps P.crc s.log.logStartOffset created (survivors input) ++
        (deleteOps s.log.segments.dropLast ++ renameOps s.log.logStartOffset)

/-- The files after a crash behind the first `k` operations. -/
def crashed (k : Nat) : Host :=
  applyAll ((compactOps P s created).take k) s.host

/-- The first sealed segment is gone, and the compacted one is not in its place. -/
def Exposed (k : Nat) : Prop :=
  .deleteLog ⟨.data, s.log.logStartOffset⟩ ∈ (compactOps P s created).take k ∧
    .renameLog s.log.logStartOffset ∉ (compactOps P s created).take k

instance (P : Platform) (s : LogState) (created : Int64) (k : Nat) :
    Decidable (Exposed P s created k) := inferInstanceAs (Decidable (_ ∧ _))

/-- The log object takes the sealed segments out of its list right before it deletes the first. -/
def Drained (k : Nat) : Prop :=
  .deleteLog ⟨.data, s.log.logStartOffset⟩ ∈ (compactOps P s created).take (k + 1)

instance (P : Platform) (s : LogState) (created : Int64) (k : Nat) :
    Decidable (Drained P s created k) := inferInstanceAs (Decidable (_ ∈ _))

/-- An error of operation `k` ends the compaction. That of the last one, the removal of the
temporary directory, is ignored. -/
def Aborts (k : Nat) : Prop := k + 1 ≠ (compactOps P s created).length

instance (P : Platform) (s : LogState) (created : Int64) (k : Nat) :
    Decidable (Aborts P s created k) := inferInstanceAs (Decidable (_ ≠ _))

/-- The log when operation `k` ends the compaction; `k` past the end stands for the final open. -/
def failed (k : Nat) : LogState where
  host := crashed P s created k
  log := if Drained P s created k then
      { s.log with segments := s.log.segments.getLast?.toList }
    else s.log

/-! ## What an open sees -/

/-- The two directories hold the same log files. -/
def SameData (h h' : Host) : Prop :=
  ∀ base, h'.logs.lookup ⟨.data, base⟩ = h.logs.lookup ⟨.data, base⟩

section

variable {P : Platform} {h h' : Host} {h1 : Host} {config : StorageConfig}

theorem SameData.refl (h : Host) : SameData h h := fun _ => rfl

theorem SameData.trans {h'' : Host} (hd : SameData h h') (hd' : SameData h' h'') :
    SameData h h'' := fun base => (hd' base).trans (hd base)

theorem SameData.putLog (hd : SameData h h') (base : Nat) (file : Bytes) :
    SameData (h.putLog ⟨.data, base⟩ file) (h'.putLog ⟨.data, base⟩ file) := by
  intro b
  by_cases hb : b = base
  · rw [hb, Host.putLog_lookup_self, Host.putLog_lookup_self]
  · have hne : (⟨.data, b⟩ : Path) ≠ ⟨.data, base⟩ := fun hc => hb (congrArg Path.base hc)
    rw [Host.putLog_lookup_of_ne hne, Host.putLog_lookup_of_ne hne, hd b]

theorem SameData.listSegmentBases (hd : SameData h h') :
    listSegmentBases h' = listSegmentBases h := by
  refine listSegmentBases_eq (sorted_listSegmentBases h) fun base => ?_
  rw [hd base, mem_listSegmentBases]

/-- Opening a segment depends on its own file. -/
theorem openWithOptions_congr {base : Nat} {opts : SegmentOptions} {isSealed : Bool} {g : Segment}
    (hfile : h'.logs.lookup ⟨.data, base⟩ = h.logs.lookup ⟨.data, base⟩)
    (hrun : Segment.openWithOptions P .data base opts isSealed h = .ok g h1) :
    ∃ file, h1.logs = (h.putLog ⟨.data, base⟩ file).logs ∧
      ∃ h1', Segment.openWithOptions P .data base opts isSealed h' = .ok g h1' ∧
        h1'.logs = (h'.putLog ⟨.data, base⟩ file).logs := by
  obtain ⟨file, header, acc, hlook, hrecover, rfl, rfl⟩ := Segment.openWithOptions_ok.mp hrun
  exact ⟨file.take acc.pos, rfl, _, Segment.openWithOptions_ok.mpr
    ⟨file, header, acc, hfile.trans hlook, hrecover, rfl, rfl⟩, rfl⟩

theorem openSegments_congr {bases : List Nat} {segs : List Segment} (hd : SameData h h')
    (hrun : openSegments P config bases h = .ok segs h1) :
    ∃ h1', openSegments P config bases h' = .ok segs h1' ∧ SameData h1 h1' := by
  induction bases generalizing h h' segs with
  | nil =>
    obtain ⟨rfl, rfl⟩ := pure_ok.mp hrun
    exact ⟨h', rfl, hd⟩
  | cons base rest ih =>
    obtain ⟨g, h2, hopen, hrun⟩ := bind_ok.mp hrun
    obtain ⟨gs, h3, hrest, hrun⟩ := bind_ok.mp hrun
    obtain ⟨rfl, rfl⟩ := pure_ok.mp hrun
    obtain ⟨file, hlogs, h2', hopen', hlogs'⟩ := openWithOptions_congr (hd base) hopen
    have hd2 : SameData h2 h2' := by
      intro b
      rw [hlogs, hlogs']
      exact hd.putLog base file b
    obtain ⟨h3', hrest', hd3⟩ := ih hd2 hrest
    exact ⟨h3', bind_ok.mpr ⟨g, h2', hopen', bind_ok.mpr ⟨gs, h3', hrest', rfl⟩⟩, hd3⟩

variable {log : PartitionLog}

/-- An open of a directory that has segments. -/
theorem open_ok_iff (hne : listSegmentBases h ≠ []) : PartitionLog.open P config h = .ok log h' ↔
      ∃ segs, openSegments P config (listSegmentBases h) h = .ok segs h' ∧
        firstOverlap segs = none ∧
        log = { config := config, segments := segs
                nextOffset := (segs.getLast?.map (·.nextOffset)).getD 0
                appendsSinceFlush := 0 } := by
  constructor
  · intro hrun
    obtain ⟨hnil, -⟩ | ⟨-, hsegs⟩ := open_cases hrun
    · exact absurd hnil hne
    · exact hsegs
  · rintro ⟨segs, hsegs, hover, rfl⟩
    refine bind_ok.mpr ⟨h, h, get_ok.mpr ⟨rfl, rfl⟩, ?_⟩
    rw [if_neg (by simpa using hne)]
    refine bind_ok.mpr ⟨segs, h', hsegs, ?_⟩
    rw [hover]
    rfl

theorem open_congr (hd : SameData h h') (hne : listSegmentBases h ≠ [])
    (hrun : PartitionLog.open P config h = .ok log h1) :
    ∃ h1', PartitionLog.open P config h' = .ok log h1' ∧ SameData h1 h1' := by
  obtain ⟨segs, hsegs, hover, rfl⟩ := (open_ok_iff hne).mp hrun
  obtain ⟨h1', hsegs', hd'⟩ := openSegments_congr hd hsegs
  have hbases := hd.listSegmentBases
  exact ⟨h1', (open_ok_iff (hbases ▸ hne)).mpr ⟨segs, hbases ▸ hsegs', hover, rfl⟩, hd'⟩

theorem readSealed_congr {gs : List Segment} (hd : SameData h h')
    (hdir : ∀ g ∈ gs, g.dir = .data) : readSealed P h' gs = readSealed P h gs := by
  induction gs with
  | nil => rfl
  | cons g gs ih =>
    obtain ⟨hg, hgs⟩ := forall_mem_cons.mp hdir
    have hfile : h'.logs.lookup g.path = h.logs.lookup g.path := by
      rw [Segment.path_eq_data hg]
      exact hd g.baseOffset
    rw [readSealed, readSealed, Segment.readFrom_congr hfile, ih hgs]

end

/-- What the next open finds: the records, both ends and the active segment. -/
structure Reopening where
  records : List Record
  logStart : Nat
  logEnd : Nat
  active : Option Segment
deriving DecidableEq

def reopen (config : StorageConfig) (h : Host) : Option Reopening :=
  match PartitionLog.open P config h with
  | .error _ _ => none
  | .ok log h' =>
    match allRecords P ⟨h', log⟩ with
    | .error _ => none
    | .ok rs => some ⟨rs, log.logStartOffset, log.logEndOffset, log.segments.getLast?⟩

/-- The directory holds the log's segments and no others, and reopened they read as they do now. -/
structure Durable (P : Platform) (s : LogState) (log : PartitionLog) (h : Host) : Prop where
  listed : listSegmentBases s.host = s.log.segments.map (·.baseOffset)
  opens : PartitionLog.open P s.log.config s.host = .ok log h
  reads : List.Forall₂ (fun g g' => Segment.readFrom P h g' g'.baseOffset usizeMax usizeMax =
    Segment.readFrom P s.host g g.baseOffset usizeMax usizeMax) s.log.segments log.segments
  ends : log.nextOffset = s.log.nextOffset

/-- The reopened log has the records of one of the two, with the ends and the active segment it
had. -/
def Intact (log : PartitionLog) (before after : List Record)
    (h : Host) : Prop :=
  ∃ rs, reopen P s.log.config h = some ⟨rs, s.log.logStartOffset, s.log.logEndOffset,
    log.segments.getLast?⟩ ∧ (rs = before ∨ rs = after)

/-- The same of a log object. -/
def IntactObject (before after : List Record) (t : LogState) : Prop :=
  ∃ rs, allRecords P t = .ok rs ∧ (rs = before ∨ rs = after) ∧
    t.log.logStartOffset = s.log.logStartOffset ∧ t.log.logEndOffset = s.log.logEndOffset ∧
    t.log.segments.getLast? = s.log.segments.getLast?

/-! ## Phases -/

/-- An element that is not in front of its place is taken when its place is. -/
theorem mem_take_append_cons {α : Type} {x : α} {front : List α} (hx : x ∉ front) (back : List α)
    (k : Nat) : x ∈ (front ++ x :: back).take k ↔ front.length < k := by
  constructor
  · intro hmem
    by_contra hle
    rw [take_append_of_le_length (not_lt.mp hle)] at hmem
    exact hx (mem_of_mem_take hmem)
  · intro hlt
    obtain ⟨j, rfl⟩ : ∃ j, k = front.length + (j + 1) := ⟨k - front.length - 1, by omega⟩
    rw [take_length_add_append]
    exact mem_append_right _ (by simp)

theorem applyAll_append (ops ops' : List FileOp) (h : Host) :
    applyAll (ops ++ ops') h = applyAll ops' (applyAll ops h) := foldl_append

/-- A compaction that swaps its sealed segments for one with the records `kept`. -/
structure Swap (P : Platform) (s s' : LogState) (first : Segment) (others : List Segment)
    (active g : Segment) (kept : List Record) : Prop where
  split : s.log.segments = (first :: others) ++ [active]
  build : ∃ u h, buildCompacted P s.log kept active.baseOffset s.host = .ok u h ∧
    swapCompacted P s.log active.baseOffset (first :: others) h = .ok g s'.host
  log : s'.log = { s.log with segments := [g, active] }
  storable : ∀ r ∈ kept, Storable r
  ops : ∀ created, compactOps P s created = buildOps P.crc s.log.logStartOffset created kept ++
    (deleteOps (first :: others) ++ renameOps s.log.logStartOffset)

theorem swap_of_run {P : Platform} {s s' : LogState} {stats : CompactStats} (hs : Placed s)
    (hrun : compactSealed P s = .ok stats s') :
    (s' = s ∧ ∀ created, compactOps P s created = []) ∨
      ∃ first others active g kept, Swap P s s' first others active g kept := by
  obtain ⟨rfl, input, hinput, hidle⟩ | ⟨first, others, active, input, u, h1, g, h2, hsplit, hinput,
    hbusy, hbuild, hswap, rfl⟩ := compactSealed_ok hrun
  · refine .inl ⟨rfl, fun created => ?_⟩
    simp [compactOps, hinput, hidle]
  · refine .inr ⟨first, others, active, g, survivors input, hsplit, ⟨u, h1, hbuild, hswap⟩, rfl,
      storable_survivors ⟨hs, hsplit⟩ hinput, fun created => ?_⟩
    have hdrop : s.log.segments.dropLast = first :: others := by
      rw [hsplit, dropLast_concat]
    simp [compactOps, hdrop, hinput, hbusy]

/-! ## What the operations do to the log files -/

/-- The operation may change a log file of the data directory. -/
def FileOp.touchesData : FileOp → Bool
  | .deleteLog _ => true
  | .renameLog _ => true
  | _ => false

theorem data_ne_compact (b base : Nat) : (⟨.data, b⟩ : Path) ≠ ⟨.compact base, base⟩ := by
  intro hc
  cases congrArg Path.dir hc

theorem sameData_apply {op : FileOp} (hop : op.touchesData = false) (h : Host) :
    SameData h (op.apply h) := by
  intro b
  cases op with
  | removeTemp base => exact AList.lookup_erase_ne (data_ne_compact b base)
  | writeTemp base file => exact Host.putLog_lookup_of_ne (data_ne_compact b base) h file
  | createTempIndex base => rfl
  | deleteIndex p => rfl
  | renameIndex base => rfl
  | deleteLog p => cases hop
  | renameLog base => cases hop

theorem sameData_applyAll {ops : List FileOp} (hops : ∀ op ∈ ops, op.touchesData = false)
    (h : Host) : SameData h (applyAll ops h) := by
  induction ops generalizing h with
  | nil => exact .refl h
  | cons op ops ih =>
    obtain ⟨hop, hrest⟩ := forall_mem_cons.mp hops
    exact (sameData_apply hop h).trans (ih hrest (op.apply h))

theorem touchesData_buildOps {crc : Bytes → UInt32} {base : Nat} {created : Int64}
    {kept : List Record} : ∀ op ∈ buildOps crc base created kept, op.touchesData = false := by
  intro op hop
  rcases mem_append.mp hop with hfirst | hfill
  · simp only [mem_cons, not_mem_nil, or_false] at hfirst
    rcases hfirst with rfl | rfl | rfl | rfl
    all_goals rfl
  · obtain ⟨i, -, rfl⟩ := mem_map.mp hfill
    rfl

/-- The temporary file holds the survivors when it is filled. -/
theorem lookup_buildOps (crc : Bytes → UInt32) (base : Nat) (created : Int64) (kept : List Record)
    (h : Host) :
    (applyAll (buildOps crc base created kept) h).logs.lookup ⟨.compact base, base⟩ =
      some (segmentBytes crc base created kept) := by
  suffices hfill : ∀ n, (applyAll ([.removeTemp base, .writeTemp base [],
      .writeTemp base (encodeHeader base created), .createTempIndex base] ++
      (range n).map fun i => .writeTemp base (segmentBytes crc base created
        (kept.take (i + 1)))) h).logs.lookup ⟨.compact base, base⟩ =
      some (segmentBytes crc base created (kept.take n)) by
    have hall := hfill kept.length
    rwa [take_length] at hall
  intro n
  cases n with
  | zero => exact Host.putLog_lookup_self _ _ _
  | succ n =>
    -- only the last write counts
    rw [range_succ, map_append, ← append_assoc, applyAll_append]
    exact Host.putLog_lookup_self _ _ _

/-- Deletions only take files away. -/
theorem lookup_take_deleteOps (gs : List Segment) (j : Nat) (h : Host) {q : Path}
    (hq : ∀ g ∈ gs, g.path ≠ q) :
    (applyAll ((deleteOps gs).take j) h).logs.lookup q = h.logs.lookup q := by
  suffices hops : ∀ ops : List FileOp, (∀ op ∈ ops, op ∈ deleteOps gs) →
      ∀ h : Host, (applyAll ops h).logs.lookup q = h.logs.lookup q from
    hops _ (fun op hop => mem_of_mem_take hop) h
  intro ops
  induction ops with
  | nil => exact fun _ h => rfl
  | cons op ops ih =>
    intro hmem h
    obtain ⟨hop, hrest⟩ := forall_mem_cons.mp hmem
    refine (ih hrest (op.apply h)).trans ?_
    obtain ⟨g, hg, hop⟩ := mem_flatMap.mp hop
    simp only [mem_cons, not_mem_nil, or_false] at hop
    rcases hop with rfl | rfl
    · exact AList.lookup_erase_ne (hq g hg).symm
    · rfl

theorem deleteAll_eq (gs : List Segment) (h : Host) :
    deleteAll gs h = .ok () (applyAll (deleteOps gs) h) := by
  induction gs generalizing h with
  | nil => rfl
  | cons g gs ih => exact ih _

/-! ## The three phases of a crash -/

namespace Swap

variable {P : Platform} {s s' : LogState} {first active g : Segment} {others : List Segment}
  {kept : List Record} {created : Int64} {k : Nat} {t : Segment}

/-- The number of operations in front of the first deletion. -/
def deletesAt (P : Platform) (s : LogState) (created : Int64) (kept : List Record) : Nat :=
  (buildOps P.crc s.log.logStartOffset created kept).length

/-- The number of operations in front of the rename of the log file. -/
def renamesAt (P : Platform) (s : LogState) (created : Int64) (kept : List Record)
    (sealedSegs : List Segment) : Nat :=
  deletesAt P s created kept + (deleteOps sealedSegs).length

variable (hsw : Swap P s s' first others active g kept) (hs : Placed s)

include hsw

/-- While the temporary segment is built the data directory is as it was. -/
theorem crashed_build (hk : k ≤ deletesAt P s created kept) :
    SameData s.host (crashed P s created k) := by
  rw [crashed, hsw.ops created, take_append_of_le_length hk]
  exact sameData_applyAll (fun op hop => touchesData_buildOps op (mem_of_mem_take hop)) _

theorem renamed_iff : .renameLog s.log.logStartOffset ∈ (compactOps P s created).take k ↔
    renamesAt P s created kept (first :: others) < k := by
  have hnot : FileOp.renameLog s.log.logStartOffset ∉
      buildOps P.crc s.log.logStartOffset created kept ++ deleteOps (first :: others) := by
    intro hc
    rcases mem_append.mp hc with hbuild | hdelete
    · cases touchesData_buildOps _ hbuild
    · obtain ⟨t, -, ht⟩ := mem_flatMap.mp hdelete
      simp at ht
  rw [hsw.ops created, ← append_assoc, renameOps, mem_take_append_cons hnot, length_append]
  rfl

include hs

theorem layered : Placed.Layered s first others active := ⟨hs, hsw.split⟩

theorem path_first : first.path = ⟨.data, s.log.logStartOffset⟩ := by
  rw [hs.path_data ((hsw.layered hs).mem_sealed mem_cons_self), (hsw.layered hs).start]

/-- Where the first deletion stands in the sequence. -/
theorem deleted_iff : .deleteLog ⟨.data, s.log.logStartOffset⟩ ∈ (compactOps P s created).take k ↔
    deletesAt P s created kept < k := by
  have hnot : FileOp.deleteLog ⟨.data, s.log.logStartOffset⟩ ∉
      buildOps P.crc s.log.logStartOffset created kept := fun hc => by
    cases touchesData_buildOps _ hc
  have hops : compactOps P s created = buildOps P.crc s.log.logStartOffset created kept ++
      .deleteLog ⟨.data, s.log.logStartOffset⟩ :: (.deleteIndex first.path ::
        (deleteOps others ++ renameOps s.log.logStartOffset)) := by
    rw [hsw.ops created, ← hsw.path_first hs]
    rfl
  rw [hops, mem_take_append_cons hnot, deletesAt]

/-- Between the first deletion and the rename the first segment has no file. -/
theorem crashed_exposed (hlt : deletesAt P s created kept < k)
    (hle : k ≤ renamesAt P s created kept (first :: others)) :
    (crashed P s created k).logs.lookup ⟨.data, s.log.logStartOffset⟩ = none ∧
      (crashed P s created k).logs.lookup active.path = s.host.logs.lookup active.path := by
  have hl := hsw.layered hs
  rw [renamesAt] at hle
  obtain ⟨j, rfl⟩ : ∃ j, k = deletesAt P s created kept + (j + 1) :=
    ⟨k - deletesAt P s created kept - 1, by omega⟩
  rw [crashed, hsw.ops created, deletesAt, take_length_add_append,
    take_append_of_le_length (by omega), applyAll_append]
  constructor
  · rw [← hsw.path_first hs]
    generalize applyAll (buildOps P.crc s.log.logStartOffset created kept) s.host = h
    have herase : ((FileOp.deleteLog first.path).apply h).logs.lookup first.path = none :=
      AList.lookup_erase _ _
    cases j with
    | zero => exact herase
    | succ i =>
      -- no later deletion brings the file back
      refine (lookup_take_deleteOps others i ((FileOp.deleteIndex first.path).apply
        ((FileOp.deleteLog first.path).apply h)) fun t ht hc => hl.start_ne ?_).trans herase
      rw [hl.start, ← show t.baseOffset = first.baseOffset from congrArg Path.base hc]
      exact mem_map_of_mem ht
  · rw [lookup_take_deleteOps _ _ _ fun t ht => hs.path_ne hl.split ht mem_cons_self,
      hs.path_data hl.mem_active]
    exact sameData_applyAll touchesData_buildOps s.host active.baseOffset

/-- Behind the rename the directory holds the compacted segment, and no other sealed one. -/
theorem crashed_renamed (hlt : renamesAt P s created kept (first :: others) < k) (b : Nat) :
    (crashed P s created k).logs.lookup ⟨.data, b⟩ =
      if b = s.log.logStartOffset then some (segmentBytes P.crc s.log.logStartOffset created kept)
      else if b ∈ others.map (·.baseOffset) then none else s.host.logs.lookup ⟨.data, b⟩ := by
  have hl := hsw.layered hs
  have hdirs : ∀ t ∈ first :: others, t.dir = .data := fun t ht => hs.dir t (hl.mem_sealed ht)
  have hlen : (buildOps P.crc s.log.logStartOffset created kept ++
      deleteOps (first :: others)).length < k := by
    rw [length_append]
    exact hlt
  obtain ⟨j, rfl⟩ := Nat.exists_eq_add_of_lt hlen
  rw [crashed, hsw.ops created, ← append_assoc, Nat.add_assoc, take_length_add_append,
    applyAll_append, applyAll_append, renameOps, take_succ_cons]
  have hdeleted := deleteAll_ok (deleteAll_eq (first :: others)
    (applyAll (buildOps P.crc s.log.logStartOffset created kept) s.host))
  have htemp : (applyAll (deleteOps (first :: others)) (applyAll (buildOps P.crc
      s.log.logStartOffset created kept) s.host)).logs.lookup
      ⟨.compact s.log.logStartOffset, s.log.logStartOffset⟩ =
      some (segmentBytes P.crc s.log.logStartOffset created kept) := by
    rw [hdeleted, if_neg, lookup_buildOps]
    intro hc
    obtain ⟨t, ht, hpath⟩ := mem_map.mp hc
    cases (hdirs t ht).symm.trans (congrArg Path.dir hpath)
  have hdata := hdeleted ⟨.data, b⟩
  rw [sameData_applyAll touchesData_buildOps s.host b] at hdata
  generalize applyAll (deleteOps (first :: others)) _ = h at htemp hdata
  -- what follows the rename leaves the data directory alone
  have hlast : SameData ((FileOp.renameLog s.log.logStartOffset).apply h)
      (applyAll (.renameLog s.log.logStartOffset :: ([.renameIndex s.log.logStartOffset,
        .removeTemp s.log.logStartOffset] : List FileOp).take j) h) := by
    refine sameData_applyAll (fun op hop => ?_) _
    have hmem := mem_of_mem_take hop
    simp only [mem_cons, not_mem_nil, or_false] at hmem
    rcases hmem with rfl | rfl
    all_goals rfl
  rw [hlast b]
  simp only [FileOp.apply, htemp]
  by_cases hb : b = s.log.logStartOffset
  · rw [hb, if_pos rfl]
    exact AList.lookup_insert _
  · rw [if_neg hb, AList.lookup_insert_ne fun hc => hb (congrArg Path.base hc),
      AList.lookup_erase_ne (data_ne_compact b _), hdata]
    simp only [mem_paths hdirs]
    simp [← hl.start, hb]

end Swap

/-! ## Reopening -/

section

variable {P : Platform} {s s' : LogState} {log : PartitionLog} {h h' : Host}
  {config : StorageConfig} {first active g : Segment} {others : List Segment}
  {kept before after : List Record} {created : Int64} {k : Nat}

theorem reopen_eq_some {v : Reopening} :
    reopen P config h = some v ↔ ∃ log h', PartitionLog.open P config h = .ok log h' ∧
      allRecords P ⟨h', log⟩ = .ok v.records ∧ v.logStart = log.logStartOffset ∧
      v.logEnd = log.logEndOffset ∧ v.active = log.segments.getLast? := by
  unfold reopen
  cases hopen : PartitionLog.open P config h with
  | error e h1 => simp
  | ok log h1 =>
    dsimp only
    cases hread : allRecords P ⟨h1, log⟩ with
    | error e => simp [hread]
    | ok rs =>
      obtain ⟨records, start, last, act⟩ := v
      simp [hread, eq_comm]

theorem reopen_congr {v : Reopening} (hd : SameData h h') (hne : listSegmentBases h ≠ [])
    (hv : reopen P config h = some v) : reopen P config h' = some v := by
  obtain ⟨log, h1, hopen, hread, hrest⟩ := reopen_eq_some.mp hv
  obtain ⟨h1', hopen', hd'⟩ := open_congr hd hne hopen
  refine reopen_eq_some.mpr ⟨log, h1', hopen', ?_, hrest⟩
  rw [← hread]
  exact readSealed_congr hd' (placed_open hopen).dir

/-- The bases of an opened log are those of the directory. -/
theorem bases_of_open (hne : listSegmentBases h ≠ [])
    (hopen : PartitionLog.open P config h = .ok log h') :
    log.segments.map (·.baseOffset) = listSegmentBases h := by
  obtain ⟨segs, hsegs, -, rfl⟩ := (open_ok_iff hne).mp hopen
  obtain ⟨hpaths, -⟩ := placed_openSegments hsegs
  have := congrArg (map Path.base) hpaths
  simpa [Function.comp_def, Segment.path] using this

theorem logStartOffset_eq_of_bases {log' : PartitionLog}
    (hb : log.segments.map (·.baseOffset) = log'.segments.map (·.baseOffset)) :
    log.logStartOffset = log'.logStartOffset := by
  have := congrArg head? hb
  simp only [head?_map] at this
  rw [logStartOffset, logStartOffset, this]

theorem readSealed_of_reads {gs gs' : List Segment}
    (hreads : List.Forall₂ (fun g g' => Segment.readFrom P h g' g'.baseOffset usizeMax usizeMax =
      Segment.readFrom P h' g g.baseOffset usizeMax usizeMax) gs gs') :
    readSealed P h gs' = readSealed P h' gs := by
  induction hreads with
  | nil => rfl
  | cons hread _ ih => rw [readSealed, readSealed, hread, ih]

theorem Durable.bases_ne (hd : Durable P s log h) (hne : s.log.segments ≠ []) :
    listSegmentBases s.host ≠ [] := by
  rw [hd.listed]
  simpa using hne

/-- Without a crash the next open finds the log as it is. -/
theorem Durable.reopen (hd : Durable P s log h) (hne : s.log.segments ≠ [])
    (hbefore : allRecords P s = .ok before) :
    reopen P s.log.config s.host = some ⟨before, s.log.logStartOffset, s.log.logEndOffset,
      log.segments.getLast?⟩ := by
  refine reopen_eq_some.mpr ⟨log, h, hd.opens, ?_, ?_, hd.ends.symm, rfl⟩
  · rw [← hbefore]
    exact readSealed_of_reads hd.reads
  · refine logStartOffset_eq_of_bases ?_
    rw [bases_of_open (hd.bases_ne hne) hd.opens, hd.listed]

/-- Opening the last segment depends on its own file only. -/
theorem openSegments_concat {front : List Nat} {b : Nat} {segs : List Segment} (hb : b ∉ front)
    (hrun : openSegments P config (front ++ [b]) h = .ok segs h') :
    ∃ frontSegs act h1, segs = frontSegs ++ [act] ∧ frontSegs.length = front.length ∧
      Segment.openWithOptions P .data b (config.segmentOptions false) false h1 = .ok act h' ∧
      h1.logs.lookup ⟨.data, b⟩ = h.logs.lookup ⟨.data, b⟩ := by
  induction front generalizing h segs with
  | nil =>
    obtain ⟨act, h1, hopen, hrun⟩ := bind_ok.mp hrun
    obtain ⟨gs, h2, hrest, hrun⟩ := bind_ok.mp hrun
    obtain ⟨rfl, rfl⟩ := pure_ok.mp hrest
    obtain ⟨rfl, rfl⟩ := pure_ok.mp hrun
    exact ⟨[], act, h, rfl, rfl, hopen, rfl⟩
  | cons a front ih =>
    obtain ⟨g, h1, hopen, hrun⟩ := bind_ok.mp hrun
    obtain ⟨gs, h2, hrest, hrun⟩ := bind_ok.mp hrun
    obtain ⟨rfl, rfl⟩ := pure_ok.mp hrun
    obtain ⟨hne, hfront⟩ := not_or.mp (fun hc => hb (mem_cons.mpr hc))
    obtain ⟨frontSegs, act, h3, rfl, hlen, hact, hlook⟩ := ih hfront hrest
    refine ⟨g :: frontSegs, act, h3, rfl, congrArg (· + 1) hlen, hact, hlook.trans ?_⟩
    obtain ⟨file, hlogs, -⟩ := openWithOptions_congr rfl hopen
    rw [hlogs]
    exact Host.putLog_lookup_of_ne (fun hc => hne (congrArg Path.base hc)) _ _

section

variable (hsw : Swap P s s' first others active g kept)

include hsw

/-- The records of a compacted log. -/
theorem Swap.after_eq (hs : Placed s) (hafter : allRecords P s' = .ok after) :
    ∃ tail, Segment.readFrom P s.host active active.baseOffset usizeMax usizeMax = .ok tail ∧
      after = kept ++ tail := by
  obtain ⟨u, h1, hbuild, hswap⟩ := hsw.build
  obtain ⟨hholds, -, -, -, -, hkeep⟩ :=
    compacted_segments (hsw.layered hs) hsw.storable hbuild hswap
  rw [allRecords, hsw.log] at hafter
  simp only [readSealed, readAll_of_holds hholds, Segment.readFrom_congr hkeep] at hafter
  obtain ⟨_, ⟨⟩, hafter⟩ := except_bind_ok.mp hafter
  obtain ⟨rest, hrest, hafter⟩ := except_bind_ok.mp hafter
  obtain ⟨tail, htail, hrest⟩ := except_bind_ok.mp hrest
  cases hrest
  cases hafter
  exact ⟨tail, htail, by simp⟩

/-- Behind the rename the directory lists the compacted segment and the active one. -/
theorem Swap.listed_renamed (hs : Placed s)
    (hd : Durable P s log h) (hlt : Swap.renamesAt P s created kept (first :: others) < k) :
    listSegmentBases (crashed P s created k) = [s.log.logStartOffset, active.baseOffset] := by
  have hl := hsw.layered hs
  refine listSegmentBases_eq (by simpa using hl.start_lt) fun b => ?_
  rw [hsw.crashed_renamed hs hlt b]
  by_cases hstart : b = s.log.logStartOffset
  · simp [hstart]
  rw [if_neg hstart]
  by_cases hother : b ∈ others.map (·.baseOffset)
  · have hne : b ≠ active.baseOffset := by
      rintro rfl
      exact hl.active_ne (mem_cons_of_mem _ hother)
    simp [hother, hstart, hne]
  · rw [if_neg hother, ← mem_listSegmentBases, hd.listed, hsw.split, map_append,
      map_cons, ← hl.start]
    simp [mem_map.not.mp hother]

/-- The compacted segment opens with the survivors. -/
theorem Swap.opens_compacted (hs : Placed s)
    {c : Host} (hfile : c.logs.lookup ⟨.data, s.log.logStartOffset⟩ =
      some (segmentBytes P.crc s.log.logStartOffset created kept)) :
    Runs (Segment.openWithOptions P .data s.log.logStartOffset (s.log.config.segmentOptions true)
      true) c fun opened c' => opened.Holds P c' kept ∧ opened.nextOffset ≤ active.baseOffset ∧
        opened.path = ⟨.data, s.log.logStartOffset⟩ ∧
        ∀ q, q ≠ (⟨.data, s.log.logStartOffset⟩ : Path) → c'.logs.lookup q = c.logs.lookup q := by
  obtain ⟨u, h1, hbuild, hswap⟩ := hsw.build
  obtain ⟨hholds, -, hgpath, hend, -, -⟩ :=
    compacted_segments (hsw.layered hs) hsw.storable hbuild hswap
  have hgbase : g.baseOffset = s.log.logStartOffset := congrArg Path.base hgpath
  have habove : ∀ r ∈ kept, s.log.logStartOffset ≤ r.offset := hgbase ▸ hholds.above
  have hbound : s.log.logStartOffset ≤ u64Max := hgbase ▸ hholds.start.trans hholds.bound
  have hpadded : c.logs.lookup ⟨.data, s.log.logStartOffset⟩ =
      some (segmentBytes P.crc s.log.logStartOffset created kept ++ replicate 0 0) := by
    rw [hfile, replicate_zero, append_nil]
  obtain ⟨hrec, -⟩ := @Segment.recoverFile_records P kept s.log.logStartOffset 0 created
    (s.log.config.segmentOptions true).indexIntervalBytes hsw.storable hholds.sorted habove hbound
  refine ⟨_, _, Segment.openWithOptions_ok.mpr ⟨_, _, _, hpadded, hrec, rfl, rfl⟩, ?_⟩
  obtain ⟨hopened, hnext, -, hpath, hothers⟩ := Segment.openWithOptions_holds hpadded
    hsw.storable hholds.sorted habove hbound
    (by simp [StorageConfig.segmentOptions, applyDirectIoFlag])
    (Segment.openWithOptions_ok.mpr ⟨_, _, _, hpadded, hrec, rfl, rfl⟩)
  exact ⟨hopened, hnext ▸ hend, hpath, hothers⟩

/-- Behind the rename the next open finds the compacted log. -/
theorem Swap.reopen_renamed (hs : Placed s)
    (hd : Durable P s log h) (hafter : allRecords P s' = .ok after)
    (hlt : Swap.renamesAt P s created kept (first :: others) < k) :
    reopen P s.log.config (crashed P s created k) = some ⟨after, s.log.logStartOffset,
      s.log.logEndOffset, log.segments.getLast?⟩ := by
  have hl := hsw.layered hs
  have hfile := hsw.crashed_renamed hs hlt
  have hbases := hsw.listed_renamed hs hd hlt
  generalize crashed P s created k = c at hfile hbases
  obtain ⟨tail, htail, rfl⟩ := hsw.after_eq hs hafter
  have hblt := hl.start_lt
  obtain ⟨opened, c1, hopen1, hholds1, hend1, hpath1, hothers1⟩ :=
    hsw.opens_compacted hs ((hfile _).trans (if_pos rfl))
  -- the active segment opens as it does without a crash
  obtain ⟨segs, hsegs, -, rfl⟩ := (open_ok_iff (hd.bases_ne (by simp [hsw.split]))).mp hd.opens
  have hsplit : s.log.segments.map (·.baseOffset) =
      (first :: others).map (·.baseOffset) ++ [active.baseOffset] := by
    rw [hsw.split, map_append]
    rfl
  rw [hd.listed, hsplit] at hsegs
  obtain ⟨frontSegs, act, h2, rfl, hlen, hact, hlook⟩ := openSegments_concat hl.active_ne hsegs
  have hactfile : c1.logs.lookup ⟨.data, active.baseOffset⟩ =
      h2.logs.lookup ⟨.data, active.baseOffset⟩ := by
    rw [hothers1 _ fun hc => hblt.ne (congrArg Path.base hc).symm, hlook, hfile,
      if_neg hblt.ne', if_neg fun hc => hl.active_ne (mem_cons_of_mem _ hc)]
  obtain ⟨file, hlogs, c2, hact', hlogs'⟩ := openWithOptions_congr hactfile hact
  have hactpath := (placed_openWithOptions hact).2
  have hactread : Segment.readFrom P c2 act act.baseOffset usizeMax usizeMax = .ok tail := by
    have hsame : c2.logs.lookup act.path = h.logs.lookup act.path := by
      rw [hlogs', hlogs, hactpath, Host.putLog_lookup_self, Host.putLog_lookup_self]
    rw [Segment.readFrom_congr hsame, ← htail]
    have hreads := forall₂_drop_append _ _ _ hd.reads
    rw [hsw.split, hlen, length_map, drop_left] at hreads
    exact (forall₂_cons.mp hreads).1
  have hopened : openSegments P s.log.config (listSegmentBases c) c = .ok [opened, act] c2 := by
    rw [hbases]
    exact bind_ok.mpr ⟨opened, c1, hopen1, bind_ok.mpr ⟨[act], c2,
      bind_ok.mpr ⟨act, c2, hact', rfl⟩, rfl⟩⟩
  have hover : firstOverlap [opened, act] = none := by
    rw [firstOverlap, if_neg]
    · rfl
    · exact not_lt.mpr (hend1.trans (congrArg Path.base hactpath).ge)
  refine reopen_eq_some.mpr ⟨_, c2, (open_ok_iff (by simp [hbases])).mpr
    ⟨[opened, act], hopened, hover, rfl⟩, ?_, (congrArg Path.base hpath1).symm, ?_, ?_⟩
  · have hkeep1 : c2.logs.lookup opened.path = c1.logs.lookup opened.path := by
      rw [hlogs', hpath1]
      exact Host.putLog_lookup_of_ne (fun hc => hblt.ne (congrArg Path.base hc)) _ _
    have hread1 := readAll_of_holds (hholds1.congr_host hkeep1)
    simp [allRecords, readSealed, hread1, hactread, bind, Except.bind, pure, Except.pure]
  · have hends := hd.ends
    simp only [getLast?_concat, Option.map_some, Option.getD_some] at hends
    exact hends.symm
  · simp

/-- A log whose first segment is gone does not begin where it did. -/
theorem Swap.not_intact_exposed (hs : Placed s) (hlt : Swap.deletesAt P s created kept < k)
    (hle : k ≤ Swap.renamesAt P s created kept (first :: others)) :
    ¬ Intact P s log before after (crashed P s created k) := by
  obtain ⟨hgone, hkeep⟩ := hsw.crashed_exposed hs hlt hle
  rintro ⟨rs, hreopen, -⟩
  obtain ⟨log1, h1, hopen, -, hstart, -⟩ := reopen_eq_some.mp hreopen
  have hactive : active.baseOffset ∈ listSegmentBases (crashed P s created k) := by
    have hmem := (hsw.layered hs).mem_active
    rw [mem_listSegmentBases, ← hs.path_data hmem, hkeep]
    exact hs.file active hmem
  have hbases := bases_of_open (ne_nil_of_mem hactive) hopen
  have hmem : s.log.logStartOffset ∈ listSegmentBases (crashed P s created k) := by
    rw [← hbases]
    cases hsegs : log1.segments with
    | nil =>
      rw [hsegs] at hbases
      rw [← hbases] at hactive
      cases hactive
    | cons a rest =>
      rw [show s.log.logStartOffset = log1.logStartOffset from hstart, logStartOffset, hsegs]
      simp
  rw [mem_listSegmentBases, hgone] at hmem
  cases hmem

end

/-- The sequence of operations ends in the files the compaction leaves. -/
theorem crashed_all {stats : CompactStats} (hs : Placed s)
    (hrun : compactSealed P s = .ok stats s') :
    ∃ created, SameData s'.host (crashed P s created (compactOps P s created).length) := by
  obtain ⟨rfl, hnone⟩ | ⟨first, others, active, g, kept, hsw⟩ := swap_of_run hs hrun
  · refine ⟨0, ?_⟩
    rw [hnone 0]
    exact .refl _
  obtain ⟨u, h1, hbuild, hswap⟩ := hsw.build
  obtain ⟨hholds, hsealed, hgpath, -, hothers, -⟩ :=
    compacted_segments (hsw.layered hs) hsw.storable hbuild hswap
  have hgfile := hholds.file_of_sealed hsealed
  rw [hgpath, show g.baseOffset = s.log.logStartOffset from congrArg Path.base hgpath] at hgfile
  refine ⟨g.createdAtMs, fun b => ?_⟩
  rw [hsw.crashed_renamed hs]
  · by_cases hb : b = s.log.logStartOffset
    · rw [hb, if_pos rfl, hgfile]
    · rw [if_neg hb, hothers b hb]
  · rw [hsw.ops, length_append, length_append, Swap.renamesAt, Swap.deletesAt]
    simp only [renameOps, length_cons, length_nil]
    omega

/-- Compaction is safe at a crash point exactly if the first sealed segment is still there or the
compacted one is in its place, and for the log object exactly if the failing operation comes
before the first deletion. -/
theorem compaction_crash_safe_iff {stats : CompactStats} (hreached : Reached P s)
    (hrun : compactSealed P s = .ok stats s') (hdurable : Durable P s log h)
    (hbefore : allRecords P s = .ok before) (hafter : allRecords P s' = .ok after)
    (hne : s.log.segments ≠ []) (created : Int64) (k : Nat) :
    (Intact P s log before after (crashed P s created k) ↔ ¬ Exposed P s created k) ∧
      (Aborts P s created k →
        (IntactObject P s before after (failed P s created k) ↔ ¬ Drained P s created k)) := by
  have hs := hreached.placed
  have hreopen := hdurable.reopen hne hbefore
  -- as long as the data directory is as it was, both the files and the log object are whole
  have hwhole (hsame : SameData s.host (crashed P s created k)) :
      Intact P s log before after (crashed P s created k) :=
    ⟨before, reopen_congr hsame (hdurable.bases_ne hne) hreopen, .inl rfl⟩
  have hobject (hsame : SameData s.host (crashed P s created k)) (hnot : ¬ Drained P s created k) :
      IntactObject P s before after (failed P s created k) := by
    have hlog : (failed P s created k).log = s.log := if_neg hnot
    refine ⟨before, ?_, .inl rfl, by rw [hlog], by rw [hlog], by rw [hlog]⟩
    rw [← hbefore, allRecords, hlog]
    exact readSealed_congr hsame hs.dir
  obtain ⟨rfl, hnone⟩ | ⟨first, others, active, g, kept, hsw⟩ := swap_of_run hs hrun
  · have hsame : SameData s'.host (crashed P s' created k) := by
      rw [crashed, hnone created, take_nil]
      exact .refl _
    have hidle : ¬ Drained P s' created k := by simp [Drained, hnone created]
    exact ⟨iff_of_true (hwhole hsame) (by simp [Exposed, hnone created]),
      fun _ => iff_of_true (hobject hsame hidle) hidle⟩
  constructor
  · rw [Exposed, hsw.deleted_iff hs, hsw.renamed_iff]
    by_cases hbuild : k ≤ Swap.deletesAt P s created kept
    · exact iff_of_true (hwhole (hsw.crashed_build hbuild)) fun hc => absurd hc.1 (by omega)
    by_cases hrenamed : Swap.renamesAt P s created kept (first :: others) < k
    · exact iff_of_true ⟨after, hsw.reopen_renamed hs hdurable hafter hrenamed, .inr rfl⟩
        fun hc => hc.2 hrenamed
    · exact iff_of_false (hsw.not_intact_exposed hs (by omega) (by omega))
        (not_not_intro ⟨by omega, hrenamed⟩)
  · intro _
    by_cases hdrained : Drained P s created k
    · refine iff_of_false ?_ (not_not_intro hdrained)
      rintro ⟨-, -, -, hstart, -⟩
      have hlog : (failed P s created k).log = { s.log with segments := [active] } := by
        rw [failed]
        simp only [if_pos hdrained, hsw.split, getLast?_concat, Option.toList_some]
      rw [hlog] at hstart
      exact (hsw.layered hs).start_lt.ne' hstart
    · refine iff_of_true (hobject (hsw.crashed_build ?_) hdrained) hdrained
      have := mt (hsw.deleted_iff hs).mpr hdrained
      omega

end

/-! ## Concrete crashes -/

/-- A log of four segments, and what a compaction makes of it. -/
structure CrashRun (s s' : LogState) (log : PartitionLog) (h : Host)
    (before after : List Record) : Prop where
  reached : Reached plainPlatform s
  run : ∃ stats, compactSealed plainPlatform s = .ok stats s'
  durable : Durable plainPlatform s log h
  before_eq : allRecords plainPlatform s = .ok before
  after_eq : allRecords plainPlatform s' = .ok after
  nonempty : s.log.segments ≠ []

/-- The log, what the compaction makes of it, and what an open of its directory gives. -/
def crashRun : Option (LogState × LogState × PartitionLog × Host × List Record × List Record) :=
  match PartitionLog.open plainPlatform smallSegments (Store.fresh fun _ => 0).host with
  | .error _ _ => none
  | .ok log0 h0 =>
    let s := stop (call plainPlatform (.appendBatch overwrites) ⟨h0, log0⟩)
    match PartitionLog.open plainPlatform s.log.config s.host, allRecords plainPlatform s,
        compactSealed plainPlatform s with
    | .ok log h, .ok before, .ok _ s' =>
      match allRecords plainPlatform s' with
      | .error _ => none
      | .ok after => some (s, s', log, h, before, after)
    | _, _, _ => none

theorem crashRun_unpack {Q : LogState → List Record → List Record → Prop}
    [∀ s before after, Decidable (Q s before after)]
    (hrun : crashRun.any fun (s, _, log, h, before, after) =>
      decide (listSegmentBases s.host = s.log.segments.map (·.baseOffset) ∧
        List.Forall₂ (fun g g' =>
          Segment.readFrom plainPlatform h g' g'.baseOffset usizeMax usizeMax =
          Segment.readFrom plainPlatform s.host g g.baseOffset usizeMax usizeMax)
          s.log.segments log.segments ∧
        log.nextOffset = s.log.nextOffset ∧ s.log.segments ≠ [] ∧ Q s before after)) :
    ∃ s s' log h before after, CrashRun s s' log h before after ∧ Q s before after := by
  obtain ⟨⟨s, s', log, h, before, after⟩, hsome, hok⟩ := (Option.any_eq_true ..).mp hrun
  obtain ⟨hlisted, hreads, hends, hne, hq⟩ := of_decide_eq_true hok
  unfold crashRun at hsome
  split at hsome
  · cases hsome
  next log0 h0 hopen0 =>
    have hreached := Reached.called (.appendBatch overwrites) (.opened hopen0)
    dsimp only at hsome
    generalize stop (call plainPlatform (.appendBatch overwrites) ⟨h0, log0⟩) = s at hsome hreached
    split at hsome
    next log h before stats s' hopen hbefore hcompact =>
      split at hsome
      · cases hsome
      next after hafter =>
        cases hsome
        exact ⟨s, s', log, h, before, after, ⟨hreached, ⟨stats, hcompact⟩,
          ⟨hlisted, hopen, hreads, hends⟩, hbefore, hafter, hne⟩, hq⟩
    · cases hsome

theorem crashed_all_overwrites : ∃ s stats s', compactSealed plainPlatform s = .ok stats s' ∧
    ∃ created, SameData s'.host
      (crashed plainPlatform s created (compactOps plainPlatform s created).length) := by
  obtain ⟨s, s', _, _, _, _, hr, -⟩ := crashRun_unpack (Q := fun _ _ _ => True) (by decide +kernel)
  obtain ⟨stats, hcompact⟩ := hr.run
  exact ⟨s, stats, s', hcompact, crashed_all hr.reached.placed hcompact⟩

/-- A crash behind the rename of the log file leaves the compacted log, and an error while the
temporary segment is written leaves the log object as it was. -/
theorem compaction_crash_safe_renamed :
    (∃ s s' log h before after, CrashRun s s' log h before after ∧ before.length = 4 ∧
      after.length = 3 ∧ ¬ Exposed plainPlatform s 0 13 ∧
      Intact plainPlatform s log before after (crashed plainPlatform s 0 13)) ∧
    ∃ s s' log h before after, CrashRun s s' log h before after ∧
      Aborts plainPlatform s 0 4 ∧ ¬ Drained plainPlatform s 0 4 ∧
      IntactObject plainPlatform s before after (failed plainPlatform s 0 4) := by
  constructor
  · obtain ⟨s, s', log, h, before, after, hr, hbefore, hafter, hsafe⟩ := crashRun_unpack
      (Q := fun s before after => before.length = 4 ∧ after.length = 3 ∧
        ¬ Exposed plainPlatform s 0 13) (by decide +kernel)
    obtain ⟨stats, hcompact⟩ := hr.run
    refine ⟨s, s', log, h, before, after, hr, hbefore, hafter, hsafe, ?_⟩
    exact (compaction_crash_safe_iff hr.reached hcompact hr.durable hr.before_eq hr.after_eq
      hr.nonempty 0 13).1.mpr hsafe
  · obtain ⟨s, s', log, h, before, after, hr, haborts, hkept⟩ := crashRun_unpack
      (Q := fun s _ _ => Aborts plainPlatform s 0 4 ∧ ¬ Drained plainPlatform s 0 4)
      (by decide +kernel)
    obtain ⟨stats, hcompact⟩ := hr.run
    refine ⟨s, s', log, h, before, after, hr, haborts, hkept, ?_⟩
    exact ((compaction_crash_safe_iff hr.reached hcompact hr.durable hr.before_eq hr.after_eq
      hr.nonempty 0 4).2 haborts).mpr hkept

/-- A crash right before the rename leaves one record of four, and a deletion that fails leaves the
log object with the active segment alone. -/
theorem compaction_crash_loses_records :
    (∃ s s' log h before after, CrashRun s s' log h before after ∧ before.length = 4 ∧
      after.length = 3 ∧
      (reopen plainPlatform s.log.config (crashed plainPlatform s 0 12)).map
        (fun v => (v.logStart, v.records.length)) = some (3, 1) ∧
      ¬ Intact plainPlatform s log before after (crashed plainPlatform s 0 12)) ∧
    ∃ s s' log h before after, CrashRun s s' log h before after ∧
      s.log.logStartOffset = 0 ∧ Aborts plainPlatform s 0 6 ∧
      (failed plainPlatform s 0 6).log.logStartOffset = 3 ∧
      ¬ IntactObject plainPlatform s before after (failed plainPlatform s 0 6) := by
  constructor
  · obtain ⟨s, s', log, h, before, after, hr, hstart, hbefore, hafter, hfound⟩ := crashRun_unpack
      (Q := fun s before after => s.log.logStartOffset = 0 ∧ before.length = 4 ∧
        after.length = 3 ∧
        (reopen plainPlatform s.log.config (crashed plainPlatform s 0 12)).map
          (fun v => (v.logStart, v.records.length)) = some (3, 1)) (by decide +kernel)
    refine ⟨s, s', log, h, before, after, hr, hbefore, hafter, hfound, ?_⟩
    rintro ⟨rs, hreopen, -⟩
    rw [hreopen, hstart] at hfound
    cases hfound
  · obtain ⟨s, s', log, h, before, after, hr, hstart, haborts, hfailed⟩ := crashRun_unpack
      (Q := fun s _ _ => s.log.logStartOffset = 0 ∧ Aborts plainPlatform s 0 6 ∧
        (failed plainPlatform s 0 6).log.logStartOffset = 3) (by decide +kernel)
    refine ⟨s, s', log, h, before, after, hr, hstart, haborts, hfailed, ?_⟩
    rintro ⟨-, -, -, hsame, -⟩
    rw [hfailed, hstart] at hsame
    cases hsame

end PartitionLog

end Volant.Storage
