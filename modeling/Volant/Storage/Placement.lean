-- SUMMARY: Every log that can be reached has its segments in files of their own, in ascending order, whatever failed before.
import Volant.Storage.Bounds
import Volant.Storage.Reopen

/-!
# Placement

A log operation may fail half way, and the log object stays in use. What holds
of its segments all the same is where they are: each has a file of its own in
the data directory, their base offsets ascend, and no segment begins behind the
log's end. `Reached` takes in any directory that opens and any calls on the log
afterwards.
-/

namespace Volant.Storage

open Exec List

def HasFile (p : Path) (h : Host) : Prop := (h.logs.lookup p).isSome = true

structure Placed (s : LogState) : Prop where
  dir : ∀ g ∈ s.log.segments, g.dir = .data
  ascending : (s.log.segments.map (·.baseOffset)).Pairwise (· < ·)
  base_le : ∀ g ∈ s.log.segments, g.baseOffset ≤ s.log.nextOffset
  next_le : ∀ g ∈ s.log.segments, g.nextOffset ≤ u64Max
  top : s.log.nextOffset ≤ u64Max
  file : ∀ g ∈ s.log.segments, HasFile g.path s.host

/-! ## Files -/

namespace HasFile

variable {p q : Path} {h : Host}

theorem putLog (hp : HasFile p h) (file : Bytes) : HasFile p (h.putLog q file) := by
  unfold HasFile
  by_cases heq : p = q
  · rw [heq, Host.putLog_lookup_self]
    rfl
  · rwa [Host.putLog_lookup_of_ne heq]

theorem of_ne {logs : AList fun _ : Path => Bytes} (hp : HasFile p h)
    (hlook : logs.lookup p = h.logs.lookup p) : (logs.lookup p).isSome = true := by
  rw [hlook]
  exact hp

end HasFile

section

variable {P : Platform} {p : Path}

theorem keeps_nowMs : Keeps (HasFile p) nowMs := fun _ hp => hp

theorem keeps_createWithOptions (dir : Dir) (base : Nat) (t : Int64) (opts : SegmentOptions) :
    Keeps (HasFile p) (Segment.createWithOptions P dir base t opts) := by
  refine .bind ?_ fun _ => .bind (.when fun _ => ?_) fun _ => .bind ?_
    fun _ => .pure _
  · refine .bind (.bind Keeps.get fun h => ?_) fun _ => .ite (fun _ => .throw _) fun _ => .pure _
    split
    · exact .throw _
    · exact .modify fun h hp => hp.putLog []
  · exact .modify fun h hp => hp.putLog _
  · refine .bind Keeps.get fun h => .check fun _ => ?_
    exact .modify fun h hp => hp

theorem keeps_openWithOptions (dir : Dir) (base : Nat) (opts : SegmentOptions) (isSealed : Bool) :
    Keeps (HasFile p) (Segment.openWithOptions P dir base opts isSealed) := by
  refine .bind ?_ fun data => ?_
  · refine .bind Keeps.get fun h => ?_
    split
    · exact .pure _
    · exact .throw _
  · split
    · exact .throw _
    · exact .bind (.modify fun h hp => hp.putLog _) fun _ => .pure _

variable {opts : SegmentOptions}

/-- A new segment has a file that was not there before. -/
theorem placed_createWithOptions {dir : Dir} {base : Nat} {t : Int64}
    {h h' : Host} {g : Segment} (hrun : Segment.createWithOptions P dir base t opts h = .ok g h') :
    ¬ HasFile ⟨dir, base⟩ h ∧ HasFile ⟨dir, base⟩ h' ∧ g.path = ⟨dir, base⟩ := by
  obtain ⟨hnone, hpath, -, hlogs⟩ := Segment.createWithOptions_ok hrun
  refine ⟨?_, ?_, hpath⟩
  · rw [HasFile, hnone]
    exact Bool.false_ne_true
  · rw [HasFile, hlogs, Host.putLog_lookup_self]
    rfl

theorem placed_openWithOptions {dir : Dir} {base : Nat} {isSealed : Bool}
    {h h' : Host} {g : Segment}
    (hrun : Segment.openWithOptions P dir base opts isSealed h = .ok g h') :
    HasFile ⟨dir, base⟩ h' ∧ g.path = ⟨dir, base⟩ := by
  obtain ⟨_, _, _, -, -, rfl, rfl⟩ := Segment.openWithOptions_ok.mp hrun
  exact ⟨congrArg Option.isSome (Host.putLog_lookup_self _ _ _), rfl⟩

end

namespace PartitionLog

variable {P : Platform} {α : Type} {p : Path} {s : LogState} {x : SegM α}

theorem keeps_deleteAll {gs : List Segment} (hp : ∀ g ∈ gs, g.path ≠ p) :
    Keeps (HasFile p) (deleteAll gs) := by
  induction gs with
  | nil => exact .pure _
  | cons g gs ih =>
    refine .bind (.modify fun h hfile => ?_)
      fun _ => ih fun g' hg' => hp g' (mem_cons_of_mem _ hg')
    exact hfile.of_ne (AList.lookup_erase_ne (hp g mem_cons_self).symm)

theorem keeps_runSeg {g : Segment} {I : Host → Prop} (hx : Keeps (fun t => I t.host) x) :
    Keeps I (runSeg g x) := by
  intro h hI
  have hstop := hx ⟨h, g⟩ hI
  unfold runSeg
  split <;> rwa [‹x _ = _›] at hstop

/-! ## Operations of the active segment -/

/-- The operation keeps what sees of a segment only its name and its end, where the end may become
any offset. -/
def Tame (x : SegM α) : Prop :=
  ∀ I : SegState → Prop, Segment.Blind Segment.spanView I →
    (∀ s n, n ≤ u64Max → I s → I { s with seg := { s.seg with nextOffset := n } }) → Keeps I x

theorem tame_seal : Tame Segment.seal := fun _ hI _ => Segment.keeps_seal hI

theorem tame_flush : Tame Segment.flush := fun _ hI _ => Segment.keeps_flush hI.flushes

theorem tame_append (offset : Nat) (m : Message) (t : Int64) :
    Tame (Segment.append P offset m t) := fun _ hI hnext =>
  Segment.keeps_append hI (fun s hs => hnext s _ (min_le_right _ _) hs) m t

theorem tame_appendSurvivors (kept : List Record) : Tame (appendSurvivors P kept) := by
  intro I hI hnext
  induction kept with
  | nil => exact .pure _
  | cons r rs ih =>
    refine .bind ?_ fun _ => ih
    refine .bind Keeps.get fun s => .check fun _ => ?_
    refine .check fun _ => ?_
    exact Segment.keeps_appendEncoded hI (fun s hs => hnext s _ (min_le_right _ _) hs) _ _

/-- The segment has the name of `g`, and its end is an offset. -/
def InPlace (g : Segment) (t : SegState) : Prop :=
  t.seg.path = g.path ∧ t.seg.nextOffset ≤ u64Max

theorem Tame.inPlace (hx : Tame x) (g : Segment) : Keeps (InPlace g) x := by
  refine hx _ ⟨?_, fun _ hs => hs⟩ fun t n hn ht => ⟨ht.1, hn⟩
  intro t g' hview ht
  obtain ⟨hdir, hspan⟩ := Prod.mk.inj hview
  obtain ⟨hbase, hnext⟩ := Prod.mk.inj hspan
  refine ⟨Eq.trans ?_ ht.1, hnext.le.trans ht.2⟩
  exact congrArg₂ Path.mk hdir hbase

theorem Tame.hasFile (hx : Tame x) : Keeps (fun t => HasFile p t.host) x :=
  hx _ ⟨fun _ ht => ht, fun _ ht => .putLog ht _⟩ fun _ _ _ ht => ht

end PartitionLog

/-! ## Steps of the log -/

namespace Placed

open PartitionLog

variable {P : Platform} {α : Type} {s : LogState} {g : Segment}

/-- Other files may come and go. -/
theorem congr_host (hs : Placed s) {h : Host}
    (hfile : ∀ g ∈ s.log.segments, HasFile g.path s.host → HasFile g.path h) :
    Placed { s with host := h } where
  __ := hs
  file g hg := hfile g hg (hs.file g hg)

/-- Segments may go. -/
theorem sublist (hs : Placed s) {gs : List Segment} (hgs : gs.Sublist s.log.segments) :
    Placed { s with log := { s.log with segments := gs } } where
  dir g hg := hs.dir g (hgs.subset hg)
  ascending := hs.ascending.sublist (hgs.map _)
  base_le g hg := hs.base_le g (hgs.subset hg)
  next_le g hg := hs.next_le g (hgs.subset hg)
  top := hs.top
  file g hg := hs.file g (hgs.subset hg)

/-- Segments in different places of the list have different files. -/
theorem path_ne (hs : Placed s) {front back : List Segment}
    (hsplit : s.log.segments = front ++ back) {a b : Segment} (ha : a ∈ front) (hb : b ∈ back) :
    a.path ≠ b.path := by
  have hasc := hs.ascending
  rw [hsplit, map_append] at hasc
  have hlt := (pairwise_append.mp hasc).2.2 _ (mem_map_of_mem ha) _
    (mem_map_of_mem hb)
  intro heq
  exact hlt.ne (congrArg Path.base heq)

theorem path_data (hs : Placed s) (hg : g ∈ s.log.segments) : g.path = ⟨.data, g.baseOffset⟩ := by
  rw [Segment.path, hs.dir g hg]

/-- The log has sealed segments. -/
structure Layered (s : LogState) (first : Segment) (others : List Segment) (active : Segment) :
    Prop where
  placed : Placed s
  split : s.log.segments = (first :: others) ++ [active]

namespace Layered

variable {first active t : Segment} {others : List Segment}

section

variable (hl : Layered s first others active)

include hl

theorem mem_sealed (ht : t ∈ first :: others) : t ∈ s.log.segments := by
  rw [hl.split]
  exact mem_append_left _ ht

theorem mem_active : active ∈ s.log.segments := by
  rw [hl.split]
  exact mem_concat_self

theorem start : s.log.logStartOffset = first.baseOffset := by
  rw [logStartOffset, hl.split]
  rfl

theorem base_lt (ht : t ∈ first :: others) : t.baseOffset < active.baseOffset := by
  have hasc := hl.placed.ascending
  rw [hl.split, map_append] at hasc
  exact (pairwise_append.mp hasc).2.2 _ (mem_map_of_mem ht) _ mem_cons_self

theorem start_lt : s.log.logStartOffset < active.baseOffset := hl.start ▸ hl.base_lt mem_cons_self

theorem start_ne : s.log.logStartOffset ∉ others.map (·.baseOffset) := by
  have hasc := hl.placed.ascending
  rw [hl.split] at hasc
  rw [hl.start]
  exact fun hc => (pairwise_cons.mp hasc).1 _ (by simp [mem_map.mp hc]) |>.false

theorem active_ne : active.baseOffset ∉ (first :: others).map (·.baseOffset) := by
  intro hc
  obtain ⟨t, ht, heq⟩ := mem_map.mp hc
  exact (hl.base_lt ht).ne heq

end

end Layered

/-- The active segment in a new state. -/
theorem setLast (hs : Placed s) {front : List Segment} (hsplit : s.log.segments = front ++ [g])
    {t : SegState} (ht : InPlace g t) (hfile : ∀ p, HasFile p s.host → HasFile p t.host) :
    Placed { host := t.host, log := { s.log with segments := front ++ [t.seg] } } := by
  obtain ⟨hpath, hnext⟩ := ht
  have hdir : t.seg.dir = g.dir := congrArg Path.dir hpath
  have hbase : t.seg.baseOffset = g.baseOffset := congrArg Path.base hpath
  obtain ⟨hdirs, hasc, hbases, hnexts, htop, hfiles⟩ := hs
  rw [hsplit] at hdirs hasc hbases hnexts hfiles
  simp only [forall_mem_append, forall_mem_singleton] at hdirs hbases hnexts hfiles
  refine ⟨?_, ?_, ?_, ?_, htop, ?_⟩
  all_goals simp only [forall_mem_append, forall_mem_singleton]
  · exact ⟨hdirs.1, hdir.trans hdirs.2⟩
  · simpa [hbase] using hasc
  · exact ⟨hbases.1, hbase.le.trans hbases.2⟩
  · exact ⟨hnexts.1, hnext⟩
  · exact ⟨fun a ha => hfile _ (hfiles.1 a ha), hpath ▸ hfile _ hfiles.2⟩

/-- A new active segment at the log's end; its file is new, so no segment begins there yet. -/
theorem push (hs : Placed s) {h : Host} (hpath : g.path = ⟨.data, s.log.nextOffset⟩)
    (hnext : g.nextOffset = s.log.nextOffset) (hnew : ¬ HasFile ⟨.data, s.log.nextOffset⟩ s.host)
    (hfile : ∀ p, HasFile p s.host → HasFile p h) (hg : HasFile g.path h) :
    Placed { host := h, log := { s.log with segments := s.log.segments ++ [g] } } := by
  have hbase : g.baseOffset = s.log.nextOffset := congrArg Path.base hpath
  have hlt : ∀ a ∈ s.log.segments, a.baseOffset < g.baseOffset := by
    intro a ha
    rw [hbase]
    refine lt_of_le_of_ne (hs.base_le a ha) fun heq => hnew ?_
    rw [← heq, ← hs.path_data ha]
    exact hs.file a ha
  refine ⟨?_, ?_, ?_, ?_, hs.top, ?_⟩
  · simp only [forall_mem_append, forall_mem_singleton]
    exact ⟨hs.dir, congrArg Path.dir hpath⟩
  · rw [map_append]
    exact pairwise_append.mpr ⟨hs.ascending, by simp, by simpa using hlt⟩
  · simp only [forall_mem_append, forall_mem_singleton]
    exact ⟨hs.base_le, hbase.le⟩
  · simp only [forall_mem_append, forall_mem_singleton]
    exact ⟨hs.next_le, hnext.le.trans hs.top⟩
  · simp only [forall_mem_append, forall_mem_singleton]
    exact ⟨fun a ha => hfile _ (hs.file a ha), hg⟩

end Placed

/-- The same, for a log that ends at `n`. -/
def PlacedTo (n : Nat) (s : LogState) : Prop := Placed s ∧ s.log.nextOffset = n

namespace PartitionLog

variable {P : Platform} {α : Type} {n : Nat} {p : Path} {h h' : Host}

theorem placed_liftHost {x : HostM α} (hx : ∀ p, p.dir = .data → Keeps (HasFile p) x) :
    Keeps (PlacedTo n) (liftHost x) := by
  intro s hs
  rw [stop_liftHost]
  exact ⟨hs.1.congr_host fun g hg => hx g.path (hs.1.dir g hg) s.host, hs.2⟩

theorem placed_onActive (missing : String) {x : SegM α} (hx : Tame x) :
    Keeps (PlacedTo n) (onActive missing x) := by
  intro s hs
  obtain hnil | ⟨front, g, hsplit⟩ := eq_nil_or_concat' s.log.segments
  · rw [stop_onActive_nil missing x hnil]
    exact hs
  have hplace := hx.inPlace g ⟨s.host, g⟩
    ⟨rfl, hs.1.next_le g (by rw [hsplit]; exact mem_concat_self)⟩
  rw [stop_onActive missing x hsplit]
  exact ⟨hs.1.setLast hsplit hplace fun p => hx.hasFile (p := p) ⟨s.host, g⟩, hs.2⟩

theorem placed_create (now : Int64) (opts : SegmentOptions) :
    Keeps (PlacedTo n) (do
      let seg ← liftHost (Segment.createWithOptions P .data n now opts)
      modifyLog fun log => { log with segments := log.segments ++ [seg] }) := by
  intro s hs
  have hkeeps := placed_liftHost (n := n) (x := Segment.createWithOptions P .data n now opts)
    (fun p _ => keeps_createWithOptions _ _ _ _) s hs
  refine stop_bind (fun g t hrun => ?_) fun e t hrun => ?_
  · obtain ⟨h, hcreate, rfl⟩ := liftHost_ok hrun
    obtain ⟨hnew, hgfile, hpath⟩ := placed_createWithOptions hcreate
    obtain ⟨-, hnext⟩ := bounds_createWithOptions hcreate
    obtain ⟨hs, rfl⟩ := hs
    refine ⟨hs.push hpath hnext hnew (fun p hp => ?_) (hpath ▸ hgfile), rfl⟩
    have hstop := keeps_createWithOptions (P := P) (p := p) .data s.log.nextOffset now opts s.host hp
    rwa [hcreate] at hstop
  · rw [hrun] at hkeeps
    exact hkeeps

/-- What keeps the log's end, wherever it is. -/
theorem placed_of_to {x : LogM α} (hx : ∀ n, Keeps (PlacedTo n) x) : Keeps Placed x :=
  fun s hs => (hx s.log.nextOffset s ⟨hs, rfl⟩).1

theorem stands_placed : Stands P Placed where
  clock := placed_of_to fun n => placed_liftHost fun p _ => keeps_nowMs
  count _ := .modify fun s hs =>
    ⟨hs.dir, hs.ascending, hs.base_le, hs.next_le, hs.top, hs.file⟩
  flushActive := placed_of_to fun n => placed_onActive _ tame_flush
  rollActive s _ _ hs := by
    refine stop_get_bind ?_
    suffices h : Keeps (PlacedTo s.log.nextOffset) _ from (h s ⟨hs, rfl⟩).1
    refine (placed_onActive _ tame_seal).bind fun _ => ?_
    exact (placed_liftHost fun p _ => keeps_nowMs).bind fun now => placed_create now _
  write message timestampMs s hs := by
    refine stop_get_bind ?_
    refine (placed_onActive _ (tame_append s.log.nextOffset message timestampMs)).andThen
      (fun t ht => ht.1) (fun record t ht => ?_) ⟨hs, rfl⟩
    -- the log's end moves forward
    obtain ⟨ht, hend⟩ := ht
    have hgrow : t.log.nextOffset ≤ Offset.next s.log.nextOffset := by
      have := hs.top
      unfold Offset.next saturatingAdd
      omega
    exact ⟨ht.dir, ht.ascending, fun g hg => (ht.base_le g hg).trans hgrow, ht.next_le,
      min_le_right _ _, ht.file⟩

/-! ## Prefix deletion -/

theorem placed_deleteRecords (b : Nat) : Keeps Placed (deleteRecords P b) := by
  intro s hs
  refine stop_get_bind ?_
  generalize (s.log.segments.takeWhile (·.nextOffset ≤ b)).length = k
  by_cases hzero : k = 0
  · rw [if_pos hzero]
    exact hs
  rw [if_neg hzero]
  let dropped : LogState := { s with log := { s.log with segments := s.log.segments.drop k } }
  change Placed (stop ((liftHost _ >>= _) dropped))
  have hdropped : PlacedTo s.log.nextOffset dropped := ⟨hs.sublist (drop_sublist k _), rfl⟩
  have hsplit : s.log.segments = s.log.segments.take k ++ s.log.segments.drop k :=
    (take_append_drop k _).symm
  -- the files of the segments that stay are not among those that go
  have hdeleted : PlacedTo s.log.nextOffset
      (stop (liftHost (deleteAll (s.log.segments.take k)) dropped)) := by
    rw [stop_liftHost]
    refine ⟨hdropped.1.congr_host fun g hg => ?_, rfl⟩
    exact keeps_deleteAll (fun a ha => hs.path_ne hsplit ha hg) s.host
  refine stop_bind (fun _ t hrun => ?_) fun e t hrun => ?_
  · rw [hrun] at hdeleted
    suffices h : Keeps (PlacedTo s.log.nextOffset) _ from (h t hdeleted).1
    refine .bind (.when fun _ => ?_) fun _ => .bind Keeps.get fun _ => .pure _
    exact (placed_liftHost fun p _ => keeps_nowMs).bind fun now => placed_create now _
  · rw [hrun] at hdeleted
    exact hdeleted.1

/-! ## Compaction -/

/-- The temporary segment is built outside the data directory. -/
theorem keeps_buildCompacted (hp : p.dir = .data) (log : PartitionLog) (kept : List Record)
    (activeBase : Nat) : Keeps (HasFile p) (buildCompacted P log kept activeBase) := by
  refine .bind (.modify fun h hfile => ?_) fun _ => .bind keeps_nowMs fun now => ?_
  · refine hfile.of_ne (AList.lookup_erase_ne ?_)
    rintro rfl
    cases hp
  refine (keeps_createWithOptions _ _ _ _).bind fun seg => ?_
  refine .bind (keeps_runSeg ?_) fun _ => .pure _
  refine (tame_appendSurvivors kept).hasFile.bind fun _ => .bind ?_ fun _ =>
    tame_seal.hasFile
  refine .bind Keeps.get fun s => .check fun _ => ?_
  exact .modify fun t ht => ht

theorem keeps_renameCompacted (hp : p.dir = .data) (base : Nat) :
    Keeps (HasFile p) (renameCompacted base) := by
  refine .bind Keeps.get fun h => ?_
  split
  · exact .throw _
  refine .modify fun h hfile => ?_
  by_cases heq : p = ⟨.data, base⟩
  · rw [HasFile, heq, AList.lookup_insert]
    rfl
  · refine hfile.of_ne ((AList.lookup_insert_ne heq).trans (AList.lookup_erase_ne ?_))
    rintro rfl
    cases hp

variable {sealedSegs : List Segment}

theorem keeps_swapCompacted (hp : p.dir = .data) (log : PartitionLog) (activeBase : Nat) (hother : ∀ g ∈ sealedSegs, g.path ≠ p) :
    Keeps (HasFile p) (swapCompacted P log activeBase sealedSegs) := by
  refine (keeps_deleteAll hother).bind fun _ => (keeps_renameCompacted hp _).bind fun _ => ?_
  refine (keeps_openWithOptions _ _ _ _).bind fun opened => keeps_runSeg ?_
  refine .bind Keeps.get fun s => .check fun _ => ?_
  exact .modify fun t ht => ht

variable {log : PartitionLog}

/-- The compacted segment is in the data directory when the swap is through. -/
theorem placed_swapCompacted {activeBase : Nat}
    {g : Segment} (hrun : swapCompacted P log activeBase sealedSegs h = .ok g h') :
    g.path = ⟨.data, log.logStartOffset⟩ ∧ HasFile g.path h' := by
  obtain ⟨_, _, _, _, opened, -, -, hopen, -, rfl⟩ := swapCompacted_ok hrun
  obtain ⟨hfile, hpath⟩ := placed_openWithOptions hopen
  exact ⟨hpath, hpath ▸ hfile⟩

/-- The compacted segment in front of the active one. -/
theorem placed_compacted {s : LogState} {first active g : Segment} {others : List Segment}
    (hl : Placed.Layered s first others active)
    (hrun : swapCompacted P s.log active.baseOffset (first :: others) h = .ok g h')
    (hfile : HasFile active.path h') : Placed ⟨h', { s.log with segments := [g, active] }⟩ := by
  obtain ⟨hbase, hnext⟩ := bounds_swapCompacted hrun
  obtain ⟨hpath, hgfile⟩ := placed_swapCompacted hrun
  have hlt : g.baseOffset < active.baseOffset := hbase ▸ hl.start_lt
  have hs := hl.placed
  have hle := hs.base_le active hl.mem_active
  refine ⟨?_, ?_, ?_, ?_, hs.top, ?_⟩
  · simpa using ⟨(congrArg Path.dir hpath : g.dir = .data), hs.dir active hl.mem_active⟩
  · simpa using hlt
  · simpa using ⟨hlt.le.trans hle, hle⟩
  · simpa using ⟨hnext.le.trans (hle.trans hs.top), hs.next_le active hl.mem_active⟩
  · simpa using ⟨hgfile, hfile⟩

theorem placed_compactSealed : Keeps Placed (compactSealed P) := by
  intro s hs
  refine stop_get_bind ?_
  cases hlast : s.log.segments.getLast? with
  | none => exact hs
  | some active =>
  cases hsealed : s.log.segments.dropLast with
  | nil => exact hs
  | cons first others =>
  cases hread : readSealed P s.host (first :: others) with
  | error e => exact hs
  | ok input =>
  dsimp only
  split_ifs
  · exact hs
  · exact hs
  have hl : Placed.Layered s first others active := by
    refine ⟨hs, ?_⟩
    obtain ⟨front, hfront⟩ := getLast?_eq_some_iff.mp hlast
    rw [hfront, dropLast_concat] at hsealed
    rw [hfront, hsealed]
  have hbuild := placed_liftHost (n := s.log.nextOffset)
    (x := buildCompacted P s.log (survivors input) active.baseOffset)
    (fun p hp => keeps_buildCompacted hp _ _ _) s ⟨hs, rfl⟩
  refine stop_bind (fun _ t hrun => ?_) fun e t hrun => ?_
  swap
  · rw [hrun] at hbuild
    exact hbuild.1
  rw [hrun] at hbuild
  obtain ⟨h1, -, rfl⟩ := liftHost_ok hrun
  -- from here on the log holds the active segment alone, until the swap is through
  let alone : LogState := ⟨h1, { s.log with segments := [active] }⟩
  change Placed (stop ((liftHost _ >>= _) alone))
  have halone : Placed alone := by
    refine hbuild.1.sublist ?_
    exact singleton_sublist.mpr hl.mem_active
  have hkeep := keeps_swapCompacted (P := P) (p := active.path) (hs.dir active hl.mem_active) s.log
    active.baseOffset (fun g hg => hs.path_ne hl.split hg mem_cons_self) h1
    (halone.file active mem_cons_self)
  refine stop_bind (fun g u hswap => ?_) fun e u hswap => ?_
  · obtain ⟨h2, hcompact, rfl⟩ := liftHost_ok hswap
    rw [hcompact] at hkeep
    have hplaced := placed_compacted hl hcompact hkeep
    exact hplaced
  · have hstop := stop_liftHost (swapCompacted P s.log active.baseOffset (first :: others)) alone
    rw [hswap] at hstop
    rw [show u = _ from hstop]
    refine halone.congr_host fun g hg _ => ?_
    rw [mem_singleton.mp hg]
    exact hkeep

/-! ## Opening -/

theorem baseOffset_decodeHeader {buf : Bytes} {header : SegmentHeader}
    (h : decodeHeader buf = .ok header) : header.baseOffset ≤ u64Max := by
  unfold decodeHeader at h
  split_ifs at h
  simp only at h
  split_ifs at h
  cases h
  have hlt := LittleEndian.decode_lt ((buf.drop 8).take 8)
  have hlen : ((buf.drop 8).take 8).length ≤ 8 := length_take_le 8 _
  have hpow := Nat.pow_le_pow_right (show 0 < 256 by decide) hlen
  simp only [u64Max]
  omega

/-- The base offset of a segment that opens is written in its header. -/
theorem base_le_of_recoverFile {crc : Bytes → UInt32} {data : Bytes} {base interval : Nat}
    {r : SegmentHeader × Segment.Recovered}
    (h : Segment.recoverFile crc data base interval = .ok r) : base ≤ u64Max := by
  obtain ⟨hheader, rfl, -⟩ := recoverFile_ok h
  exact baseOffset_decodeHeader hheader

variable {config : StorageConfig}

theorem placed_openSegments {bases : List Nat} {segs : List Segment}
    (hrun : openSegments P config bases h = .ok segs h') :
    segs.map (·.path) = bases.map (Path.mk .data) ∧ (∀ b ∈ bases, b ≤ u64Max) ∧
      (∀ b ∈ bases, HasFile ⟨.data, b⟩ h') ∧ ∀ p, HasFile p h → HasFile p h' := by
  induction bases generalizing h h' segs with
  | nil =>
    obtain ⟨rfl, rfl⟩ := pure_ok.mp hrun
    exact ⟨rfl, by simp, by simp, fun _ hp => hp⟩
  | cons base rest ih =>
    obtain ⟨g, h1, hopen, hrun⟩ := bind_ok.mp hrun
    obtain ⟨gs, h2, hrest, hrun⟩ := bind_ok.mp hrun
    obtain ⟨rfl, rfl⟩ := pure_ok.mp hrun
    obtain ⟨hpaths, hbases, hfiles, hkeep⟩ := ih hrest
    obtain ⟨hfile, hpath⟩ := placed_openWithOptions hopen
    obtain ⟨-, _, _, _, hrecover, -⟩ := bounds_openWithOptions hopen
    refine ⟨?_, ?_, ?_, ?_⟩
    · rw [map_cons, map_cons, hpaths, hpath]
    · rw [forall_mem_cons]
      exact ⟨base_le_of_recoverFile hrecover, hbases⟩
    · rw [forall_mem_cons]
      exact ⟨hkeep _ hfile, hfiles⟩
    · intro p hp
      have hstop := keeps_openWithOptions (P := P) (p := p) .data base
        (config.segmentOptions !rest.isEmpty) (!rest.isEmpty) h hp
      rw [hopen] at hstop
      exact hkeep p hstop

theorem placed_open (hrun : PartitionLog.open P config h = .ok log h') : Placed ⟨h', log⟩ := by
  obtain ⟨-, now, _, g, -, hcreate, rfl⟩ | ⟨hlist, segs, hopen, hover, rfl⟩ := open_cases hrun
  · obtain ⟨hbase, hnext⟩ := bounds_createWithOptions hcreate
    obtain ⟨-, hfile, hpath⟩ := placed_createWithOptions hcreate
    have hdir : g.dir = .data := congrArg Path.dir hpath
    have htop : g.nextOffset ≤ u64Max := hnext.le.trans (Nat.zero_le _)
    refine ⟨?_, pairwise_singleton _ _, ?_, ?_, htop, ?_⟩
    · simpa using hdir
    · simpa using (hbase.trans hnext.symm).le
    · simpa using htop
    · simpa [hpath] using hfile
  · obtain ⟨hpaths, hbases, hfiles, -⟩ := placed_openSegments hopen
    obtain ⟨last, hlast, hspans, hle⟩ := bounds_opened hbases hlist hopen hover
    have hmem : ∀ g ∈ segs, ∃ b ∈ listSegmentBases h, g.path = ⟨.data, b⟩ := by
      intro g hg
      obtain ⟨b, hb, heq⟩ := mem_map.mp (hpaths ▸ mem_map_of_mem hg)
      exact ⟨b, hb, heq.symm⟩
    simp only [hlast, Option.map_some, Option.getD_some]
    refine ⟨?_, ?_, hle, fun g hg => (hspans g hg).2, (hspans last (mem_of_getLast? hlast)).2,
      ?_⟩
    · intro g hg
      obtain ⟨b, -, hpath⟩ := hmem g hg
      exact congrArg Path.dir hpath
    · rw [show segs.map (·.baseOffset) = listSegmentBases h by
        simpa [Function.comp_def, Segment.path] using congrArg (map Path.base) hpaths]
      exact sorted_listSegmentBases h
    · intro g hg
      obtain ⟨b, hb, hpath⟩ := hmem g hg
      rw [hpath]
      exact hfiles b hb

/-! ## Reachable logs -/

/-- The public operations that change a log. -/
inductive Call where
  | append (message : Message)
  | appendBatch (messages : List Message)
  | appendBatchUncommitted (messages : List Message)
  | appendWithOffset (offset : Nat) (message : Message)
  | appendRecordsWithOffsets (records : List Record)
  | flush
  | deleteRecords (beforeOffset : Nat)
  | applyRetention
  | compactSealed

def call (P : Platform) : Call → LogM Unit
  | .append m => do let _ ← append P m
  | .appendBatch ms => do let _ ← appendBatch P ms
  | .appendBatchUncommitted ms => do let _ ← appendBatchUncommitted P ms
  | .appendWithOffset o m => do let _ ← appendWithOffset P o m
  | .appendRecordsWithOffsets rs => do let _ ← appendRecordsWithOffsets P rs
  | .flush => flush
  | .deleteRecords b => do let _ ← deleteRecords P b
  | .applyRetention => applyRetention P
  | .compactSealed => do let _ ← compactSealed P

/-! A call keeps an invariant that stands appends and that prefix deletions and compactions keep. -/

section Call

variable {I : LogState → Prop} (hdelete : ∀ b, Keeps I (deleteRecords P b))

theorem keeps_ifSome {value : Option Nat} {body : Nat → LogM Unit} (hbody : ∀ k, Keeps I (body k)) :
    Keeps I (ifSome value body) := by
  cases value with
  | some k => exact hbody k
  | none => exact .pure _

include hdelete

theorem keeps_retainByTime_of (hclock : Keeps I (liftHost nowMs)) (ms : Nat) :
    Keeps I (retainByTime P ms) := by
  refine hclock.bind fun now => .bind Keeps.get fun s => ?_
  exact keeps_ifSome fun before =>
    Keeps.when fun _ => (hdelete before).bind fun _ => .pure _

theorem keeps_retainBySize_of (limit fuel : Nat) : Keeps I (retainBySize P limit fuel) := by
  induction fuel with
  | zero => exact .pure _
  | succ fuel ih =>
    refine .bind Keeps.get fun s => .ite (fun _ => .pure _) fun _ => ?_
    split
    · exact .pure _
    · exact (hdelete _).bind fun _ => ih

theorem Stands.applyRetention (hI : Stands P I) (hcompact : Keeps I (compactSealed P)) :
    Keeps I (applyRetention P) := by
  refine .bind Keeps.get fun s => ?_
  refine (keeps_ifSome (keeps_retainByTime_of hdelete hI.clock)).bind fun _ => ?_
  refine .bind Keeps.get fun t => ?_
  refine (keeps_ifSome fun limit => keeps_retainBySize_of hdelete limit _).bind fun _ => ?_
  exact .when fun _ => hcompact.bind fun _ => .pure _

theorem Stands.call (hI : Stands P I) (hcompact : Keeps I (compactSealed P)) (c : Call) :
    Keeps I (call P c) := by
  cases c with
  | append m =>
    refine .bind ?_ fun _ => .pure _
    exact (hI.appendOne m).bind fun _ => (hI.finishAppend 1 true).bind fun _ => .pure _
  | appendBatch ms => exact (hI.appendBatchInner ms true).bind fun _ => .pure _
  | appendBatchUncommitted ms =>
    exact (hI.appendBatchInner ms false).bind fun _ => .pure _
  | appendWithOffset o m => exact (hI.appendWithOffset o m).bind fun _ => .pure _
  | appendRecordsWithOffsets rs =>
    exact (hI.appendRecordsWithOffsets rs).bind fun _ => .pure _
  | flush => exact hI.flush
  | deleteRecords b => exact (hdelete b).bind fun _ => .pure _
  | applyRetention => exact hI.applyRetention hdelete hcompact
  | compactSealed => exact hcompact.bind fun _ => .pure _

end Call

/-- The logs that calls lead to, from any directory that opens. A call may fail; the setters of the
configuration may be called in between. -/
inductive Reached (P : Platform) : LogState → Prop where
  | opened {config : StorageConfig} {h h' : Host} {log : PartitionLog} :
      PartitionLog.open P config h = .ok log h' → Reached P ⟨h', log⟩
  | configured {s : LogState} (config : StorageConfig) :
      Reached P s → Reached P { s with log := { s.log with config := config } }
  | called {s : LogState} (c : Call) : Reached P s → Reached P (stop (call P c s))

theorem Reached.placed {s : LogState} (h : Reached P s) : Placed s := by
  induction h with
  | opened hrun => exact placed_open hrun
  | configured config _ ih =>
    exact ⟨ih.dir, ih.ascending, ih.base_le, ih.next_le, ih.top, ih.file⟩
  | called c _ ih => exact stands_placed.call placed_deleteRecords placed_compactSealed c _ ih

end PartitionLog

end Volant.Storage
