-- SUMMARY: How log operations move the offsets at which segments begin and end, whether they fail or not.
import Volant.Storage.LogInv
import Mathlib.Data.List.TakeWhile

/-!
# Log bounds

What appends, prefix deletions, retention and compaction do to the start and
the end of a log. Only the offsets at which the segments begin and end matter
here, not what is in them, so nothing is assumed of the files and a failing
operation is covered as well.

The bounds are measured against an offset `mark` inside the log. In `Covers
mark log` each segment begins where the one before it has ended, or below the
mark. A prefix deletion then keeps the log start at or below the mark if the
segments it drops end there.
-/

namespace Volant.Storage

open Exec List

/-! ## Segments -/

/-- The segment begins at `base` and ends at `least` or later. -/
def Spans (base least : Nat) (t : SegState) : Prop :=
  t.seg.baseOffset = base ∧ least ≤ t.seg.nextOffset

namespace Segment

theorem blind_spans (base least : Nat) : Blind spanView (Spans base least) where
  seg h hs := by
    have hspan := congrArg Prod.snd h
    exact ⟨(congrArg Prod.fst hspan).trans hs.1, hs.2.trans (congrArg Prod.snd hspan).ge⟩
  file _ hs := hs

/-- A successful append leaves the segment's end behind its record. -/
theorem nextOffset_append {P : Platform} {offset : Nat} {message : Message} {timestampMs : Int64}
    {s t : SegState} {r : Record} (h : append P offset message timestampMs s = .ok r t) :
    Offset.next offset ≤ t.seg.nextOffset := by
  obtain ⟨-, -, hencoded⟩ := append_ok h
  exact (congrArg Book.nextOffset (book_appendEncoded hencoded).2).ge

end Segment

/-! ## Chains of segments -/

/-- Where the first segment begins, or the log's end if there is none. -/
def startOr (top : Nat) : List Segment → Nat
  | [] => top
  | g :: _ => g.baseOffset

/-- Each segment reaches to the next one, or to the end of the log, or the gap behind it lies below
the mark. -/
def Linked (mark top : Nat) : List Segment → Prop
  | [] => True
  | g :: rest => startOr top rest ≤ max g.nextOffset mark ∧ Linked mark top rest

namespace Linked

variable {mark top : Nat} {g g' : Segment} {gs : List Segment}

theorem drop (h : Linked mark top gs) (k : Nat) : Linked mark top (gs.drop k) := by
  induction k generalizing gs with
  | zero => exact h
  | succ k ih =>
    cases gs with
    | nil => exact h
    | cons g rest => exact ih h.2

/-- Without segments that end at or below the mark, the rest still begins there. -/
theorem startOr_drop (h : Linked mark top gs) (hstart : startOr top gs ≤ mark) (k : Nat)
    (hends : ∀ g ∈ gs.take k, g.nextOffset ≤ mark) : startOr top (gs.drop k) ≤ mark := by
  induction k generalizing gs with
  | zero => exact hstart
  | succ k ih =>
    cases gs with
    | nil => exact hstart
    | cons g rest =>
      have hend := hends g (by simp)
      have hlink := h.1
      refine ih h.2 (by omega) fun g' hg' => hends g' ?_
      exact mem_cons_of_mem g hg'

theorem mono {mark' : Nat} (h : Linked mark top gs) (hle : mark ≤ mark') : Linked mark' top gs := by
  induction gs with
  | nil => trivial
  | cons g rest ih =>
    have hlink := h.1
    exact ⟨by omega, ih h.2⟩

/-- The segments in front of the last one end where it begins. -/
theorem concat_iff : Linked mark top (gs ++ [g]) ↔
    Linked mark g.baseOffset gs ∧ top ≤ max g.nextOffset mark := by
  induction gs with
  | nil => simp [Linked, startOr]
  | cons a rest ih =>
    have hstart : startOr top (rest ++ [g]) = startOr g.baseOffset rest := by
      cases rest with
      | nil => rfl
      | cons b rest => rfl
    rw [cons_append, Linked, hstart, ih, Linked, and_assoc]

/-- The last segment in a new state, with the log's end in reach. -/
theorem set_last {top' : Nat} (h : Linked mark top (gs ++ [g]))
    (hbase : g'.baseOffset = g.baseOffset) (htop : top' ≤ max g'.nextOffset mark) :
    Linked mark top' (gs ++ [g']) :=
  concat_iff.mpr ⟨hbase ▸ (concat_iff.mp h).1, htop⟩

theorem of_le (htop : top ≤ mark) (h : ∀ g ∈ gs, g.baseOffset ≤ mark) : Linked mark top gs := by
  induction gs with
  | nil => trivial
  | cons g rest ih =>
    refine ⟨le_max_of_le_right ?_, ih fun g' hg' => h g' (mem_cons_of_mem _ hg')⟩
    cases rest with
    | nil => exact htop
    | cons b rest => exact h b (by simp)

end Linked

/-- The log begins at or below the mark and ends at or above it, and no gap between its segments is
above it. -/
structure Covers (mark : Nat) (log : PartitionLog) : Prop where
  top : log.nextOffset ≤ u64Max
  start_le : log.logStartOffset ≤ mark
  le_end : mark ≤ log.nextOffset
  linked : Linked mark log.nextOffset log.segments

namespace Covers

variable {mark : Nat} {log : PartitionLog}

theorem startOr_le (h : Covers mark log) (hne : log.segments ≠ []) :
    startOr log.nextOffset log.segments ≤ mark := by
  obtain ⟨g, rest, hsegments⟩ := exists_cons_of_ne_nil hne
  have hstart := h.start_le
  rw [PartitionLog.logStartOffset, hsegments] at hstart
  rw [hsegments]
  exact hstart

theorem mono {mark' : Nat} (h : Covers mark log) (hle : mark ≤ mark')
    (hend : mark' ≤ log.nextOffset) : Covers mark' log :=
  ⟨h.top, h.start_le.trans hle, hend, h.linked.mono hle⟩

/-- The bounds of a log depend only on its segments and its end. -/
theorem congr {log' : PartitionLog} (h : Covers mark log) (hsegments : log'.segments = log.segments)
    (hnext : log'.nextOffset = log.nextOffset) : Covers mark log' := by
  obtain ⟨htop, hstart, hend, hlinked⟩ := h
  refine ⟨hnext ▸ htop, ?_, hnext ▸ hend, ?_⟩
  · rwa [PartitionLog.logStartOffset, hsegments]
  · rwa [hsegments, hnext]

end Covers

/-- The bounds of the log in a state. -/
def Covered (mark : Nat) (s : LogState) : Prop := Covers mark s.log

/-- The same, for a log of at most `count` segments. -/
def CoveredBy (mark count : Nat) (s : LogState) : Prop :=
  Covered mark s ∧ s.log.segments.length ≤ count

/-- The log after segments were dropped from its front: a suffix of it, or at most one segment. -/
def Shortened (mark : Nat) (segs : List Segment) (s : LogState) : Prop :=
  Covered mark s ∧ ((∃ k, s.log.segments = segs.drop k) ∨ s.log.segments.length ≤ 1)

namespace PartitionLog

variable {P : Platform} {mark : Nat} {α : Type} {s : LogState} {base interval : Nat} {h h' : Host}
  {g : Segment} {log : PartitionLog} {segs : List Segment} {crc : Bytes → UInt32} {data : Bytes}
  {acc : Segment.Recovered}

/-! ## Appends -/

theorem stop_liftHost (x : HostM α) (s : LogState) :
    stop (liftHost x s) = { s with host := stop (x s.host) } := by
  unfold liftHost
  cases x s.host with
  | ok a h => rfl
  | error e h => rfl

variable {I : PartitionLog → Prop}

theorem keeps_liftHost (x : HostM α) : Keeps (fun s => I s.log) (liftHost x) := by
  intro s hs
  rw [stop_liftHost]
  exact hs

theorem stop_onActive (missing : String) (x : SegM α) {front : List Segment}
    (hsplit : s.log.segments = front ++ [g]) :
    stop (onActive missing x s) = ⟨(stop (x ⟨s.host, g⟩)).host,
      { s.log with segments := front ++ [(stop (x ⟨s.host, g⟩)).seg] }⟩ := by
  unfold onActive
  rw [hsplit, getLast?_concat, dropLast_concat]
  dsimp only
  cases x ⟨s.host, g⟩ with
  | ok a t => rfl
  | error e t => rfl

/-- Without an active segment nothing happens. -/
theorem stop_onActive_nil (missing : String) (x : SegM α) (hnil : s.log.segments = []) :
    stop (onActive missing x s) = s := by
  unfold onActive
  rw [hnil]
  rfl

theorem keeps_modifyLog {f : PartitionLog → PartitionLog}
    (h : ∀ log, I log → I (f log)) : Keeps (fun s => I s.log) (modifyLog f) :=
  Keeps.modify fun s hs => h s.log hs

/-- An operation on the active segment that keeps its beginning, and its end as far as `bound`. -/
theorem covers_onActive (missing : String) {x : SegM α} {bound : Nat}
    (hx : ∀ base least, least ≤ bound → Keeps (Spans base least) x) (h : Covered mark s)
    (hbound : s.log.nextOffset ≤ bound) : Covered mark (stop (onActive missing x s)) ∧
      (stop (onActive missing x s)).log.nextOffset = s.log.nextOffset := by
  obtain hnil | ⟨front, g, hsegments⟩ := eq_nil_or_concat' s.log.segments
  · rw [stop_onActive_nil missing x hnil]
    exact ⟨h, rfl⟩
  have hstop := hx g.baseOffset (min g.nextOffset bound) (min_le_right _ _) ⟨s.host, g⟩
    ⟨rfl, min_le_left _ _⟩
  rw [stop_onActive missing x hsegments]
  obtain ⟨htop, hstart, hend, hlinked⟩ := h
  rw [hsegments] at hlinked
  rw [logStartOffset, hsegments] at hstart
  refine ⟨⟨htop, ?_, hend, hlinked.set_last hstop.1 ?_⟩, rfl⟩
  · rw [logStartOffset]
    cases front with
    | nil => simpa [hstop.1] using hstart
    | cons a rest => simpa using hstart
  · have hreach := (Linked.concat_iff.mp hlinked).2
    have hleast := hstop.2
    dsimp only
    omega

variable {opts : SegmentOptions}

theorem bounds_createWithOptions {dir : Dir} {createdAtMs : Int64}
    (hrun : Segment.createWithOptions P dir base createdAtMs opts h = .ok g h') :
    g.baseOffset = base ∧ g.nextOffset = base := by
  obtain ⟨-, hpath, hnext, -⟩ := Segment.createWithOptions_ok hrun
  exact ⟨congrArg Path.base hpath, hnext⟩

/-- The new active segment at the end of the log. -/
theorem covers_push (h : Covers mark log) (hbase : g.baseOffset = log.nextOffset)
    (hnext : g.nextOffset = log.nextOffset) (hstart : log.segments = [] → log.nextOffset ≤ mark) :
    Covers mark { log with segments := log.segments ++ [g] } := by
  refine ⟨h.top, ?_, h.le_end, Linked.concat_iff.mpr ⟨hbase ▸ h.linked, ?_⟩⟩
  swap
  · exact hnext.ge.trans (le_max_left _ _)
  rw [logStartOffset]
  cases hsegments : log.segments with
  | nil => simpa [hbase] using hstart hsegments
  | cons a rest => simpa [logStartOffset, hsegments] using h.start_le

/-- Creating the active segment; failing leaves the log as it is. -/
theorem covers_create {n : Nat} (opts : SegmentOptions) (createdAtMs : Int64) (h : Covered mark s)
    (hn : s.log.nextOffset = n) (hstart : s.log.segments = [] → n ≤ mark) :
    CoveredBy mark (s.log.segments.length + 1) (stop ((do
      let seg ← liftHost (Segment.createWithOptions P .data n createdAtMs opts)
      modifyLog fun log => { log with segments := log.segments ++ [seg] }) s)) := by
  refine stop_bind (fun g t hrun => ?_) fun e t hrun => ?_
  · obtain ⟨_, hcreate, rfl⟩ := liftHost_ok hrun
    obtain ⟨hbase, hnext⟩ := bounds_createWithOptions hcreate
    subst hn
    exact ⟨covers_push h hbase hnext hstart, (length_append).le⟩
  · have hkept := @keeps_liftHost _ (· = s.log)
      (Segment.createWithOptions P .data n createdAtMs opts) s rfl
    rw [hrun] at hkept
    refine ⟨h.congr (congrArg segments hkept) (congrArg nextOffset hkept), ?_⟩
    exact (congrArg (fun log => log.segments.length) hkept).le.trans (Nat.le_succ _)

/-- What an invariant has to stand for every append to keep it. -/
structure Stands (P : Platform) (I : LogState → Prop) : Prop where
  clock : Keeps I (liftHost nowMs)
  count : ∀ f : PartitionLog → Nat, Keeps I (modifyLog fun log =>
    { log with appendsSinceFlush := f log })
  flushActive : Keeps I (onActive "" Segment.flush)
  rollActive : ∀ s n, s.log.needsRoll n = true → I s → I (stop (roll P s))
  write : ∀ message timestampMs, Keeps I (do
    let offset := (← get).log.nextOffset
    let record ← onActive "no active segment" (Segment.append P offset message timestampMs)
    modifyLog fun log => { log with nextOffset := Offset.next offset }
    pure record)

namespace Stands

variable {I : LogState → Prop} (hI : Stands P I)

include hI

theorem appendOne (message : Message) : Keeps I (appendOne P message) := by
  refine .bind ?_ fun timestampMs s hs => ?_
  · unfold timestampOf
    split
    · exact .pure _
    · exact hI.clock
  refine stop_get_bind (stop_andThen (J := I) ?_ (fun _ ht => ht) fun _ =>
    hI.write message timestampMs)
  cases hroll : s.log.needsRoll (encodedRecordSize message) with
  | true => exact hI.rollActive s _ hroll hs
  | false => exact hs

theorem flush : Keeps I flush :=
  Keeps.bind Keeps.get fun _ => .bind (.when fun _ => hI.flushActive) fun _ => hI.count _

theorem finishAppend (n : Nat) (waitGroup : Bool) : Keeps I (finishAppend n waitGroup) :=
  (hI.count _).bind fun _ => .bind Keeps.get fun _ => .when fun _ => hI.flush

theorem appendEach (messages : List Message) : Keeps I (appendEach P messages) := by
  induction messages with
  | nil => exact .pure _
  | cons m ms ih => exact (hI.appendOne m).bind fun _ => ih.bind fun _ => .pure _

theorem appendBatchInner (messages : List Message) (waitGroup : Bool) :
    Keeps I (appendBatchInner P messages waitGroup) := by
  refine (hI.appendEach messages).bind fun records => .bind ?_ fun _ => .pure _
  exact .when fun _ => hI.finishAppend _ waitGroup

theorem appendWithOffset (offset : Nat) (message : Message) :
    Keeps I (appendWithOffset P offset message) := by
  refine .bind Keeps.get fun s => .check fun _ => ?_
  exact (hI.appendOne message).bind fun _ => (hI.finishAppend 1 false).bind fun _ => .pure _

theorem appendRecordsWithOffsets (records : List Record) :
    Keeps I (appendRecordsWithOffsets P records) := by
  induction records with
  | nil => exact .pure _
  | cons r rest ih =>
    exact (hI.appendWithOffset r.offset r.toMessage).bind fun _ => ih.bind fun _ => .pure _

end Stands

theorem stands_covered : Stands P (Covered mark) where
  clock := keeps_liftHost nowMs
  count _ := keeps_modifyLog fun log h => h.congr rfl rfl
  flushActive t h := (covers_onActive "" (fun base least _ =>
    Segment.keeps_flush (Segment.blind_spans base least).flushes) h le_rfl).1
  rollActive s _ _ h := by
    have hseal := covers_onActive "no active segment to roll"
      (fun base least _ => Segment.keeps_seal (Segment.blind_spans base least)) h le_rfl
    refine stop_get_bind (stop_bind (fun _ t hrun => ?_) fun e t hrun => ?_)
    · rw [hrun] at hseal
      have hactive : t.log.segments ≠ [] := by
        obtain ⟨front, _, _, -, -, rfl⟩ := onActive_ok hrun
        simp
      refine (keeps_liftHost (I := fun log => (Covers mark log ∧ log.nextOffset =
        s.log.nextOffset) ∧ log.segments ≠ []) nowMs).andThen (fun u hu => hu.1.1)
        (fun now u hu => ?_) ⟨hseal, hactive⟩
      exact (covers_create _ now hu.1.1 hu.1.2 fun hnil => absurd hnil hu.2).1
    · rw [hrun] at hseal
      exact hseal.1
  write message timestampMs s h := by
    refine stop_get_bind ?_
    have hgrow : s.log.nextOffset ≤ Offset.next s.log.nextOffset := by
      have htop := h.top
      unfold Offset.next saturatingAdd
      omega
    have happend := covers_onActive "no active segment" (fun base least hleast =>
      Segment.keeps_append (P := P) (Segment.blind_spans base least) (fun t ht => ⟨ht.1, hleast⟩)
        message timestampMs) h hgrow
    refine stop_bind (fun r t hrun => ?_) fun e t hrun => ?_
    · rw [hrun] at happend
      obtain ⟨⟨htop, hstart, hend, hlinked⟩, hnext⟩ := happend
      obtain ⟨front, g, u, -, hseg, rfl⟩ := onActive_ok hrun
      -- the active segment ends where the log now does
      refine ⟨?_, hstart, hend.trans ?_, hlinked.set_last rfl ?_⟩
      · exact min_le_right _ _
      · exact hgrow
      · exact (Segment.nextOffset_append hseg).trans (le_max_left _ _)
    · rw [hrun] at happend
      exact happend.1

/-! ## Prefix deletion -/

/-- A log without its first segments, if those end at or below the mark. -/
theorem covers_drop (h : Covers mark log) (k : Nat)
    (hends : ∀ g ∈ log.segments.take k, g.nextOffset ≤ mark) :
    Covers mark { log with segments := log.segments.drop k } ∧
      (log.segments ≠ [] → startOr log.nextOffset (log.segments.drop k) ≤ mark) := by
  have hstart (hne : log.segments ≠ []) : startOr log.nextOffset (log.segments.drop k) ≤ mark :=
    h.linked.startOr_drop (h.startOr_le hne) k hends
  refine ⟨⟨h.top, ?_, h.le_end, h.linked.drop k⟩, hstart⟩
  cases hdrop : log.segments.drop k with
  | nil => exact Nat.zero_le _
  | cons g rest =>
    have hne : log.segments ≠ [] := by
      rintro hnil
      rw [hnil, drop_nil] at hdrop
      cases hdrop
    have hbase := hstart hne
    rw [hdrop] at hbase
    exact hbase

/-- A deletion that drops only segments that end at or below the mark. What is left is a suffix of
the segments, or at most one new segment. -/
theorem covers_deleteRecords {b : Nat} (h : Covered mark s)
    (hends : ∀ g ∈ s.log.segments.takeWhile (·.nextOffset ≤ b), g.nextOffset ≤ mark) :
    Shortened mark s.log.segments (stop (deleteRecords P b s)) := by
  refine stop_get_bind ?_
  have htake : s.log.segments.take (s.log.segments.takeWhile (·.nextOffset ≤ b)).length =
      s.log.segments.takeWhile (·.nextOffset ≤ b) :=
    (prefix_iff_eq_take.mp <| takeWhile_prefix _).symm
  generalize hk : (s.log.segments.takeWhile (·.nextOffset ≤ b)).length = k at htake ⊢
  obtain ⟨hdropped, hstart⟩ := covers_drop h k (htake ▸ hends)
  by_cases hzero : k = 0
  · rw [if_pos hzero]
    exact ⟨h, .inl ⟨0, rfl⟩⟩
  rw [if_neg hzero]
  have hne : s.log.segments ≠ [] := by
    rintro hnil
    rw [hnil] at hk
    exact hzero hk.symm
  -- from here on the log has lost its first `k` segments, and at most gains a new one
  let dropped : PartitionLog := { s.log with segments := s.log.segments.drop k }
  change Shortened mark s.log.segments (stop ((liftHost _ >>= _) { s with log := dropped }))
  have hthere (t : LogState) (ht : t.log = dropped) : Shortened mark s.log.segments t := by
    refine ⟨?_, .inl ⟨k, by rw [ht]⟩⟩
    unfold Covered
    rw [ht]
    exact hdropped
  have hrecreate (t : LogState) (ht : t.log = dropped) : Shortened mark s.log.segments (stop
      (when (s.log.segments.drop k).isEmpty (do
        let now ← liftHost nowMs
        let seg ← liftHost (Segment.createWithOptions P .data s.log.nextOffset now
          (s.log.config.segmentOptions false))
        modifyLog fun log => { log with segments := log.segments ++ [seg] }) t)) := by
    cases hempty : (s.log.segments.drop k).isEmpty with
    | false => exact hthere t ht
    | true =>
      rw [List.isEmpty_iff] at hempty
      refine (keeps_liftHost (I := (· = dropped)) nowMs).andThen hthere (fun now u hu => ?_) ht
      have hnext : u.log.nextOffset = s.log.nextOffset := by rw [hu]
      have hnone : u.log.segments.length = 0 := by rw [hu]; exact congrArg length hempty
      obtain ⟨hcovers, hlen⟩ := covers_create (s.log.config.segmentOptions false) now
        (hthere u hu).1 hnext fun _ => by simpa [hempty, startOr] using hstart hne
      exact ⟨hcovers, .inr (by omega)⟩
  refine (keeps_liftHost (I := (· = dropped)) _).andThen hthere (fun _ t ht => ?_) rfl
  exact stop_andThen (hrecreate t ht) (fun _ hu => hu) fun _ _ hu => hu

/-! ## Retention -/

/-- The oldest segments, as long as all together are over the limit. -/
def oversize (limit : Nat) : List Segment → List Segment
  | a :: b :: rest =>
    if ((a :: b :: rest).map (·.size)).sum ≤ limit then [] else a :: oversize limit (b :: rest)
  | _ => []

/-- The segments that go by the size limit. -/
def oversized (retentionBytes : Option Nat) (segs : List Segment) : List Segment :=
  (retentionBytes.map (oversize · segs)).getD []

/-- The segments that go by their age; the active one stays. -/
def expired (retentionMs : Option Nat) (now : Int64) (segs : List Segment) : List Segment :=
  (retentionMs.map fun ms => segs.dropLast.takeWhile
    (·.lastTimestampMs < i64SaturatingSub now (UInt64.ofNat ms).toInt64)).getD []

/-- The segments a retention pass drops. -/
def retired (s : LogState) : List Segment :=
  let old := expired s.log.config.retentionMs (s.host.clock s.host.tick) s.log.segments
  old ++ oversized s.log.config.retentionBytes (s.log.segments.drop old.length)

theorem expired_begins (retentionMs : Option Nat) (now : Int64) (segs : List Segment) :
    expired retentionMs now segs <+: segs := by
  cases retentionMs with
  | none => exact nil_prefix
  | some ms =>
    refine IsPrefix.trans ?_ <| dropLast_prefix segs
    exact takeWhile_prefix _

theorem oversize_tail_subset (limit : Nat) (a : Segment) (rest : List Segment) :
    oversize limit rest ⊆ oversize limit (a :: rest) := by
  cases rest with
  | nil => exact nil_subset _
  | cons b rest =>
    rw [oversize]
    split_ifs with hfits
    · -- what fits still fits without its first segment
      cases rest with
      | nil => exact nil_subset _
      | cons c rest =>
        rw [oversize, if_pos]
        · exact nil_subset _
        · rw [map_cons, sum_cons] at hfits
          omega
    · exact subset_cons_self _ _

theorem oversize_drop_subset (limit k : Nat) (segs : List Segment) :
    oversize limit (segs.drop k) ⊆ oversize limit segs := by
  induction k generalizing segs with
  | zero => exact List.Subset.refl _
  | succ k ih =>
    cases segs with
    | nil => exact List.Subset.refl _
    | cons a rest => exact List.Subset.trans (ih rest) (oversize_tail_subset limit a rest)

/-- Dropping segments beforehand only spares others. -/
theorem oversize_subset (limit k : Nat) (segs : List Segment) :
    oversize limit segs ⊆ segs.take k ++ oversize limit (segs.drop k) := by
  induction k generalizing segs with
  | zero => simp
  | succ k ih =>
    cases segs with
    | nil => exact nil_subset _
    | cons a rest =>
      cases rest with
      | nil => exact nil_subset _
      | cons b rest =>
        rw [oversize]
        split_ifs with hfits
        · exact nil_subset _
        · rw [take_succ_cons, cons_append]
          exact cons_subset_cons a (ih (b :: rest))

theorem oversize_of_length_le_one (limit : Nat) (h : segs.length ≤ 1) :
    oversize limit segs = [] := by
  cases segs with
  | nil => rfl
  | cons a rest =>
    cases rest with
    | nil => rfl
    | cons b rest => exact absurd h (by simp)

/-- The bounds of a log of which the size limit only takes segments below the mark. -/
def Sheds (mark : Nat) (retentionBytes : Option Nat) (s : LogState) : Prop :=
  Covered mark s ∧ ∀ g ∈ oversized retentionBytes s.log.segments, g.nextOffset ≤ mark

theorem keeps_deleteRecords {b : Nat} (hb : b ≤ mark) (retentionBytes : Option Nat) :
    Keeps (Sheds mark retentionBytes) (deleteRecords P b) := by
  intro s h
  obtain ⟨hcovered, hshort⟩ := covers_deleteRecords (P := P) (b := b) h.1 fun g hg =>
    (by simpa using mem_takeWhile_imp hg : g.nextOffset ≤ b).trans hb
  refine ⟨hcovered, fun g hg => h.2 g ?_⟩
  cases retentionBytes with
  | none => exact hg
  | some limit =>
    rcases hshort with ⟨k, hdrop⟩ | hone
    · rw [hdrop] at hg
      exact oversize_drop_subset limit k _ hg
    · rw [oversized] at hg
      simp [oversize_of_length_le_one limit hone] at hg

theorem keeps_retainBySize (limit fuel : Nat) :
    Keeps (Sheds mark (some limit)) (retainBySize P limit fuel) := by
  induction fuel with
  | zero => exact .pure _
  | succ fuel ih =>
    intro s h
    refine stop_get_bind ?_
    by_cases hfits : s.log.totalSize ≤ limit
    · rw [if_pos hfits]
      exact h
    rw [if_neg hfits]
    cases hsegments : s.log.segments with
    | nil => exact h
    | cons a rest =>
      cases rest with
      | nil => exact h
      | cons g rest =>
        -- the oldest segment is over the limit, so it ends below the mark, and there the next begins
        have ha : a.nextOffset ≤ mark := by
          refine h.2 a ?_
          rw [oversized, hsegments, Option.map_some, oversize, if_neg]
          · exact mem_cons_self
          · rw [← hsegments]
            exact hfits
        have hlinked := h.1.linked
        rw [hsegments] at hlinked
        have hbase : g.baseOffset ≤ mark := hlinked.1.trans (max_le ha le_rfl)
        exact (keeps_deleteRecords hbase (some limit)).bind (fun _ => ih) s h

theorem keeps_retainByTime {ms : Nat} {retentionBytes : Option Nat}
    (h : Sheds mark retentionBytes s)
    (hexpired : ∀ g ∈ expired (some ms) (s.host.clock s.host.tick) s.log.segments,
      g.nextOffset ≤ mark) : Sheds mark retentionBytes (stop (retainByTime P ms s)) := by
  let t : LogState := { s with host := { s.host with tick := s.host.tick + 1 } }
  have ht : Sheds mark retentionBytes t := h
  change Sheds mark retentionBytes (stop (ifSome _ _ t))
  rw [expired, Option.map_some] at hexpired
  generalize hold : s.log.segments.dropLast.takeWhile _ = old at hexpired ⊢
  have hbegins : old = s.log.segments.take old.length := by
    rw [← hold]
    exact prefix_iff_eq_take.mp (expired_begins (some ms) _ _)
  cases hget : s.log.segments[old.length]? with
  | none => exact ht
  | some g =>
    change Sheds mark retentionBytes (stop (when _ (deleteRecords P g.baseOffset >>= _) t))
    refine Keeps.when (fun hpos => ?_) t ht
    have hne : s.log.segments ≠ [] := by
      rintro hnil
      rw [hnil] at hget
      cases hget
    -- the first segment that stays begins where an expired one ends
    have hstart := h.1.linked.startOr_drop (h.1.startOr_le hne) old.length (hbegins ▸ hexpired)
    rw [drop_eq_getElem_cons (List.getElem?_eq_some_iff.mp hget).1,
      (List.getElem?_eq_some_iff.mp hget).2] at hstart
    exact (keeps_deleteRecords hstart retentionBytes).bind fun _ => .pure _

/-! ## Compaction -/

theorem bounds_openWithOptions {dir : Dir} {isSealed : Bool}
    (hrun : Segment.openWithOptions P dir base opts isSealed h = .ok g h') :
    g.baseOffset = base ∧ ∃ data header acc,
      Segment.recoverFile P.crc data base opts.indexIntervalBytes = .ok (header, acc) ∧
      g.nextOffset = acc.nextOffset := by
  obtain ⟨data, header, acc, -, hrecover, rfl, -⟩ := Segment.openWithOptions_ok.mp hrun
  exact ⟨rfl, data, header, acc, hrecover, rfl⟩

variable {sealedSegs : List Segment}

theorem swapCompacted_ok {activeBase : Nat}
    (hrun : swapCompacted P log activeBase sealedSegs h = .ok g h') :
    ∃ u h1 v h2 opened, deleteAll sealedSegs h = .ok u h1 ∧
      renameCompacted log.logStartOffset h1 = .ok v h2 ∧
      Segment.openWithOptions P .data log.logStartOffset log.compactOptions true h2 =
        .ok opened h' ∧
      opened.nextOffset ≤ activeBase ∧ g = { opened with nextOffset := activeBase } := by
  obtain ⟨u, h1, hdelete, hrun⟩ := bind_ok.mp hrun
  obtain ⟨v, h2, hrename, hrun⟩ := bind_ok.mp hrun
  obtain ⟨opened, h3, hopen, hrun⟩ := bind_ok.mp hrun
  unfold runSeg at hrun
  split at hrun
  · rename_i _ t hset
    cases hrun
    replace hset := get_bind_ok.mp hset
    split_ifs at hset with hbefore
    · exact absurd hset throw_ok
    · rw [← modify_ok.mp hset]
      exact ⟨u, h1, v, h2, opened, hdelete, hrename, hopen, not_lt.mp hbefore, rfl⟩
  · cases hrun

theorem bounds_swapCompacted {activeBase : Nat}
    (hrun : swapCompacted P log activeBase sealedSegs h = .ok g h') :
    g.baseOffset = log.logStartOffset ∧ g.nextOffset = activeBase := by
  obtain ⟨_, _, _, _, opened, -, -, hopen, -, rfl⟩ := swapCompacted_ok hrun
  have hbase := (bounds_openWithOptions hopen).1
  exact ⟨hbase, rfl⟩

/-- One sealed segment from the log start to the active segment. -/
theorem covers_compacted {active : Segment} (h : Covers mark log)
    (hlast : log.segments.getLast? = some active) (hbase : g.baseOffset = log.logStartOffset)
    (hnext : g.nextOffset = active.baseOffset) :
    Covers mark { log with segments := [g, active] } := by
  obtain ⟨front, hsegments⟩ := getLast?_eq_some_iff.mp hlast
  obtain ⟨htop, hstart, hend, hlinked⟩ := h
  rw [hsegments] at hlinked
  refine ⟨htop, hbase.le.trans hstart, hend, ?_, (Linked.concat_iff.mp hlinked).2, trivial⟩
  exact hnext.ge.trans (le_max_left _ _)

/-- Compaction leaves these segments alone: they hold nothing, or nothing of a single one goes. -/
def idle (sealedSegs : List Segment) (input : List Record) : Bool :=
  input.isEmpty ||
    (decide ((survivors input).length = input.length) && decide (sealedSegs.length = 1))

variable {stats : CompactStats}

/-- A compaction that succeeds either has nothing to do, or swaps its sealed segments for one. -/
theorem compactSealed_ok {t : LogState} (hrun : compactSealed P s = .ok stats t) :
    (t = s ∧ ∃ input, readSealed P s.host s.log.segments.dropLast = .ok input ∧
      idle s.log.segments.dropLast input = true) ∨ ∃ first others active input u h1 g h2,
      s.log.segments = (first :: others) ++ [active] ∧
      readSealed P s.host (first :: others) = .ok input ∧ idle (first :: others) input = false ∧
      buildCompacted P s.log (survivors input) active.baseOffset s.host = .ok u h1 ∧
      swapCompacted P s.log active.baseOffset (first :: others) h1 = .ok g h2 ∧
      t = ⟨h2, { s.log with segments := [g, active] }⟩ := by
  replace hrun := get_bind_ok.mp hrun
  rcases eq_nil_or_concat' s.log.segments with hnil | ⟨front, active, hsplit⟩
  · rw [hnil] at hrun ⊢
    exact .inl ⟨(pure_ok.mp hrun).2.symm, [], rfl, rfl⟩
  rw [hsplit, getLast?_concat, dropLast_concat] at hrun
  rw [hsplit, dropLast_concat]
  cases front with
  | nil => exact .inl ⟨(pure_ok.mp hrun).2.symm, [], rfl, rfl⟩
  | cons first others =>
    rcases hread : readSealed P s.host (first :: others) with e | input <;> rw [hread] at hrun
    · exact absurd hrun throw_ok
    · dsimp only at hrun
      split_ifs at hrun with hempty hsame
      · exact .inl ⟨(pure_ok.mp hrun).2.symm, input, rfl, by rw [idle, hempty]; rfl⟩
      · exact .inl ⟨(pure_ok.mp hrun).2.symm, input, rfl, by rw [idle, hsame, Bool.or_true]⟩
      obtain ⟨u, _, hlift, hrun⟩ := bind_ok.mp hrun
      obtain ⟨h1, hbuild, rfl⟩ := liftHost_ok hlift
      obtain ⟨_, _, hmodify, hrun⟩ := bind_ok.mp hrun
      obtain rfl := modify_ok.mp hmodify
      obtain ⟨g, _, hlift', hrun⟩ := bind_ok.mp hrun
      obtain ⟨h2, hswap, rfl⟩ := liftHost_ok hlift'
      obtain ⟨_, _, hmodify, hrun⟩ := bind_ok.mp hrun
      obtain rfl := modify_ok.mp hmodify
      obtain ⟨-, rfl⟩ := pure_ok.mp hrun
      have hbusy : idle (first :: others) input = false := by
        rw [idle, Bool.eq_false_iff.mpr hempty, Bool.eq_false_iff.mpr hsame]
        rfl
      exact .inr ⟨first, others, active, input, u, h1, g, h2, rfl, hread, hbusy, hbuild, hswap, rfl⟩

theorem covers_compactSealed {t : LogState} (h : Covered mark s)
    (hrun : compactSealed P s = .ok stats t) : Covered mark t := by
  obtain ⟨rfl, -⟩ | ⟨first, others, active, _, _, _, g, _, hsplit, -, -, -, hswap, rfl⟩ :=
    compactSealed_ok hrun
  · exact h
  · obtain ⟨hbase, hnext⟩ := bounds_swapCompacted hswap
    exact covers_compacted h (by rw [hsplit, getLast?_concat]) hbase hnext

/-- The time limit only takes expired segments. -/
theorem sheds_retain (h : Covered mark s) (hretired : ∀ g ∈ retired s, g.nextOffset ≤ mark) :
    Sheds mark s.log.config.retentionBytes
      (stop (ifSome s.log.config.retentionMs (retainByTime P) s)) := by
  have hexpired : ∀ g ∈ expired s.log.config.retentionMs (s.host.clock s.host.tick) s.log.segments,
      g.nextOffset ≤ mark := fun g hg => hretired g (mem_append_left _ hg)
  have hsheds : Sheds mark s.log.config.retentionBytes s := by
    refine ⟨h, fun g hg => ?_⟩
    cases hbytes : s.log.config.retentionBytes with
    | none =>
      rw [hbytes] at hg
      cases hg
    | some limit =>
      rw [hbytes] at hg
      rcases mem_append.mp (oversize_subset limit
        (expired s.log.config.retentionMs (s.host.clock s.host.tick) s.log.segments).length _ hg)
        with htake | hrest
      · rw [← prefix_iff_eq_take.mp (expired_begins _ _ _)] at htake
        exact hexpired g htake
      · refine hretired g (mem_append_right _ ?_)
        rw [hbytes]
        exact hrest
  cases hms : s.log.config.retentionMs with
  | none => exact hsheds
  | some ms =>
    rw [hms] at hexpired
    exact keeps_retainByTime hsheds hexpired

/-- A retention pass, if what it drops ends at or below the mark and its compaction does not fail. -/
theorem covers_applyRetention (h : Covered mark s) (hretired : ∀ g ∈ retired s, g.nextOffset ≤ mark)
    (hcompact : s.log.config.compact = true → succeeds (applyRetention P s) = true) :
    Covered mark (stop (applyRetention P s)) := by
  have htime := sheds_retain (P := P) h hretired
  have hsize (fuel : Nat) : Keeps (Sheds mark s.log.config.retentionBytes)
      (ifSome s.log.config.retentionBytes fun limit => retainBySize P limit fuel) := by
    cases s.log.config.retentionBytes with
    | none => exact .pure _
    | some limit => exact keeps_retainBySize limit fuel
  cases hpolicy : s.log.config.compact with
  | true =>
    obtain ⟨u, t, hrun⟩ := succeeds_iff.mp (hcompact hpolicy)
    rw [hrun]
    replace hrun := get_bind_ok.mp hrun
    obtain ⟨_, timed, hretain, hrun⟩ := bind_ok.mp hrun
    replace hrun := get_bind_ok.mp hrun
    obtain ⟨_, sized, hshed, hrun⟩ := bind_ok.mp hrun
    rw [hretain] at htime
    have hsized := hsize timed.log.segments.length timed htime
    rw [hshed] at hsized
    rw [hpolicy] at hrun
    obtain ⟨stats, _, hcompacted, hrun⟩ := bind_ok.mp hrun
    obtain ⟨-, rfl⟩ := pure_ok.mp hrun
    exact covers_compactSealed hsized.1 hcompacted
  | false =>
    have hkept : Sheds mark s.log.config.retentionBytes (stop (applyRetention P s)) := by
      refine stop_get_bind (stop_andThen htime (fun _ ht => ht) fun _ => ?_)
      rw [hpolicy]
      exact Keeps.bind Keeps.get fun t => (hsize _).bind .pure
    exact hkept.1

/-! ## Open -/

theorem le_recoverLoop {fuel : Nat} (hbase : base ≤ acc.nextOffset) (htop : acc.nextOffset ≤ u64Max)
    : base ≤ (Segment.recoverLoop crc data base interval fuel acc).nextOffset ∧
      (Segment.recoverLoop crc data base interval fuel acc).nextOffset ≤ u64Max := by
  fun_induction Segment.recoverLoop crc data base interval fuel acc with
  | case4 fuel acc hpos record position nextPos size hdecode hnext hbelow ih =>
    refine ih ?_ (min_le_right _ _)
    change base ≤ min (record.offset + 1) u64Max
    omega
  | _ => exact ⟨hbase, htop⟩

variable {header : SegmentHeader}

theorem recoverFile_ok (h : Segment.recoverFile crc data base interval = .ok (header, acc)) :
    decodeHeader (data.take HEADER_SIZE) = .ok header ∧ header.baseOffset = base ∧
      acc = Segment.recoverLoop crc data base interval data.length (.start base) := by
  unfold Segment.recoverFile Segment.recoverAndIndex at h
  dsimp only [bind, Except.bind, pure, Except.pure] at h
  split_ifs at h
  split at h
  · cases h
  next header' hheader =>
    split_ifs at h with hbase
    cases h
    exact ⟨hheader, not_not.mp hbase, rfl⟩

theorem bounds_recoverFile (htop : base ≤ u64Max)
    (h : Segment.recoverFile crc data base interval = .ok (header, acc)) :
    base ≤ acc.nextOffset ∧ acc.nextOffset ≤ u64Max := by
  obtain ⟨-, -, rfl⟩ := recoverFile_ok h
  exact le_recoverLoop le_rfl htop

variable {config : StorageConfig}

/-- The segments of a data directory whose file names are offsets. -/
theorem bounds_openSegments {bases : List Nat}
    (hbases : ∀ b ∈ bases, b ≤ u64Max) (hrun : openSegments P config bases h = .ok segs h') :
    segs.length = bases.length ∧
      ∀ g ∈ segs, g.baseOffset ≤ g.nextOffset ∧ g.nextOffset ≤ u64Max := by
  induction bases generalizing h h' segs with
  | nil =>
    obtain ⟨rfl, -⟩ := pure_ok.mp hrun
    exact ⟨rfl, by simp⟩
  | cons base rest ih =>
    obtain ⟨g, _, hopen, hrun⟩ := bind_ok.mp hrun
    obtain ⟨gs, _, hrest, hrun⟩ := bind_ok.mp hrun
    obtain ⟨rfl, -⟩ := pure_ok.mp hrun
    obtain ⟨hlen, hall⟩ := ih (fun b hb => hbases b (mem_cons_of_mem _ hb)) hrest
    refine ⟨congrArg (· + 1) hlen, fun g' hg' => ?_⟩
    rcases mem_cons.mp hg' with rfl | hg'
    · obtain ⟨hbase, _, _, acc, hrecover, hnext⟩ := bounds_openWithOptions hopen
      rw [hbase, hnext]
      exact bounds_recoverFile (hbases base mem_cons_self) hrecover
    · exact hall g' hg'

/-- Segments that do not overlap all begin at or below the end of the last. -/
theorem base_le_of_firstOverlap {last : Segment} (hspans : ∀ g ∈ segs, g.baseOffset ≤ g.nextOffset)
    (hover : firstOverlap segs = none) (hlast : segs.getLast? = some last) :
    ∀ g ∈ segs, g.baseOffset ≤ last.nextOffset := by
  fun_induction firstOverlap segs with
  | case1 a b rest hlt => cases hover
  | case2 a b rest hge ih =>
    have htail := ih (fun g hg => hspans g (mem_cons_of_mem _ hg)) hover hlast
    intro g hg
    rcases mem_cons.mp hg with rfl | hg
    · exact (hspans g mem_cons_self).trans
        ((Nat.le_of_not_lt hge).trans (htail b mem_cons_self))
    · exact htail g hg
  | case3 segs hshort =>
    match segs, hlast with
    | [g], hlast =>
      cases hlast
      intro g' hg'
      rw [mem_singleton.mp hg']
      exact hspans g mem_cons_self
    | a :: b :: rest, _ => exact absurd rfl (hshort a b rest)

/-- The last of the segments that are opened ends behind where all of them begin. -/
theorem bounds_opened (hbases : ∀ b ∈ listSegmentBases h, b ≤ u64Max)
    (hlist : listSegmentBases h ≠ [])
    (hopen : openSegments P config (listSegmentBases h) h = .ok segs h')
    (hover : firstOverlap segs = none) : ∃ last, segs.getLast? = some last ∧
      (∀ g ∈ segs, g.baseOffset ≤ g.nextOffset ∧ g.nextOffset ≤ u64Max) ∧
      ∀ g ∈ segs, g.baseOffset ≤ last.nextOffset := by
  obtain ⟨hlen, hspans⟩ := bounds_openSegments hbases hopen
  have hne : segs ≠ [] := by
    rintro rfl
    exact hlist (eq_nil_of_length_eq_zero hlen.symm)
  have hlast := getLast?_eq_some_getLast hne
  exact ⟨_, hlast, hspans, base_le_of_firstOverlap (fun g hg => (hspans g hg).1) hover hlast⟩

/-- A log that is opened is covered by its end. -/
theorem covers_open (hbases : ∀ b ∈ listSegmentBases h, b ≤ u64Max)
    (hrun : PartitionLog.open P config h = .ok log h') : Covers log.nextOffset log := by
  obtain ⟨-, now, _, g, -, hcreate, rfl⟩ | ⟨hlist, segs, hopen, hover, rfl⟩ := open_cases hrun
  · obtain ⟨hbase, hnext⟩ := bounds_createWithOptions hcreate
    refine ⟨?_, ?_, le_rfl, ⟨le_max_right _ _, trivial⟩⟩
    · rw [hnext]
      exact Nat.zero_le _
    · exact (hbase.trans hnext.symm).le
  · obtain ⟨last, hlast, hspans, hle⟩ := bounds_opened hbases hlist hopen hover
    have hmem := mem_of_getLast? hlast
    simp only [hlast, Option.map_some, Option.getD_some]
    refine ⟨(hspans last hmem).2, ?_, le_rfl, .of_le le_rfl hle⟩
    obtain ⟨g, rest, rfl⟩ := exists_cons_of_ne_nil (ne_nil_of_mem hmem)
    exact hle g mem_cons_self

end PartitionLog

end Volant.Storage
