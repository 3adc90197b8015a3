-- SUMMARY: Appends that fail at their first checks leave no trace; one that fails behind its write leaves a record.
import Volant.Storage.RoundTrip

/-!
# Failed appends

An append checks its offset, writes the encoded record and then checks whether
the record can be indexed. A call that fails at the first checks has done
nothing. One that fails behind the write has put a record into the file that
was never acknowledged: the scan of a later open takes it in, and a read stops
at it.
-/

namespace Volant.Storage

open Exec List

/-- The first record of a segment can be indexed. -/
theorem Book.indexable_base {b : Book} (hsize : b.size ≤ u32Max) : b.Indexable b.baseOffset :=
  fun _ => ⟨le_rfl, by simp, hsize⟩

namespace Segment

/-! ## Append calls of a segment -/

inductive AppendCall where
  | append (offset : Nat) (message : Message) (timestampMs : Int64)
  | appendAllowGap (offset : Nat) (message : Message) (timestampMs : Int64)

namespace AppendCall

def run (P : Platform) : AppendCall → SegM Record
  | .append offset message timestampMs => Segment.append P offset message timestampMs
  | .appendAllowGap offset message timestampMs =>
    Segment.appendAllowGap P offset message timestampMs

def offset : AppendCall → Nat
  | .append offset _ _ => offset
  | .appendAllowGap offset _ _ => offset

def message : AppendCall → Message
  | .append _ message _ => message
  | .appendAllowGap _ message _ => message

def timestampMs : AppendCall → Int64
  | .append _ _ timestampMs => timestampMs
  | .appendAllowGap _ _ timestampMs => timestampMs

/-- The checks in front of the write pass. -/
def Passes (c : AppendCall) (g : Segment) : Prop :=
  g.sealed = false ∧ match c with
    | .append offset _ _ => offset = g.nextOffset
    | .appendAllowGap offset _ _ => g.nextOffset ≤ offset

/-- A call that reaches its write can write, and passes the checks behind it. -/
def Clean (c : AppendCall) (s : SegState) : Prop :=
  c.Passes s.seg → s.seg.Writable ∧ s.seg.book.Indexable c.offset ∧ Message.Fits c.message ∧
    c.offset < u64Max

instance : ∀ (c : AppendCall) (g : Segment), Decidable (c.Passes g)
  | .append _ _ _, _ => inferInstanceAs (Decidable (_ ∧ _))
  | .appendAllowGap _ _ _, _ => inferInstanceAs (Decidable (_ ∧ _))

instance (c : AppendCall) (s : SegState) : Decidable (c.Clean s) :=
  inferInstanceAs (Decidable (_ → _))

variable {P : Platform}

/-- A call fails at once and changes nothing, or it gets to its write. -/
theorem run_cases (P : Platform) (c : AppendCall) (s : SegState) :
    (∃ e, c.run P s = .error e s) ∨ c.Passes s.seg ∧ s.seg.nextOffset ≤ c.offset ∧
      c.run P s = appendEncoded P c.offset c.message c.timestampMs s := by
  cases hs : s.seg.sealed with
  | true =>
    refine .inl ⟨.storage "cannot append to sealed segment", ?_⟩
    cases c with
    | append o m t | appendAllowGap o m t =>
      change (if s.seg.sealed = true then _ else _ : SegM Record) s = _
      rw [if_pos hs]
      rfl
  | false =>
    have hopen : ¬ s.seg.sealed = true := by simp [hs]
    cases c with
    | append o m t =>
      change (∃ e, (if s.seg.sealed = true then _ else _ : SegM Record) s = .error e s) ∨
        _ ∧ _ ∧ (if s.seg.sealed = true then _ else _ : SegM Record) s = _
      rw [if_neg hopen]
      by_cases ho : o = s.seg.nextOffset
      · rw [if_neg (not_not_intro ho)]
        exact .inr ⟨⟨hs, ho⟩, ho.ge, rfl⟩
      · rw [if_pos ho]
        exact .inl ⟨_, rfl⟩
    | appendAllowGap o m t =>
      change (∃ e, (if s.seg.sealed = true then _ else _ : SegM Record) s = .error e s) ∨
        _ ∧ _ ∧ (if s.seg.sealed = true then _ else _ : SegM Record) s = _
      rw [if_neg hopen]
      by_cases ho : o < s.seg.nextOffset
      · rw [if_pos ho]
        exact .inl ⟨_, rfl⟩
      · rw [if_neg ho]
        exact .inr ⟨⟨hs, not_lt.mp ho⟩, not_lt.mp ho, rfl⟩

variable {c : AppendCall} {s t : SegState} {rs : List Record}

theorem holds_of_ok (hc : c.Clean s) (hi : Holds P s.host s.seg rs) {r : Record}
    (hrun : c.run P s = .ok r t) : Holds P t.host t.seg (rs ++ [r]) := by
  obtain ⟨e, herror⟩ | ⟨hpass, hoff, heq⟩ := run_cases P c s
  · rw [herror] at hrun
    cases hrun
  · obtain ⟨-, -, hfits, hlt⟩ := hc hpass
    rw [heq] at hrun
    exact (hi.appendEncoded hfits hlt hpass.1 hoff hrun).2.2.2.1

theorem eq_of_error (hc : c.Clean s) (hi : Holds P s.host s.seg rs) {e : Error}
    (hrun : c.run P s = .error e t) : t = s := by
  obtain ⟨e', herror⟩ | ⟨hpass, -, heq⟩ := run_cases P c s
  · rw [herror] at hrun
    cases hrun
    rfl
  · obtain ⟨hw, hindex, -⟩ := hc hpass
    obtain ⟨r, u, hok, -⟩ := @appendEncoded_run P s _ hi.backs hpass.1 hw _ hindex c.message
      c.timestampMs
    rw [heq, hok] at hrun
    cases hrun

end AppendCall

/-! ## What a segment serves -/

/-- Opening a segment whose bytes are all in its file succeeds and gives back its records. -/
theorem Holds.reopens {P : Platform} {h : Host} {g : Segment} {rs : List Record}
    (hi : Holds P h g rs) (hdisk : OnDisk ⟨h, g⟩) {opts : SegmentOptions} (isSealed : Bool)
    (hmmap : applyDirectIoFlag P opts.directIo = true → opts.useMmap = true) :
    Runs (openWithOptions P g.dir g.baseOffset opts isSealed) h fun g' h' =>
      Holds P h' g' rs ∧ g' = reopened P g.dir g.baseOffset opts isSealed
        { version := VERSION, flags := 0, baseOffset := g.baseOffset, createdAtMs := g.createdAtMs }
        (scanAll P.crc g.baseOffset opts.indexIntervalBytes (.start g.baseOffset) rs)
        (segmentBytes P.crc g.baseOffset g.createdAtMs rs) := by
  obtain ⟨z, hfile⟩ := hi.file_of_onDisk hdisk
  have hbase := hi.start.trans hi.bound
  obtain ⟨hrec, -⟩ := @recoverFile_records P rs g.baseOffset z g.createdAtMs
    opts.indexIntervalBytes hi.storable hi.sorted hi.above hbase
  have hopen : Runs (openWithOptions P g.dir g.baseOffset opts isSealed) h _ :=
    openWithOptions_run hfile hrec
  have hcut : (segmentBytes P.crc g.baseOffset g.createdAtMs rs ++ replicate z 0).take
      (scanAll P.crc g.baseOffset opts.indexIntervalBytes (.start g.baseOffset) rs).pos =
      segmentBytes P.crc g.baseOffset g.createdAtMs rs := by
    rw [pos_scanAll]
    exact take_left' (length_segmentBytes _ _ _ _)
  rw [hcut] at hopen
  refine (hopen.and_ok fun g' h' hrun => ?_).mono fun g' h' h => ⟨h.2, h.1.1⟩
  exact (openWithOptions_holds hfile hi.storable hi.sorted hi.above hbase hmmap hrun).1

/-- Reads return these records and no others, and so they do when the segment is opened again. -/
structure Serves (P : Platform) (s : SegState) (rs : List Record) : Prop where
  reads : ∀ start n, readFrom P s.host s.seg start n usizeMax =
    .ok ((rs.filter (start ≤ ·.offset)).take n)
  ascending : (rs.map (·.offset)).Pairwise (· < ·)
  reopens : OnDisk s → ∀ opts isSealed,
    (applyDirectIoFlag P opts.directIo = true → opts.useMmap = true) →
    Runs (openWithOptions P s.seg.dir s.seg.baseOffset opts isSealed) s.host fun g h =>
      ∀ start n, readFrom P h g start n usizeMax = .ok ((rs.filter (start ≤ ·.offset)).take n)

theorem Holds.serves {P : Platform} {s : SegState} {rs : List Record}
    (hi : Holds P s.host s.seg rs) : Serves P s rs where
  reads := hi.readFrom
  ascending := hi.sorted
  reopens hdisk _ isSealed hmmap := (hi.reopens hdisk isSealed hmmap).mono fun _ _ h => h.1.readFrom

end Segment

namespace PartitionLog

/-! ## Append calls of a log -/

inductive AppendCall where
  | append (message : Message)
  | appendBatch (messages : List Message)
  | appendWithOffset (offset : Nat) (message : Message)

namespace AppendCall

def run (P : Platform) : AppendCall → LogM (List Record)
  | .append message => do
    let record ← PartitionLog.append P message
    pure [record]
  | .appendBatch messages => PartitionLog.appendBatch P messages
  | .appendWithOffset offset message => do
    let record ← PartitionLog.appendWithOffset P offset message
    pure [record]

end AppendCall

/-- The active segment can take the record, or make room for a new segment that can. -/
def Ready (P : Platform) (m : Message) (s : LogState) : Prop :=
  Message.Fits m ∧ s.log.nextOffset < u64Max ∧ (∀ g ∈ s.log.segments.getLast?, g.Writable) ∧
    (s.log.needsRoll (encodedRecordSize m) = true →
      refusesDirect P s.log.config.directIo = false ∧
        (⟨.data, s.log.nextOffset⟩ : Path) ∉ s.host.indexes) ∧
    (s.log.needsRoll (encodedRecordSize m) = false →
      ∀ g ∈ s.log.segments.getLast?, g.book.Indexable s.log.nextOffset)

/-- The same for each message of a batch, in the state its turn comes in. -/
def AllReady (P : Platform) : List Message → LogState → Prop
  | [], _ => True
  | m :: ms, s => Ready P m s ∧ AllReady P ms (stop (appendOne P m s))

def AppendCall.Clean (P : Platform) : AppendCall → LogState → Prop
  | .append message, s => Ready P message s
  | .appendBatch messages, s => AllReady P messages s
  | .appendWithOffset offset message, s => offset = s.log.nextOffset → Ready P message s

instance (P : Platform) (m : Message) (s : LogState) : Decidable (Ready P m s) :=
  inferInstanceAs (Decidable (_ ∧ _ ∧ (∀ g ∈ s.log.segments.getLast?, g.Writable) ∧ _ ∧
    (_ → ∀ g ∈ s.log.segments.getLast?, g.book.Indexable s.log.nextOffset)))

instance (P : Platform) : ∀ (ms : List Message) (s : LogState), Decidable (AllReady P ms s)
  | [], _ => inferInstanceAs (Decidable True)
  | m :: ms, s =>
    have := instDecidableAllReady P ms (stop (appendOne P m s))
    inferInstanceAs (Decidable (_ ∧ _))

instance (P : Platform) : ∀ (c : AppendCall) (s : LogState), Decidable (c.Clean P s)
  | .append _, s => inferInstanceAs (Decidable (Ready P _ s))
  | .appendBatch _, s => inferInstanceAs (Decidable (AllReady P _ s))
  | .appendWithOffset _ _, _ => inferInstanceAs (Decidable (_ → _))

/-! ## When the appends of a log succeed -/

/-- The last segment can be written to. -/
def ActiveWritable (s : LogState) : Prop := ∀ g ∈ s.log.segments.getLast?, g.Writable

section

variable {P : Platform} {s : LogState} {start : Nat} {rs : List Record} {m : Message}

theorem liftHost_run {α : Type} {x : HostM α} {Q : α → Host → Prop} (h : Runs x s.host Q) :
    Runs (liftHost x) s fun a t => ∃ h', Q a h' ∧ t = { s with host := h' } := by
  obtain ⟨a, h', hx, hq⟩ := h
  refine ⟨a, { s with host := h' }, ?_, h', hq, rfl⟩
  unfold liftHost
  rw [hx]

theorem nowMs_run (h : Host) : Runs nowMs h fun _ h' => h' = { h with tick := h.tick + 1 } :=
  ⟨_, _, rfl, rfl⟩

variable {h : Host}

theorem createWithOptions_run {dir : Dir} {base : Nat} (t : Int64)
    (opts : SegmentOptions) (hplain : refusesDirect P opts.directIo = false)
    (hlog : h.logs.lookup ⟨dir, base⟩ = none)
    (hindex : (⟨dir, base⟩ : Path) ∉ h.indexes) :
    Runs (Segment.createWithOptions P dir base t opts) h fun g _ =>
      g.Writable ∧ g.book.Indexable base := by
  have hsize : HEADER_SIZE ≤ u32Max := by decide
  refine .bind (.bind (.bind (.get ?_)))
  rw [hlog]
  refine .modify ?_
  rw [hplain]
  refine .pure (.bind ?_)
  cases hd : applyDirectIoFlag P opts.directIo with
  | true =>
    refine .pure (.bind (.bind (.get ?_)))
    change Runs (if _ ∈ h.indexes then _ else _) _ _
    rw [if_neg hindex]
    exact .modify (.pure ⟨(Segment.writable_direct rfl).mpr ⟨rfl, rfl, rfl⟩,
      Book.indexable_base hsize⟩)
  | false =>
    refine .modify (.bind (.bind (.get ?_)))
    change Runs (if _ ∈ h.indexes then _ else _) _ _
    rw [if_neg hindex]
    exact .modify (.pure ⟨(Segment.writable_plain rfl).mpr (.inl rfl),
      Book.indexable_base hsize⟩)

/-- Sealing and the clock leave the list of index files alone. -/
theorem blind_indexes (p : Path) :
    Segment.Blind Segment.spanView fun t : SegState => p ∉ t.host.indexes where
  seg _ hs := hs
  file _ hs := hs

section

variable (hi : LogInv P s start rs)

include hi

theorem roll_run (hw : ActiveWritable s)
    (hroll : ∀ g ∈ s.log.segments.getLast?, g.nextOffset ≠ g.baseOffset)
    (hplain : refusesDirect P s.log.config.directIo = false)
    (hindex : (⟨.data, s.log.nextOffset⟩ : Path) ∉ s.host.indexes) :
    Runs (roll P) s fun _ t => t.log.nextOffset = s.log.nextOffset ∧
      ∀ g ∈ t.log.segments.getLast?, g.Writable ∧ g.book.Indexable t.log.nextOffset := by
  obtain ⟨front, g, done, rest, hsegs, rfl, hdir, hs, hinv, hbase, -⟩ := hi.chain.split_last
  have hlast : g ∈ s.log.segments.getLast? := by rw [hsegs, getLast?_concat]; rfl
  -- the active segment holds records, so the new one begins behind it
  have hfree : s.host.logs.lookup ⟨.data, s.log.nextOffset⟩ = none := by
    rw [← Option.not_isSome_iff_eq_none, hi.files]
    intro hmem
    obtain ⟨a, ha, heq⟩ := mem_map.mp hmem
    have hnext : s.log.nextOffset = g.nextOffset := by
      rw [hi.next, hinv.next, length_append]
      omega
    have hgrown := hroll g hlast
    have hlt : g.baseOffset < g.nextOffset := by
      rw [hinv.next] at hgrown ⊢
      omega
    have hpair := hi.chain.bases.1
    rw [hsegs] at ha hpair
    rcases mem_append.mp ha with hfront | hlast
    · rw [map_append, pairwise_append] at hpair
      have := hpair.2.2 _ (mem_map_of_mem hfront) _ (mem_map_of_mem mem_cons_self)
      omega
    · obtain rfl := mem_singleton.mp hlast
      omega
  refine .bind (.get (.bind ?_))
  have hseal : Runs Segment.seal ⟨s.host, g⟩ fun _ t => Untouched s.host g t.host t.seg ∧
      (⟨.data, s.log.nextOffset⟩ : Path) ∉ t.host.indexes := by
    refine ((Segment.seal_run hinv.backs fun _ => hw g hlast).and_ok fun _ t ht => ?_).mono
      fun _ _ h => h.2
    have hkept := Segment.keeps_seal (blind_indexes ⟨.data, s.log.nextOffset⟩) ⟨s.host, g⟩ hindex
    rw [ht] at hkept
    exact ⟨(hinv.holds.sealed hs ht).2.2.2, hkept⟩
  refine (onActive_run hsegs hseal).mono ?_
  rintro _ _ ⟨t, ⟨hkeep, hnew⟩, rfl⟩
  refine .bind ((liftHost_run (nowMs_run t.host)).mono ?_)
  rintro now _ ⟨_, rfl, rfl⟩
  have hother : t.host.logs.lookup ⟨.data, s.log.nextOffset⟩ = none := by
    rw [hkeep.others, hfree]
    intro hc
    have hsome := hinv.lookup_isSome
    rw [← hc, hfree] at hsome
    cases hsome
  have hopens : refusesDirect P (s.log.config.segmentOptions false).directIo = false := by
    simpa [StorageConfig.segmentOptions] using hplain
  refine .bind ((liftHost_run (createWithOptions_run now (s.log.config.segmentOptions false) hopens
    hother hnew)).mono ?_)
  rintro n _ ⟨h', hn, rfl⟩
  refine .modify ⟨rfl, fun a ha => ?_⟩
  simp only [getLast?_concat, Option.mem_def, Option.some.injEq] at ha
  subst ha
  exact hn

/-- A message whose turn it is is appended, and the active segment stays writable. -/
theorem appendOne_run (hr : Ready P m s) :
    Runs (appendOne P m) s fun r t => LogInv P t start (rs ++ [r]) ∧ ActiveWritable t := by
  have hfits := hr.1
  have hlt := hr.2.1
  rw [hi.next] at hlt
  suffices hrun : Runs (appendOne P m) s fun _ t => ActiveWritable t from
    (hrun.and_ok fun r t ht => (appendOne_inv hi hfits hlt ht).2.1).mono fun _ _ h => ⟨h.2, h.1⟩
  -- the clock is read only for a message without a timestamp
  have hstamp : Runs (timestampOf m) s fun _ t => LogInv P t start rs ∧ Ready P m t := by
    unfold timestampOf
    cases m.timestampMs with
    | some t => exact .pure ⟨hi, hr⟩
    | none =>
      refine (liftHost_run (nowMs_run s.host)).mono ?_
      rintro _ _ ⟨_, rfl, rfl⟩
      exact ⟨congr_logs hi rfl, hr⟩
  refine .bind (hstamp.mono ?_)
  rintro stamp t ⟨hi1, -, -, hw, hfree, hindex⟩
  refine .bind (.get (.bind ?_))
  have hroom : Runs (when (t.log.needsRoll (encodedRecordSize m)) (roll P)) t fun _ u =>
      LogInv P u start rs ∧
        ∀ g ∈ u.log.segments.getLast?, g.Writable ∧ g.book.Indexable u.log.nextOffset := by
    cases hneeds : t.log.needsRoll (encodedRecordSize m) with
    | false =>
      exact .pure ⟨hi1, fun g hg => ⟨hw g hg, hindex hneeds g hg⟩⟩
    | true =>
      have hgrown : ∀ g ∈ t.log.segments.getLast?, g.nextOffset ≠ g.baseOffset := by
        intro g hg heq
        rw [Option.mem_def] at hg
        simp [needsRoll, hg, heq] at hneeds
      exact ((roll_run hi1 hw hgrown (hfree hneeds).1 (hfree hneeds).2).and_ok
        fun _ u hu => (roll_inv hi1 hu).1).mono fun _ u h => ⟨h.2, h.1.2⟩
  refine hroom.mono ?_
  rintro _ u ⟨hi2, hready⟩
  refine .bind (.get (.bind ?_))
  obtain ⟨front2, a, done2, rest2, hsegs2, hrs, -, hs, hinv, hbase, -⟩ := hi2.chain.split_last
  obtain ⟨hw, hindex⟩ := hready a (by rw [hsegs2, getLast?_concat]; rfl)
  have hnext : u.log.nextOffset = a.nextOffset := by
    rw [hi2.next, hinv.next, hrs, length_append]
    omega
  rw [hnext] at hindex ⊢
  refine (onActive_run hsegs2 (Segment.append_run (s := ⟨u.host, a⟩) hinv.backs hs hw hindex m
    stamp)).mono ?_
  rintro r _ ⟨v, ⟨-, hv⟩, rfl⟩
  refine .bind (.modify (.pure fun b hb => ?_))
  simp only [getLast?_concat, Option.mem_def, Option.some.injEq] at hb
  exact hb ▸ hv

theorem flush_run (hw : ActiveWritable s) : Runs flush s fun _ _ => True := by
  obtain ⟨front, g, _, _, hsegs, -, -, hs, hinv, -⟩ := hi.chain.split_last
  have hg := hw g (by rw [hsegs, getLast?_concat]; rfl)
  refine .bind (.get (.bind (.when (fun _ => ?_) fun _ => .modify trivial)))
  exact (onActive_run hsegs (Segment.flush_run hinv.backs hs hg)).mono fun _ _ _ => .modify trivial

theorem finishAppend_run (hw : ActiveWritable s) (n : Nat) (waitGroup : Bool) :
    Runs (finishAppend n waitGroup) s fun _ t => LogInv P t start rs := by
  suffices hrun : Runs (finishAppend n waitGroup) s fun _ _ => True from
    (hrun.and_ok fun _ t ht => (finishAppend_inv hi ht).1).mono fun _ _ h => h.2
  refine .bind (.modify (.bind (.get (.when (fun _ => ?_) fun _ => trivial))))
  have hcounted : LogInv P { s with log := { s.log with
      appendsSinceFlush := saturatingAdd s.log.appendsSinceFlush n } } start rs :=
    ⟨hi.chain, hi.next, hi.files, hi.mmap⟩
  exact flush_run hcounted hw

theorem appendEach_run {ms : List Message} (hr : AllReady P ms s) :
    Runs (appendEach P ms) s fun out t =>
      LogInv P t start (rs ++ out) ∧ (out = [] ∧ t = s ∨ ActiveWritable t) := by
  induction ms generalizing s rs with
  | nil => exact .pure ⟨by simpa using hi, .inl ⟨rfl, rfl⟩⟩
  | cons m ms ih =>
    obtain ⟨hm, hms⟩ := hr
    obtain ⟨r, t, hrun, hi1, hw⟩ := appendOne_run hi hm
    rw [hrun] at hms
    refine .bind ⟨r, t, hrun, .bind ((ih hi1 hms).mono fun out u hu => .pure ?_)⟩
    obtain ⟨hi2, ⟨-, hsame⟩ | hw2⟩ := hu
    · exact ⟨by simpa using hi2, .inr (hsame ▸ hw)⟩
    · exact ⟨by simpa using hi2, .inr hw2⟩

/-- A clean call succeeds, or it fails at its offset check and changes nothing. -/
theorem AppendCall.run_cases {c : AppendCall} (hc : c.Clean P s) :
    (Runs (c.run P) s fun out t => LogInv P t start (rs ++ out)) ∨ ∃ e, c.run P s = .error e s := by
  cases c with
  | append m =>
    refine .inl (.bind (.bind ((appendOne_run hi hc).mono ?_)))
    rintro r t ⟨hi1, hw⟩
    exact .bind ((finishAppend_run hi1 hw 1 true).mono fun _ u hu => .pure (.pure hu))
  | appendBatch ms =>
    refine .inl (.bind ((appendEach_run hi hc).mono ?_))
    rintro out t ⟨hi1, hw⟩
    refine .bind (.when (fun hsome => ?_) fun _ => .pure hi1)
    obtain ⟨rfl, -⟩ | hw := hw
    · cases hsome
    · exact (finishAppend_run hi1 hw out.length true).mono fun _ u hu => .pure hu
  | appendWithOffset o m =>
    by_cases ho : o = s.log.nextOffset
    · refine .inl (.bind (.bind (.get ?_)))
      rw [if_neg (not_not_intro ho)]
      refine .bind ((appendOne_run hi (hc ho)).mono ?_)
      rintro r t ⟨hi1, hw⟩
      exact .bind ((finishAppend_run hi1 hw 1 false).mono fun _ u hu => .pure (.pure hu))
    · refine .inr ⟨.storage (toString "append_with_offset gap: expected offset " ++
        toString s.log.nextOffset ++ toString ", got " ++ toString o), bind_error ?_ _⟩
      change (if o ≠ s.log.nextOffset then _ else _ : LogM Record) s = _
      rw [if_pos ho]
      rfl

end

/-! ## What a log serves -/

theorem firstOverlap_of_chain {gs : List Segment} (hc : Chain P h start gs rs) :
    firstOverlap gs = none := by
  induction hc with
  | last => rfl
  | @cons g gs rs ts hdir hs hne hinv hrest ih =>
    cases gs with
    | nil => rfl
    | cons b gs =>
      have hbase : b.baseOffset = g.nextOffset := hrest.head_base
      rw [firstOverlap, if_neg hbase.not_lt]
      exact ih

theorem openSegments_run {bases : List Nat} (config : StorageConfig)
    (hf : Files P h start bases rs) : Runs (openSegments P config bases) h fun _ _ => True := by
  induction bases generalizing h start rs with
  | nil => exact .pure trivial
  | cons base bases ih =>
    have hone : ∃ ts, FileHolds P h base ts ∧
        (bases = [] ∨ ts ≠ [] ∧ ∃ us, Files P h (base + ts.length) bases us) := by
      cases hf with
      | last hfile => exact ⟨_, hfile, .inl rfl⟩
      | cons hfile hne hrest => exact ⟨_, hfile, .inr ⟨hne, _, hrest⟩⟩
    obtain ⟨ts, hfile, hrest⟩ := hone
    obtain ⟨created, z, hz⟩ := hfile.file
    obtain ⟨hrec, -⟩ := @Segment.recoverFile_records P ts base z created
      (config.segmentOptions (!bases.isEmpty)).indexIntervalBytes hfile.storable
      hfile.gapFree.sorted (fun r hr => (hfile.gapFree.bounds hr).1)
      (le_of_add_le_left hfile.bound)
    refine .bind ((Segment.openWithOptions_run hz hrec).mono ?_)
    rintro g h' ⟨-, hlogs⟩
    have hothers : Runs (openSegments P config bases) h' fun _ _ => True := by
      obtain rfl | ⟨hne, us, hfiles⟩ := hrest
      · exact .pure trivial
      · refine ih (hfiles.congr_host fun b hb => ?_)
        have hlt := hfiles.sorted.2 b hb
        have hpos := length_pos_iff.mpr hne
        have hbne : b ≠ base := by omega
        rw [hlogs]
        exact Host.putLog_lookup_of_ne (fun hc => hbne (congrArg Path.base hc)) _ _
    exact .bind (hothers.mono fun _ _ _ => .pure trivial)

/-- A log whose bytes are all in its files opens with the same records. -/
theorem LogInv.reopens (hi : LogInv P s start rs)
    (hdisk : ∀ g ∈ s.log.segments, Segment.OnDisk ⟨s.host, g⟩) {config : StorageConfig}
    (hmmap : applyDirectIoFlag P config.directIo = true → config.useMmap = true) :
    Runs (PartitionLog.open P config) s.host fun log h => LogInv P ⟨h, log⟩ start rs := by
  have hfiles := hi.chain.files hdisk
  have hlist := listSegmentBases_eq hfiles.sorted.1 hi.files
  suffices hrun : Runs (PartitionLog.open P config) s.host fun _ _ => True from
    (hrun.and_ok fun _ _ hopen => open_inv (hi.diskInv hdisk) hmmap hopen).mono fun _ _ h => h.2
  refine .bind (.get ?_)
  have hne : ¬ (listSegmentBases s.host).isEmpty = true := by
    rw [hlist]
    simpa using hi.chain.ne_nil
  rw [if_neg hne, hlist]
  obtain ⟨gs, h', hopen, -⟩ := openSegments_run config hfiles
  have hchain := (openSegments_chain hfiles hmmap hopen).1
  refine .bind ⟨gs, h', hopen, ?_⟩
  dsimp only
  rw [firstOverlap_of_chain hchain]
  exact .pure trivial

end

/-- Reads return these records and no others, and so they do when the log is opened again. -/
structure Serves (P : Platform) (s : LogState) (start : Nat) (rs : List Record) : Prop where
  gapFree : GapFree start rs
  logEnd : s.log.logEndOffset = start + rs.length
  reads : ∀ from_ n, read P s from_ n = .ok ((rs.filter (max from_ start ≤ ·.offset)).take n)
  reopens : (∀ g ∈ s.log.segments, Segment.OnDisk ⟨s.host, g⟩) → ∀ config : StorageConfig,
    (applyDirectIoFlag P config.directIo = true → config.useMmap = true) →
    Runs (PartitionLog.open P config) s.host fun log h => log.logEndOffset = start + rs.length ∧
      ∀ from_ n, read P ⟨h, log⟩ from_ n = .ok ((rs.filter (max from_ start ≤ ·.offset)).take n)

theorem LogInv.serves {P : Platform} {s : LogState} {start : Nat} {rs : List Record}
    (hi : LogInv P s start rs) : Serves P s start rs where
  gapFree := hi.chain.gapFree
  logEnd := hi.next
  reads := read_eq hi
  reopens hdisk _ hmmap := (LogInv.reopens hi hdisk hmmap).mono fun _ _ h => ⟨h.next, read_eq h⟩

end PartitionLog

/-- In a run of append calls in which every call that reaches its write can write and passes the
checks behind it, a call that fails changes nothing, and reads and reopens show exactly the
records of the successful calls. -/
theorem failed_appends_leave_no_trace (P : Platform) :
    (∀ (calls : List Segment.AppendCall) (s : SegState) (rs : List Record),
      s.seg.Holds P s.host rs →
      AllMeet Segment.AppendCall.Clean (Segment.AppendCall.run P) calls s →
      Segment.Serves P (attempts (Segment.AppendCall.run P) calls s).2
        (rs ++ (attempts (Segment.AppendCall.run P) calls s).1)) ∧
    (∀ (c : Segment.AppendCall) (s t : SegState) (rs : List Record) (e : Error),
      s.seg.Holds P s.host rs → c.Clean s → c.run P s = .error e t → t = s) ∧
    (∀ (calls : List PartitionLog.AppendCall) (s : LogState) (start : Nat) (rs : List Record),
      LogInv P s start rs →
      AllMeet (PartitionLog.AppendCall.Clean P) (PartitionLog.AppendCall.run P) calls s →
      PartitionLog.Serves P (attempts (PartitionLog.AppendCall.run P) calls s).2 start
        (rs ++ (attempts (PartitionLog.AppendCall.run P) calls s).1.flatten)) ∧
    ∀ (c : PartitionLog.AppendCall) (s t : LogState) (start : Nat) (rs : List Record) (e : Error),
      LogInv P s start rs → c.Clean P s → c.run P s = .error e t → t = s := by
  have hlog {c : PartitionLog.AppendCall} {s t : LogState} {start : Nat} {rs : List Record}
      {e : Error} (hi : LogInv P s start rs) (hc : c.Clean P s) (hrun : c.run P s = .error e t) :
      t = s := by
    obtain ⟨out, u, hok, -⟩ | ⟨e', herror⟩ := PartitionLog.AppendCall.run_cases hi hc
    · rw [hok] at hrun
      cases hrun
    · rw [herror] at hrun
      cases hrun
      rfl
  refine ⟨fun calls s rs hi hall => Segment.Holds.serves ?_,
    fun c s t rs e hi hc hrun => Segment.AppendCall.eq_of_error hc hi hrun,
    fun calls s start rs hi hall => PartitionLog.LogInv.serves ?_,
    fun c s t start rs e hi hc hrun => hlog hi hc hrun⟩
  · have hstart : s.seg.Holds P s.host (rs ++ []) := by rwa [append_nil]
    refine attempts_inv (I := fun done u => u.seg.Holds P u.host (rs ++ done)) ?_ ?_ hall hstart
    · intro c u done r v hc hi' hrun
      rw [← append_assoc]
      exact Segment.AppendCall.holds_of_ok hc hi' hrun
    · intro c u done e v hc hi' hrun
      exact Segment.AppendCall.eq_of_error hc hi' hrun
  · have hstart : LogInv P s start (rs ++ ([] : List (List Record)).flatten) := by
      rwa [flatten_nil, append_nil]
    refine attempts_inv (I := fun done u => LogInv P u start (rs ++ done.flatten)) ?_ ?_ hall hstart
    · intro c u done out v hc hi' hrun
      obtain ⟨out', v', hok, hv⟩ | ⟨e, herror⟩ := PartitionLog.AppendCall.run_cases hi' hc
      · rw [hok] at hrun
        cases hrun
        rw [flatten_concat, ← append_assoc]
        exact hv
      · rw [herror] at hrun
        cases hrun
    · intro c u done e v hc hi' hrun
      exact hlog hi' hc hrun

/-! ## Concrete runs -/

theorem newLog_inv : LogInv plainPlatform newLog 0 [] := by
  have hopen : PartitionLog.open plainPlatform .default (Store.fresh fun _ => 0).host =
      .ok newLog.log newLog.host := rfl
  exact open_inv (.inl ⟨rfl, rfl, fun _ => rfl⟩) (fun _ => rfl) hopen

theorem firstSegment_holds : firstSegment.Holds plainPlatform newLog.host [] := by
  obtain ⟨front, g, done, rest, hsegs, hrs, -, -, hinv, -⟩ := newLog_inv.chain.split_last
  obtain ⟨-, rfl⟩ := append_eq_nil_iff.mp hrs.symm
  obtain ⟨-, hg⟩ := append_inj' (show [] ++ [firstSegment] = front ++ [g] from hsegs) rfl
  obtain rfl := singleton_inj.mp hg
  exact hinv.holds

/-- Calls with a wrong offset among calls that succeed. -/
def wrongOffsets : List Segment.AppendCall :=
  [.append 5 smallMessage 0, .append 0 smallMessage 0, .appendAllowGap 0 smallMessage 0,
    .append 1 smallMessage 0]

def wrongLogOffsets : List PartitionLog.AppendCall :=
  [.appendWithOffset 3 smallMessage, .append smallMessage, .appendBatch [smallMessage, smallMessage],
    .appendWithOffset 0 smallMessage]

theorem failed_appends_leave_no_trace_wrong_offsets :
    ∃ s t, s = (attempts (Segment.AppendCall.run plainPlatform) wrongOffsets
        ⟨newLog.host, firstSegment⟩).2 ∧
      t = (attempts (PartitionLog.AppendCall.run plainPlatform) wrongLogOffsets newLog).2 ∧
      Segment.Serves plainPlatform s [smallMessage.toRecord 0 0, smallMessage.toRecord 1 0] ∧
      PartitionLog.Serves plainPlatform t 0 [smallMessage.toRecord 0 0, smallMessage.toRecord 1 0,
        smallMessage.toRecord 2 0] := by
  have hsegment := (failed_appends_leave_no_trace plainPlatform).1 wrongOffsets
    ⟨newLog.host, firstSegment⟩ [] firstSegment_holds (by
      refine ⟨?_, ?_, ?_, ?_, trivial⟩
      all_goals decide +kernel)
  have hlog := (failed_appends_leave_no_trace plainPlatform).2.2.1 wrongLogOffsets newLog 0 []
    newLog_inv (by
      refine ⟨?_, ?_, ?_, ?_, trivial⟩
      all_goals decide +kernel)
  exact ⟨_, _, rfl, rfl, hsegment, hlog⟩

/-- The offsets a segment's read returns. -/
def offsetsRead (P : Platform) (h : Host) (g : Segment) : Option (List Nat) :=
  (Segment.readFrom P h g 0 10 usizeMax).toOption.map (·.map (·.offset))

def offsetsReopened (P : Platform) (h : Host) : Option (List Nat) :=
  match Segment.openWithOptions P .data 0 (StorageConfig.default.segmentOptions false) false h with
  | .ok g h' => offsetsRead P h' g
  | .error _ _ => none

/-- An append at offset 2^32 fails, and the one behind it succeeds at offset 0. The read returns
nothing, and the reopened segment has the record of the failed call instead of the other. -/
theorem unindexable_append_leaves_trace :
    let r := attempts (Segment.AppendCall.run plainPlatform)
      [.appendAllowGap (2 ^ 32) smallMessage 0, .append 0 smallMessage 0]
      ⟨newLog.host, firstSegment⟩
    r.1 = [smallMessage.toRecord 0 0] ∧ offsetsRead plainPlatform r.2.host r.2.seg = some [] ∧
      offsetsReopened plainPlatform r.2.host = some [2 ^ 32] := by
  decide +kernel

end Volant.Storage
