-- SUMMARY: The invariant of a segment that holds a run of records, with or without gaps, kept by its operations.
import Volant.Storage.SegmentBytes
import Volant.Storage.TornTail

/-!
# Segment specification

`Segment.Holds P h g rs` says that the segment `g`, with its files in `h`, holds
exactly the records `rs`. Creating, opening, appending, flushing and sealing
keep it, and a read returns what it says. Compaction leaves holes between the
offsets of a segment; `Segment.Inv` is the case without them.
-/

namespace Volant.Storage

open List Exec

/-- The bytes of a segment that starts at `base` and holds `rs`. -/
def segmentBytes (crc : Bytes → UInt32) (base : Nat) (createdAtMs : Int64) (rs : List Record) :
    Bytes :=
  encodeHeader base createdAtMs ++ encodeAll crc rs

theorem length_segmentBytes (crc : Bytes → UInt32) (base : Nat) (t : Int64) (rs : List Record) :
    (segmentBytes crc base t rs).length = HEADER_SIZE + (encodeAll crc rs).length := by
  simp [segmentBytes]

theorem segmentBytes_snoc (crc : Bytes → UInt32) (base : Nat) (t : Int64) (rs : List Record)
    (r : Record) :
    segmentBytes crc base t (rs ++ [r]) = segmentBytes crc base t rs ++ encodeStored crc r := by
  simp [segmentBytes]

structure Segment.Holds (P : Platform) (h : Host) (g : Segment) (rs : List Record) : Prop where
  backs : SegState.Backs ⟨h, g⟩ (segmentBytes P.crc g.baseOffset g.createdAtMs rs)
  settled : g.Settled
  storable : ∀ r ∈ rs, Storable r
  sorted : (rs.map (·.offset)).Pairwise (· < ·)
  above : ∀ r ∈ rs, g.baseOffset ≤ r.offset
  below : ∀ r ∈ rs, r.offset < g.nextOffset
  start : g.baseOffset ≤ g.nextOffset
  bound : g.nextOffset ≤ u64Max
  index : IndexOk P.crc g.baseOffset rs g.index
  /-- A sealed direct segment is only readable through its mapping. -/
  mmapIfDirect : g.directIo = true → g.useMmap = true
  directBuild : g.directIo = true → P.directIo = true

/-- The segment holds a gap-free run of records. -/
structure Segment.Inv (P : Platform) (h : Host) (g : Segment) (rs : List Record) : Prop where
  backs : SegState.Backs ⟨h, g⟩ (segmentBytes P.crc g.baseOffset g.createdAtMs rs)
  settled : g.Settled
  storable : ∀ r ∈ rs, Storable r
  gapFree : GapFree g.baseOffset rs
  next : g.nextOffset = g.baseOffset + rs.length
  bound : g.nextOffset ≤ u64Max
  index : IndexOk P.crc g.baseOffset rs g.index
  mmapIfDirect : g.directIo = true → g.useMmap = true
  directBuild : g.directIo = true → P.directIo = true

/-- The segment keeps its name, and no other file changes. -/
structure Untouched (h : Host) (g : Segment) (h' : Host) (g' : Segment) : Prop where
  others : ∀ q, q ≠ g.path → h'.logs.lookup q = h.logs.lookup q
  dir : g'.dir = g.dir
  base : g'.baseOffset = g.baseOffset

theorem Untouched.path {h h' : Host} {g g' : Segment} (hun : Untouched h g h' g') :
    g'.path = g.path := by
  rw [Segment.path, hun.dir, hun.base, Segment.path]

namespace Segment

variable {P : Platform} {h h' : Host} {g : Segment} {rs : List Record} {s' : SegState}
  {o base z : Nat} {m : Message} {t created : Int64} {r : Record} {u : Unit} {dir : Dir}
  {opts : SegmentOptions} {isSealed : Bool}

theorem Inv.holds (hi : Inv P h g rs) : Holds P h g rs where
  backs := hi.backs
  settled := hi.settled
  storable := hi.storable
  sorted := hi.gapFree.sorted
  above r hr := (hi.gapFree.bounds hr).1
  below r hr := by
    rw [hi.next]
    exact (hi.gapFree.bounds hr).2
  start := by
    rw [hi.next]
    omega
  bound := hi.bound
  index := hi.index
  mmapIfDirect := hi.mmapIfDirect
  directBuild := hi.directBuild

theorem Holds.inv (hi : Holds P h g rs) (hgap : GapFree g.baseOffset rs)
    (hnext : g.nextOffset = g.baseOffset + rs.length) : Inv P h g rs where
  backs := hi.backs
  settled := hi.settled
  storable := hi.storable
  gapFree := hgap
  next := hnext
  bound := hi.bound
  index := hi.index
  mmapIfDirect := hi.mmapIfDirect
  directBuild := hi.directBuild

theorem Holds.congr_host (hi : Holds P h g rs)
    (hl : h'.logs.lookup g.path = h.logs.lookup g.path) : Holds P h' g rs where
  __ := hi
  backs := by
    obtain ⟨⟨file, hfile, hback⟩, hsize⟩ := hi.backs
    exact ⟨⟨file, hl.trans hfile, hback⟩, hsize⟩

theorem Inv.congr_host (hi : Inv P h g rs) (hl : h'.logs.lookup g.path = h.logs.lookup g.path) :
    Inv P h' g rs :=
  (hi.holds.congr_host hl).inv hi.gapFree hi.next

/-! ## Reading -/

theorem Holds.loadData (hi : Holds P h g rs) :
    loadData h g = .ok (segmentBytes P.crc g.baseOffset g.createdAtMs rs) := by
  obtain ⟨⟨file, hfile, hback⟩, hsize⟩ := hi.backs
  simp only at hfile hback hsize
  unfold Segment.loadData
  cases hback with
  | sealed hs hf hm =>
    obtain hm | ⟨hm, hd⟩ := hm
    · rw [hm]
    · simp only [hm, hfile, hd, Bool.false_eq_true, if_false, hf]
  | buffered w hs hd hw hm hcursor hbytes =>
    rw [hi.settled w hw, append_nil] at hbytes
    simp only [hm, hfile, hd, Bool.false_eq_true, if_false, hbytes]
  | raw hs hd hw hm hbytes =>
    simp only [hm, hfile, hd, Bool.false_eq_true, if_false, hbytes]
  | direct hs hd hf hw hm hphys hbytes hrest =>
    simp only [hm, hfile, hd, if_true]
    rw [if_neg (by omega), hbytes, hsize, take_length]

/-- A read returns the records from `start` on, up to the message limit. -/
theorem Holds.readFrom (hi : Holds P h g rs) (start n : Nat) :
    readFrom P h g start n usizeMax = .ok ((rs.filter (start ≤ ·.offset)).take n) := by
  have hlt := hi.below
  have hskip (done : List Record) (hdone : ∀ r ∈ done, r.offset < start) :
      done.filter (start ≤ ·.offset) = [] :=
    filter_eq_nil_iff.mpr fun r hr => by simpa using hdone r hr
  unfold Segment.readFrom
  by_cases hn : n = 0
  · simp [hn]
    rfl
  by_cases hend : g.nextOffset ≤ start
  · simp [hn, hend, hskip rs fun r hr => (hlt r hr).trans_le hend]
    rfl
  by_cases hempty : g.nextOffset = g.baseOffset
  · have hnil : rs = [] := by
      refine eq_nil_iff_forall_not_mem.mpr fun r hr => ?_
      have := hi.above r hr
      have := hi.below r hr
      omega
    simp [hn, hempty, hnil]
    rfl
  let data := segmentBytes P.crc g.baseOffset g.createdAtMs rs
  -- Wherever the scan starts, only records below `start` are skipped.
  have hscan : ∀ done rest, rs = done ++ rest → (∀ r ∈ done, r.offset < start) →
      readLoop P.crc data start g.nextOffset n usizeMax data.length
        (HEADER_SIZE + (encodeAll P.crc done).length) 0 [] =
      (rs.filter (start ≤ ·.offset)).take n := by
    rintro done rest rfl hdone
    have hfuel : rest.length ≤ data.length := by
      have := length_le_encodeAll P.crc rest
      simp only [data, length_segmentBytes, encodeAll_append, length_append]
      omega
    have hloop := @readLoop_eq rest P.crc start g.nextOffset n
      (encodeHeader g.baseOffset g.createdAtMs ++ encodeAll P.crc done) [] _ 0 hfuel
      (fun r hr => hi.storable r (mem_append_right _ hr))
      (fun r hr => hlt r (mem_append_right _ hr))
    simp only [length_append, length_encodeHeader, append_assoc, nil_append,
      length_nil, Nat.sub_zero] at hloop
    rw [filter_append, hskip done hdone, nil_append, ← hloop]
    simp only [data, segmentBytes, encodeAll_append]
  have hdata : data.take (min g.size data.length) = data := by
    rw [hi.backs.size, min_self, take_length]
  have hhead : ¬ data.length < HEADER_SIZE := by
    rw [length_segmentBytes]
    omega
  have hstart : readLoop P.crc data start g.nextOffset n usizeMax data.length
      (if start ≤ g.baseOffset then HEADER_SIZE
        else (g.index.lookup ((start - g.baseOffset) % 2 ^ 32)).getD HEADER_SIZE) 0 [] =
      (rs.filter (start ≤ ·.offset)).take n := by
    have hfront := hscan [] rs rfl (by simp)
    simp only [encodeAll_nil, length_nil, Nat.add_zero] at hfront
    split
    · exact hfront
    · cases hlook : g.index.lookup ((start - g.baseOffset) % 2 ^ 32) with
      | none => exact hfront
      | some pos =>
        obtain ⟨done, rest, hrs, rfl, hdone⟩ := hi.index.lookup_split (by omega) hlook
        exact hscan done rest hrs hdone
  rw [if_neg hn, if_neg hend, if_neg hempty, hi.loadData]
  simp only [bind, Except.bind, data, hdata]
  rw [if_neg hhead, hstart]
  rfl

/-! ## Appending -/

/-- Bookkeeping fields say nothing about where the bytes of an unsealed segment are. -/
theorem backed_bookkeeping {file bytes : Bytes} (hb : Backed file g bytes)
    (hs : g.sealed = false) (i : SparseIndex) (b n : Nat) (t : Int64) :
    Backed file { g with
      index := i, bytesSinceIndex := b, nextOffset := n, lastTimestampMs := t, mmap := none }
      bytes := by
  cases hb with
  | sealed hs' => simp [hs] at hs'
  | buffered w _ hd hw _ hcursor hbytes => exact .buffered w hs hd hw rfl hcursor hbytes
  | raw _ hd hw _ hbytes => exact .raw hs hd hw rfl hbytes
  | direct _ hd hf hw _ hphys hbytes hrest => exact .direct hs hd hf hw rfl hphys hbytes hrest

/-- What a successful append does to the bytes, whatever the message. -/
theorem appendEncoded_backs {s : SegState} {bytes : Bytes} (hb : s.Backs bytes)
    (hs : s.seg.sealed = false) (hrun : appendEncoded P o m t s = .ok r s') :
    r = m.toRecord o t ∧ s'.Backs (bytes ++ encodeRecord P.crc o t m) ∧ s'.seg.Settled ∧
      (∀ q, q ≠ s.seg.path → s'.host.logs.lookup q = s.host.logs.lookup q) ∧
      ∃ w ps pd sz i b n, s'.seg = { s.seg with
        logWriter := w, physicalSize := ps, pending := pd, size := sz
        index := i, bytesSinceIndex := b, nextOffset := n, lastTimestampMs := t, mmap := none } := by
  simp only [appendEncoded, bind_ok, get_ok] at hrun
  obtain ⟨_, s1, hwrite, _, _, ⟨rfl, rfl⟩, _, s2, hindex, _, s3, hbook, _, s4, hflush, hret⟩ :=
    hrun
  obtain ⟨rfl, rfl⟩ := pure_ok.mp hret
  obtain ⟨⟨⟨file, hfile, hback⟩, hsize⟩, hframe⟩ := writeEncoded_backs hb hs hwrite
  obtain ⟨w, ps, pd, sz, hseg⟩ := hframe.seg
  have hs1 : s1.seg.sealed = false := hframe.sealed.trans hs
  -- The bookkeeping between the write and the flush does not move the bytes.
  have hindexed := indexRecord_run o (s1.seg.size - (encodeRecord P.crc o t m).length)
    (indexRecord_checks hindex)
  rw [hindex] at hindexed
  cases hindexed
  obtain rfl := modify_ok.mp hbook
  have hmid : ∀ i b n, SegState.Backs ⟨s1.host, { s1.seg with
      index := i, bytesSinceIndex := b, nextOffset := n, lastTimestampMs := t, mmap := none }⟩
      (bytes ++ encodeRecord P.crc o t m) :=
    fun i b n => ⟨⟨file, hfile, backed_bookkeeping hback hs1 i b n t⟩, hsize⟩
  obtain ⟨hback', hset, hframe', -⟩ := flushWriter_backs (hmid _ _ _) hs1 hflush
  obtain ⟨w', ps', pd', sz', hseg'⟩ := hframe'.seg
  have hpath : s1.seg.path = s.seg.path := hframe.path
  refine ⟨rfl, hback', hset, ?_, ?_⟩
  · intro q hq
    rw [hframe'.others q fun hc => hq (hc.trans hpath)]
    exact hframe.others q hq
  · rw [hseg', hseg]
    exact ⟨_, _, _, _, _, _, _, rfl⟩

/-- Appending behind the records, at the next offset or with a gap. -/
theorem Holds.appendEncoded (hi : Holds P h g rs) (hm : Message.Fits m) (ho : o < u64Max)
    (hs : g.sealed = false) (hoff : g.nextOffset ≤ o)
    (hrun : appendEncoded P o m t ⟨h, g⟩ = .ok r s') :
    r = m.toRecord o t ∧ s'.seg.nextOffset = o + 1 ∧ s'.seg.sealed = false ∧
      Holds P s'.host s'.seg (rs ++ [r]) ∧ Untouched h g s'.host s'.seg := by
  obtain ⟨rfl, hback, hset, hothers, w, ps, pd, sz, i, b, n, hseg⟩ :=
    appendEncoded_backs hi.backs hs hrun
  obtain ⟨-, hbook⟩ := book_appendEncoded hrun
  rw [← encodeStored_toRecord, ← segmentBytes_snoc] at hback
  have hfields : s'.seg.createdAtMs = g.createdAtMs ∧ s'.seg.dir = g.dir ∧
      s'.seg.directIo = g.directIo ∧ s'.seg.useMmap = g.useMmap ∧ s'.seg.sealed = g.sealed := by
    rw [hseg]
    exact ⟨rfl, rfl, rfl, rfl, rfl⟩
  obtain ⟨hcreated, hdir, hdirect, hmmap, hsealed⟩ := hfields
  have hbase : s'.seg.baseOffset = g.baseOffset := congrArg Book.baseOffset hbook
  have hnext : s'.seg.nextOffset = o + 1 :=
    (congrArg Book.nextOffset hbook).trans (Offset.next_of_lt ho)
  have hindex : s'.seg.index = (g.book.record o (encodedRecordSize m)).index :=
    congrArg Book.index hbook
  have hlt : ∀ t ∈ rs, t.offset < o := fun t ht => lt_of_lt_of_le (hi.below t ht) hoff
  have habove : g.baseOffset ≤ o := le_trans hi.start hoff
  have hsize : g.size = HEADER_SIZE + (encodeAll P.crc rs).length := by
    have := hi.backs.size
    rwa [length_segmentBytes] at this
  refine ⟨rfl, hnext, hsealed.trans hs, ⟨?_, hset, ?_, ?_, ?_, ?_, ?_, ?_, ?_, ?_, ?_⟩,
    ⟨hothers, hdir, hbase⟩⟩
  · rw [hbase, hcreated]
    exact hback
  · rw [forall_mem_append]
    exact ⟨hi.storable, by simpa using Storable.of_message hm ho t⟩
  · rw [map_append]
    exact pairwise_append.mpr ⟨hi.sorted, by simp, by simpa using hlt⟩
  · rw [hbase, forall_mem_append]
    exact ⟨hi.above, by simpa using habove⟩
  · rw [hnext, forall_mem_append]
    exact ⟨fun t ht => Nat.lt_succ_of_lt (hlt t ht), by simp⟩
  · omega
  · omega
  · rw [hbase, hindex]
    simp only [Book.record]
    split
    · have hentry := hi.index.snoc_entry (r := m.toRecord o t) habove hlt
      rw [← hsize] at hentry
      exact hentry
    · exact hi.index.snoc _
  · rw [hdirect, hmmap]
    exact hi.mmapIfDirect
  · rw [hdirect]
    exact hi.directBuild

theorem Inv.append (hi : Inv P h g rs) (hm : Message.Fits m) (ho : o < u64Max)
    (hrun : append P o m t ⟨h, g⟩ = .ok r s') :
    r = m.toRecord o t ∧ o = g.nextOffset ∧ g.sealed = false ∧ s'.seg.sealed = false ∧
      Inv P s'.host s'.seg (rs ++ [r]) ∧ Untouched h g s'.host s'.seg := by
  obtain ⟨hs, hoff, hrun⟩ := append_ok hrun
  obtain ⟨rfl, hnext, hs', hholds, hkeep⟩ := hi.holds.appendEncoded hm ho hs hoff.ge hrun
  refine ⟨rfl, hoff, hs, hs', hholds.inv ?_ ?_, hkeep⟩
  · rw [hkeep.base]
    exact GapFree.append_iff.mpr ⟨hi.gapFree, by rw [← hi.next, ← hoff]; exact ⟨rfl, trivial⟩⟩
  · rw [hnext, hkeep.base, hoff, hi.next, length_append, length_singleton]
    omega

/-- A larger next offset leaves a hole behind the records. -/
theorem Holds.setNextOffset (hi : Holds P h g rs) {n : Nat} (hn : n ≤ u64Max)
    (hrun : setNextOffset n ⟨h, g⟩ = .ok u s') :
    s' = ⟨h, { g with nextOffset := n }⟩ ∧ g.nextOffset ≤ n ∧
      Holds P h { g with nextOffset := n } rs := by
  simp only [Segment.setNextOffset, get_bind_ok, check_ok, not_lt] at hrun
  obtain ⟨hle, hrun⟩ := hrun
  refine ⟨(modify_ok.mp hrun).symm, hle, ?_⟩
  obtain ⟨⟨file, hfile, hb⟩, hsize⟩ := hi.backs
  refine { hi with
    backs := ⟨⟨file, hfile, ?_⟩, hsize⟩
    below := fun r hr => lt_of_lt_of_le (hi.below r hr) hle
    start := le_trans hi.start hle
    bound := hn }
  cases hb with
  | sealed hs hf hm => exact .sealed hs hf hm
  | buffered w hs hd hw hm hcursor hbytes => exact .buffered w hs hd hw hm hcursor hbytes
  | raw hs hd hw hm hbytes => exact .raw hs hd hw hm hbytes
  | direct hs hd hf hw hm hphys hbytes hrest => exact .direct hs hd hf hw hm hphys hbytes hrest

/-! ## Flushing and sealing -/

theorem Holds.flush (hi : Holds P h g rs) (hs : g.sealed = false)
    (hrun : flush ⟨h, g⟩ = .ok u s') :
    Holds P s'.host s'.seg rs ∧ OnDisk s' ∧ s'.seg.sealed = false ∧
      s'.seg.nextOffset = g.nextOffset ∧ Untouched h g s'.host s'.seg := by
  obtain ⟨host, seg⟩ := s'
  obtain ⟨hback, hset, hdisk, hframe⟩ := flush_backs hi.backs hs hrun
  obtain ⟨w, ps, pd, sz, rfl⟩ := hframe.seg
  exact ⟨{ hi with backs := hback, settled := hset }, hdisk, hframe.sealed.trans hs, rfl,
    ⟨hframe.others, rfl, rfl⟩⟩

theorem Inv.flush (hi : Inv P h g rs) (hs : g.sealed = false)
    (hrun : flush ⟨h, g⟩ = .ok u s') :
    Inv P s'.host s'.seg rs ∧ OnDisk s' ∧ s'.seg.sealed = false ∧ Untouched h g s'.host s'.seg := by
  obtain ⟨hholds, hdisk, hs', hnext, hkeep⟩ := hi.holds.flush hs hrun
  exact ⟨hholds.inv (hkeep.base ▸ hi.gapFree) (by rw [hnext, hkeep.base, hi.next]), hdisk, hs',
    hkeep⟩

theorem Holds.sealed (hi : Holds P h g rs) (hs : g.sealed = false)
    (hrun : Segment.seal ⟨h, g⟩ = .ok u s') :
    Holds P s'.host s'.seg rs ∧ s'.seg.sealed = true ∧ s'.seg.nextOffset = g.nextOffset ∧
      Untouched h g s'.host s'.seg := by
  obtain ⟨host, seg⟩ := s'
  obtain ⟨hback, hothers, w, f, i, m, b, ps, pd, sz, hseg⟩ :=
    seal_backs hi.backs hi.mmapIfDirect hs hrun
  have hset : seg.Settled := by
    intro w' hw'
    have hw : seg.logWriter = none := by
      simp only [Segment.seal, get_bind_ok] at hrun
      rw [if_neg (by simp [hs])] at hrun
      simp only [bind_ok, get_ok, modify_ok] at hrun
      obtain ⟨_, _, -, _, _, -, _, _, -, hend⟩ := hrun
      cases hend
      rfl
    rw [hw] at hw'
    cases hw'
  obtain rfl := hseg
  exact ⟨{ hi with backs := hback, settled := hset }, rfl, rfl, ⟨hothers, rfl, rfl⟩⟩

theorem Inv.sealed (hi : Inv P h g rs) (hs : g.sealed = false)
    (hrun : Segment.seal ⟨h, g⟩ = .ok u s') :
    Inv P s'.host s'.seg rs ∧ s'.seg.sealed = true ∧ Untouched h g s'.host s'.seg := by
  obtain ⟨hholds, hs', hnext, hkeep⟩ := hi.holds.sealed hs hrun
  exact ⟨hholds.inv (hkeep.base ▸ hi.gapFree) (by rw [hnext, hkeep.base, hi.next]), hs', hkeep⟩

/-! ## Creating -/

theorem createNewLog_ok {p : Path} (hrun : createNewLog p h = .ok u h') :
    h.logs.lookup p = none ∧ h' = h.putLog p [] := by
  simp only [createNewLog, get_bind_ok] at hrun
  rcases hl : h.logs.lookup p with _ | file <;> rw [hl] at hrun
  · exact ⟨rfl, (modify_ok.mp hrun).symm⟩
  · exact absurd hrun throw_ok

theorem createNewIndex_ok {p : Path} (hrun : createNewIndex p h = .ok u h') : h'.logs = h.logs := by
  simp only [createNewIndex, get_bind_ok, check_ok] at hrun
  rw [← modify_ok.mp hrun.2]

theorem openNewLog_ok {p : Path} {wantDirect : Bool} (hrun : openNewLog P p wantDirect h = .ok u h') :
    h.logs.lookup p = none ∧ h' = h.putLog p [] := by
  obtain ⟨_, h1, hnew, hrest⟩ := bind_ok.mp hrun
  obtain ⟨hnone, rfl⟩ := createNewLog_ok hnew
  refine ⟨hnone, ?_⟩
  split at hrest
  · cases hrest
  · exact (pure_ok.mp hrest).2.symm

/-- A segment is created only where no log file is, and its file has the header unless the write
path is direct. -/
theorem createWithOptions_ok (hrun : createWithOptions P dir base t opts h = .ok g h') :
    h.logs.lookup ⟨dir, base⟩ = none ∧ g.path = ⟨dir, base⟩ ∧ g.nextOffset = base ∧
      h'.logs = (h.putLog ⟨dir, base⟩ (if applyDirectIoFlag P opts.directIo then []
        else encodeHeader base t)).logs := by
  simp only [createWithOptions, bind_ok] at hrun
  obtain ⟨_, h1, hnew, _, h2, hheader, _, h3, hindex, hret⟩ := hrun
  obtain ⟨rfl, rfl⟩ := pure_ok.mp hret
  obtain ⟨hnone, rfl⟩ := openNewLog_ok hnew
  refine ⟨hnone, rfl, rfl, (createNewIndex_ok hindex).trans ?_⟩
  cases hd : applyDirectIoFlag P opts.directIo with
  | true =>
    rw [hd] at hheader
    rw [← (pure_ok.mp hheader).2, if_pos rfl]
  | false =>
    rw [hd] at hheader
    rw [← modify_ok.mp hheader]
    exact AList.insert_insert _

/-- A new segment is empty, whichever write path it gets. -/
theorem createWithOptions_inv
    (hmmap : applyDirectIoFlag P opts.directIo = true → opts.useMmap = true) (hbase : base ≤ u64Max)
    (hrun : createWithOptions P dir base t opts h = .ok g h') :
    h.logs.lookup ⟨dir, base⟩ = none ∧ Inv P h' g [] ∧ g.sealed = false ∧ g.path = ⟨dir, base⟩ ∧
      ∀ q, q ≠ (⟨dir, base⟩ : Path) → h'.logs.lookup q = h.logs.lookup q := by
  obtain ⟨hnone, hpath, -, hlogs⟩ := createWithOptions_ok hrun
  simp only [createWithOptions, bind_ok] at hrun
  obtain ⟨_, _, -, _, _, -, _, _, -, hret⟩ := hrun
  obtain ⟨rfl, rfl⟩ := pure_ok.mp hret
  have hfile := congrArg (AList.lookup ⟨dir, base⟩) hlogs
  rw [Host.putLog_lookup_self] at hfile
  have hsize : HEADER_SIZE = (segmentBytes P.crc base t []).length := by
    simp [length_segmentBytes]
  have hbytes : segmentBytes P.crc base t [] = encodeHeader base t := by
    simp [segmentBytes]
  refine ⟨hnone, ?_, rfl, hpath, fun q hq => ?_⟩
  swap
  · rw [hlogs]
    exact Host.putLog_lookup_of_ne hq _ _
  cases hd : applyDirectIoFlag P opts.directIo with
  | true =>
    rw [if_pos hd] at hfile
    refine ⟨⟨⟨[], hfile, ?_⟩, hsize⟩, ?_, by simp, trivial, rfl, hbase, .nil, ?_, ?_⟩
    · exact .direct rfl rfl rfl rfl rfl (Nat.zero_le _) (by simp [hbytes]) ⟨0, 0, rfl⟩
    · intro w hw
      simp at hw
    · exact fun _ => hmmap hd
    · intro _
      simp only [applyDirectIoFlag, Bool.and_eq_true] at hd
      exact hd.2
  | false =>
    rw [hd] at hfile
    refine ⟨⟨⟨encodeHeader base t, hfile, ?_⟩, hsize⟩, ?_, by simp, trivial, rfl, hbase, .nil,
      fun h => (by cases h), fun h => (by cases h)⟩
    · exact .buffered { cursor := HEADER_SIZE, buf := [] } rfl rfl rfl rfl
        (length_encodeHeader base t).symm (by simp [hbytes])
    · intro w hw
      obtain rfl : { cursor := HEADER_SIZE, buf := [] } = w := by simpa using hw
      rfl

/-! ## Opening -/

/-- What is on disk when every pending byte is: the bytes of the segment, and padding. -/
theorem Holds.file_of_onDisk (hi : Holds P h g rs) (hdisk : OnDisk ⟨h, g⟩) :
    ∃ z, h.logs.lookup g.path =
      some (segmentBytes P.crc g.baseOffset g.createdAtMs rs ++ replicate z 0) := by
  obtain ⟨⟨file, hfile, hback⟩, -⟩ := hi.backs
  rw [hfile]
  cases hback with
  | sealed _ hf => exact ⟨0, by simp [hf]⟩
  | buffered w _ _ hw _ _ hbytes =>
    rw [hi.settled w hw, append_nil] at hbytes
    exact ⟨0, by simp [hbytes]⟩
  | raw _ _ _ _ hbytes => exact ⟨0, by simp [hbytes]⟩
  | direct _ hd _ _ _ hphys hbytes hrest =>
    obtain ⟨tail, htail⟩ := hdisk hd
    simp only [Host.bytesOf_of_lookup hfile] at htail
    obtain ⟨j, z, hj⟩ := hrest
    -- The file continues with the pending bytes, and what follows them is padding.
    have hzeros : tail = replicate tail.length 0 := by
      rw [eq_replicate_iff]
      refine ⟨rfl, ?_⟩
      intro b hb
      have hdrop : tail = (g.pending.take j ++ replicate z 0).drop g.pending.length := by
        rw [← hj, ← htail, drop_left]
      have hshort : (g.pending.take j).length ≤ g.pending.length := by
        rw [length_take]
        exact Nat.min_le_right _ _
      rw [hdrop, drop_append, drop_eq_nil_of_le hshort, drop_replicate] at hb
      exact eq_of_mem_replicate hb
    refine ⟨tail.length, congrArg some ?_⟩
    rw [← hbytes, append_assoc, ← hzeros, htail, take_append_drop]

theorem Holds.file_of_sealed (hi : Holds P h g rs) (hs : g.sealed = true) :
    h.logs.lookup g.path = some (segmentBytes P.crc g.baseOffset g.createdAtMs rs) := by
  obtain ⟨⟨file, hfile, hback⟩, -⟩ := hi.backs
  rw [hfile]
  cases hback with
  | sealed _ hf => rw [hf]
  | buffered _ hs' => simp [hs] at hs'
  | raw hs' => simp [hs] at hs'
  | direct hs' => simp [hs] at hs'

/-- A freshly opened segment has all its bytes in the file. -/
theorem backed_reopened {header : SegmentHeader} {acc : Recovered} {file : Bytes}
    (hsize : acc.pos = file.length) :
    Backed file (reopened P dir base opts isSealed header acc file) file := by
  cases isSealed with
  | true =>
    refine .sealed rfl rfl ?_
    cases hm : opts.useMmap with
    | true => exact .inl (by simp [reopened, hm])
    | false => exact .inr (by simp [reopened, opensRaw, hm])
  | false =>
    cases hraw : opensRaw P opts false with
    | false =>
      refine .buffered { cursor := acc.pos, buf := [] } rfl ?_ ?_ ?_ hsize (append_nil _)
      · simp [reopened, hraw]
      · simp [reopened, hraw]
      · simp [reopened]
    | true =>
      cases hused : applyDirectIoFlag P true with
      | false =>
        refine .raw rfl ?_ ?_ ?_ rfl
        · simp [reopened, hused]
        · simp [reopened, hraw]
        · simp [reopened]
      | true =>
        refine .direct rfl ?_ ?_ ?_ ?_ hsize.le ?_ ⟨0, 0, ?_⟩
        · simp [reopened, hused, hraw]
        · simp [reopened, hraw]
        · simp [reopened, hraw]
        · simp [reopened]
        · simp [reopened, hsize]
        · simp [reopened, hsize]

/-- The recovery scan of a file stops behind its last record, with or without padding there. -/
theorem recoverFile_records (interval : Nat) (hstorable : ∀ r ∈ rs, Storable r)
    (hsorted : (rs.map (·.offset)).Pairwise (· < ·)) (habove : ∀ r ∈ rs, base ≤ r.offset)
    (hbound : base ≤ u64Max) :
    recoverFile P.crc (segmentBytes P.crc base created rs ++ replicate z 0) base interval =
        .ok ({ version := VERSION, flags := 0, baseOffset := base, createdAtMs := created },
          scanAll P.crc base interval (.start base) rs) ∧
      IndexOk P.crc base rs (scanAll P.crc base interval (.start base) rs).index := by
  have hlt : base < 2 ^ 64 := by
    unfold u64Max at hbound
    omega
  have hgrow : Growing rs := ⟨fun r hr => (hstorable r hr).offset_lt.le, hsorted⟩
  have hscan : ∀ r ∈ rs, base ≤ r.offset ∧ Framed P.crc r := fun r hr =>
    ⟨habove r hr, .of_storable (hstorable r hr)⟩
  have hrecover := @recoverAndIndex_zeros P.crc base interval
    (encodeHeader base created) rs (length_encodeHeader base created) hgrow hscan z
  refine ⟨?_, ?_⟩
  · have hlen : ¬ (segmentBytes P.crc base created rs ++ replicate z 0).length <
        HEADER_SIZE := by
      rw [length_append, length_segmentBytes]
      omega
    have hhead : (segmentBytes P.crc base created rs ++ replicate z 0).take HEADER_SIZE =
        encodeHeader base created := by
      exact take_left' (length_encodeHeader base created)
    unfold recoverFile
    rw [if_neg hlen, hhead, decodeHeader_encodeHeader hlt, segmentBytes, hrecover]
    simp only [bind, Except.bind, pure, Except.pure]
    rw [if_neg (by simp)]
  · exact @indexOk_scanAll P.crc base interval [] rs _ .nil rfl habove hsorted

/-- A file whose header passes is opened as what its recovery keeps. -/
theorem openWithOptions_ok : openWithOptions P dir base opts isSealed h = .ok g h' ↔
    ∃ file header acc, h.logs.lookup ⟨dir, base⟩ = some file ∧
      recoverFile P.crc file base opts.indexIntervalBytes = .ok (header, acc) ∧
      g = reopened P dir base opts isSealed header acc (file.take acc.pos) ∧
      h' = { h.putLog ⟨dir, base⟩ (file.take acc.pos) with
        indexes := ⟨dir, base⟩ :: h.indexes.erase ⟨dir, base⟩ } := by
  simp only [openWithOptions, readLog, bind_ok, get_ok]
  constructor
  · rintro ⟨data, _, ⟨_, _, ⟨rfl, rfl⟩, hread⟩, hrun⟩
    rcases hfile : h.logs.lookup ⟨dir, base⟩ with _ | file <;> rw [hfile] at hread
    · exact absurd hread throw_ok
    obtain ⟨rfl, rfl⟩ := pure_ok.mp hread
    rcases hrec : recoverFile P.crc file base opts.indexIntervalBytes with e | ⟨header, acc⟩ <;>
      rw [hrec] at hrun
    · exact absurd hrun throw_ok
    obtain ⟨_, _, hput, hret⟩ := bind_ok.mp hrun
    obtain ⟨rfl, rfl⟩ := pure_ok.mp hret
    exact ⟨file, header, acc, hfile, hrec, rfl, (modify_ok.mp hput).symm⟩
  · rintro ⟨file, header, acc, hfile, hrec, rfl, rfl⟩
    refine ⟨file, h, ⟨h, h, ⟨rfl, rfl⟩, ?_⟩, ?_⟩
    · rw [hfile]
      rfl
    · rw [hrec]
      rfl

theorem openWithOptions_run {file : Bytes} {header : SegmentHeader} {acc : Recovered}
    (hfile : h.logs.lookup ⟨dir, base⟩ = some file)
    (hrec : recoverFile P.crc file base opts.indexIntervalBytes = .ok (header, acc)) :
    Exec.Runs (openWithOptions P dir base opts isSealed) h fun g h' =>
      g = reopened P dir base opts isSealed header acc (file.take acc.pos) ∧
      h'.logs = (h.putLog ⟨dir, base⟩ (file.take acc.pos)).logs :=
  ⟨_, _, openWithOptions_ok.mpr ⟨file, header, acc, hfile, hrec, rfl, rfl⟩, rfl, rfl⟩

/-- Opening recovers the records of a file, with or without padding behind them. -/
theorem openWithOptions_holds (hfile : h.logs.lookup ⟨dir, base⟩ =
      some (segmentBytes P.crc base created rs ++ replicate z 0))
    (hstorable : ∀ r ∈ rs, Storable r) (hsorted : (rs.map (·.offset)).Pairwise (· < ·))
    (habove : ∀ r ∈ rs, base ≤ r.offset) (hbound : base ≤ u64Max)
    (hmmap : applyDirectIoFlag P opts.directIo = true → opts.useMmap = true)
    (hrun : openWithOptions P dir base opts isSealed h = .ok g h') :
    Holds P h' g rs ∧ g.nextOffset = endOffset base rs ∧ g.sealed = isSealed ∧
      g.path = ⟨dir, base⟩ ∧
      ∀ q, q ≠ (⟨dir, base⟩ : Path) → h'.logs.lookup q = h.logs.lookup q := by
  obtain ⟨hrec, hindex⟩ := @recoverFile_records P rs base z created
    opts.indexIntervalBytes hstorable hsorted habove hbound
  have hpos : (scanAll P.crc base opts.indexIntervalBytes (.start base) rs).pos =
      HEADER_SIZE + (encodeAll P.crc rs).length := pos_scanAll _ _
  have hnext : (scanAll P.crc base opts.indexIntervalBytes (.start base) rs).nextOffset =
      endOffset base rs := nextOffset_scanAll _ _
  generalize scanAll P.crc base opts.indexIntervalBytes (.start base) rs =
    acc at hrec hindex hpos hnext
  have hvalid : (segmentBytes P.crc base created rs ++ replicate z 0).take acc.pos =
      segmentBytes P.crc base created rs := by
    rw [hpos]
    exact take_left' (length_segmentBytes _ _ _ _)
  obtain ⟨file, _, _, hfile', hrec', rfl, rfl⟩ := openWithOptions_ok.mp hrun
  obtain rfl := Option.some.inj (hfile.symm.trans hfile')
  obtain ⟨rfl, rfl⟩ := Prod.mk.inj (Except.ok.inj (hrec.symm.trans hrec'))
  rw [hvalid]
  have hlook : (h.putLog ⟨dir, base⟩ (segmentBytes P.crc base created rs)).logs.lookup
      ⟨dir, base⟩ = some (segmentBytes P.crc base created rs) := Host.putLog_lookup_self _ _ _
  have hsize : acc.pos = (segmentBytes P.crc base created rs).length := by
    rw [hpos, length_segmentBytes]
  obtain ⟨hbelow, hstart, hend⟩ := endOffset_bounds hsorted habove
    (fun r hr => (hstorable r hr).offset_lt) hbound
  rw [← hnext] at hbelow hstart hend
  refine ⟨⟨⟨⟨_, hlook, ?_⟩, hsize⟩, ?_, hstorable, hsorted, habove, hbelow, hstart, hend, hindex,
    ?_, ?_⟩, hnext, rfl, rfl, fun q hq => Host.putLog_lookup_of_ne hq _ _⟩
  · exact backed_reopened hsize
  · intro w hw
    simp only [reopened] at hw
    split at hw
    · cases hw
    · obtain rfl := Option.some.inj hw
      rfl
  · intro hd
    simp only [reopened, opensRaw, Bool.and_eq_true] at hd
    apply hmmap
    simp [hd]
  · intro hd
    simp only [reopened, applyDirectIoFlag, Bool.and_eq_true] at hd
    exact hd.2.2

theorem openWithOptions_inv (hfile : h.logs.lookup ⟨dir, base⟩ =
      some (segmentBytes P.crc base created rs ++ replicate z 0))
    (hstorable : ∀ r ∈ rs, Storable r) (hgap : GapFree base rs) (hbound : base + rs.length ≤ u64Max)
    (hmmap : applyDirectIoFlag P opts.directIo = true → opts.useMmap = true)
    (hrun : openWithOptions P dir base opts isSealed h = .ok g h') :
    Inv P h' g rs ∧ g.sealed = isSealed ∧ g.path = ⟨dir, base⟩ ∧
      ∀ q, q ≠ (⟨dir, base⟩ : Path) → h'.logs.lookup q = h.logs.lookup q := by
  obtain ⟨hholds, hnext, hs, hpath, hothers⟩ := openWithOptions_holds hfile hstorable hgap.sorted
    (fun r hr => (hgap.bounds hr).1) (by omega) hmmap hrun
  have hbase : g.baseOffset = base := congrArg Path.base hpath
  refine ⟨hholds.inv (hbase ▸ hgap) ?_, hs, hpath, hothers⟩
  rw [hnext, hbase, hgap.endOffset fun r hr => (hstorable r hr).offset_lt]

end Segment

end Volant.Storage
