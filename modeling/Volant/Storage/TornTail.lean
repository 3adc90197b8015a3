-- SUMMARY: What the recovery scan returns on a cut or padded segment file, and that running it twice changes nothing.
import Volant.Storage.Bookkeeping
import Volant.Storage.Framing
import Volant.Storage.Log

/-!
# Torn tails

A crash leaves a segment file that ends anywhere behind its header, or with
zeros behind the last record. Recovery returns the whole records in front of
the tear if every record of the file scans as one record, and only then: the
lengths in a record are narrowed when it is encoded, and a record whose lengths
do not fit ends the scan or sends it astray.

The sparse index that the scan rebuilds is compared with the one the append
path has in memory. The two are computed by different code, so the comparison
is a simulation between the scan's accumulator and the segment's fields.
-/

namespace Volant.Storage

open Exec List
open Segment (recoverAndIndex recoverLoop)

/-! ## The loop -/

namespace Segment

section

variable {crc : Bytes → UInt32} {data : Bytes} {base interval : Nat}

/-- A record that continues the scan is taken. -/
theorem recoverLoop_push {acc : Recovered} {r : Record} {s : Nat}
    (hd : decodeRecordAt crc data acc.pos = .ok r acc.pos (acc.pos + s) s)
    (hnext : acc.nextOffset ≤ r.offset) (hbase : base ≤ r.offset) (fuel : Nat) :
    recoverLoop crc data base interval (fuel + 1) acc = recoverLoop crc data base interval fuel
      (acc.push base interval r acc.pos (acc.pos + s) s) := by
  obtain ⟨-, -, hle, hframe⟩ := decodeRecordAt_eq_ok.mp hd
  have hlong := hframe.long
  rw [length_take] at hlong
  rw [recoverLoop, if_pos (by omega), hd]
  simp [if_neg (not_lt.mpr hnext), if_neg (not_lt.mpr hbase)]

/-- One round: a record that continues the scan is taken, and anything else ends it. -/
theorem recoverLoop_round (crc : Bytes → UInt32) (data : Bytes) (base interval : Nat)
    (acc : Recovered) : (∃ r s, decodeRecordAt crc data acc.pos = .ok r acc.pos (acc.pos + s) s ∧
      8 ≤ s ∧ acc.pos + s ≤ data.length ∧ acc.nextOffset ≤ r.offset ∧ base ≤ r.offset ∧
      ∀ fuel, recoverLoop crc data base interval (fuel + 1) acc =
        recoverLoop crc data base interval fuel
          (acc.push base interval r acc.pos (acc.pos + s) s)) ∨
    ∀ fuel, recoverLoop crc data base interval fuel acc = acc := by
  have hstay : (∀ fuel, recoverLoop crc data base interval (fuel + 1) acc = acc) →
      ∀ fuel, recoverLoop crc data base interval fuel acc = acc := by
    intro h fuel
    cases fuel with
    | zero => rfl
    | succ fuel => exact h fuel
  by_cases hpos : acc.pos < data.length
  · cases hd : decodeRecordAt crc data acc.pos with
    | incomplete => exact .inr (hstay fun fuel => by rw [recoverLoop, if_pos hpos, hd])
    | corrupt => exact .inr (hstay fun fuel => by rw [recoverLoop, if_pos hpos, hd])
    | ok r p n s =>
      obtain ⟨rfl, rfl, hle, hframe⟩ := decodeRecordAt_eq_ok.mp hd
      have hlong := hframe.long
      rw [length_take] at hlong
      by_cases hnext : r.offset < acc.nextOffset
      · refine .inr (hstay fun fuel => ?_)
        rw [recoverLoop, if_pos hpos, hd]
        exact if_pos hnext
      by_cases hbase : r.offset < base
      · refine .inr (hstay fun fuel => ?_)
        rw [recoverLoop, if_pos hpos, hd]
        simp [if_pos hbase]
      · exact .inl ⟨r, s, rfl, by omega, hle, by omega, by omega,
          recoverLoop_push hd (not_lt.mp hnext) (not_lt.mp hbase)⟩
  · exact .inr (hstay fun fuel => by rw [recoverLoop, if_neg hpos])

theorem recoverLoop_stop {acc : Recovered}
    (h : ∀ r p n s, decodeRecordAt crc data acc.pos ≠ .ok r p n s) (fuel : Nat) :
    recoverLoop crc data base interval fuel acc = acc := by
  obtain ⟨r, s, hd, -⟩ | hstop := recoverLoop_round crc data base interval acc
  · exact absurd hd (h _ _ _ _)
  · exact hstop fuel

/-- The scan only moves forward, and not out of the file. -/
theorem pos_recoverLoop (fuel : Nat) {acc : Recovered} (hpos : acc.pos ≤ data.length) :
    acc.pos ≤ (recoverLoop crc data base interval fuel acc).pos ∧
      (recoverLoop crc data base interval fuel acc).pos ≤ data.length := by
  induction fuel generalizing acc with
  | zero => exact ⟨le_rfl, hpos⟩
  | succ fuel ih =>
    obtain ⟨r, s, -, -, hle, -, -, hstep⟩ | hstop :=
      recoverLoop_round crc data base interval acc
    · rw [hstep]
      have h := @ih (acc.push base interval r acc.pos (acc.pos + s) s) hle
      exact ⟨le_trans (Nat.le_add_right _ _) h.1, h.2⟩
    · rw [hstop]
      exact ⟨le_rfl, hpos⟩

/-- Fuel for the bytes still ahead is enough. -/
theorem recoverLoop_fuel {f g : Nat} {acc : Recovered} (hf : data.length ≤ acc.pos + f)
    (hg : data.length ≤ acc.pos + g) :
    recoverLoop crc data base interval f acc = recoverLoop crc data base interval g acc := by
  induction f generalizing g acc with
  | zero =>
    obtain ⟨r, s, -, hs, hle, -⟩ | hstop := recoverLoop_round crc data base interval acc
    · omega
    · rw [hstop, hstop]
  | succ f ih =>
    obtain ⟨r, s, -, hs, hle, -, -, hstep⟩ | hstop :=
      recoverLoop_round crc data base interval acc
    · obtain ⟨g, rfl⟩ : ∃ k, g = k + 1 := ⟨g - 1, by omega⟩
      rw [hstep, hstep]
      refine ih ?_ ?_
      · simp only [Recovered.push]
        omega
      · simp only [Recovered.push]
        omega
    · rw [hstop, hstop]

/-- The bytes behind the end that a scan returns have no part in it. -/
theorem recoverLoop_take {fuel : Nat} {acc : Recovered} (hpos : acc.pos ≤ data.length) :
    recoverLoop crc (data.take (recoverLoop crc data base interval fuel acc).pos) base interval
        fuel acc = recoverLoop crc data base interval fuel acc := by
  induction fuel generalizing acc with
  | zero => rfl
  | succ fuel ih =>
    obtain ⟨r, s, hd, hs, hle, hnext, hbase, hstep⟩ | hstop :=
      recoverLoop_round crc data base interval acc
    · have hend := @pos_recoverLoop crc data base interval fuel
        (acc.push base interval r acc.pos (acc.pos + s) s) hle
      rw [hstep]
      generalize hres : recoverLoop crc data base interval fuel
        (acc.push base interval r acc.pos (acc.pos + s) s) = res at hend
      have hin : acc.pos + s ≤ res.pos := hend.1
      -- the record ends before the cut, so it is still there
      have hcut : decodeRecordAt crc (data.take res.pos) acc.pos =
          .ok r acc.pos (acc.pos + s) s := by
        obtain ⟨-, -, -, hframe⟩ := decodeRecordAt_eq_ok.mp hd
        refine decodeRecordAt_eq_ok.mpr ⟨rfl, rfl, ?_, ?_⟩
        · rw [length_take]
          omega
        · rwa [drop_take, take_take, Nat.min_eq_left (by omega)]
      rw [recoverLoop_push hcut hnext hbase, ← hres]
      exact ih hle
    · rw [hstop]
      refine recoverLoop_stop ?_ _
      intro r p n s hd
      obtain ⟨-, rfl, hle, hframe⟩ := decodeRecordAt_eq_ok.mp hd
      have hlong := hframe.long
      rw [length_take, length_drop, length_take] at hlong
      omega

end

end Segment

/-! ## Scanning whole records -/

variable (crc : Bytes → UInt32)

/-- `decode_record_at` reads the record's own encoding as one record of its whole size. -/
def Framed (r : Record) : Prop :=
  ∃ t, decodeRecordAt crc (encodeStored crc r) 0 =
    .ok t 0 (encodeStored crc r).length (encodeStored crc r).length

/-- The end of a run of records that begins at `base`. -/
def endOffset (base : Nat) (rs : List Record) : Nat :=
  (rs.getLast?.map fun r => Offset.next r.offset).getD base

/-- The longest prefix of `rs` whose encoding is at most `n` bytes long. -/
def wholeRecords (crc : Bytes → UInt32) : Nat → List Record → List Record
  | _, [] => []
  | n, r :: rs =>
    if (encodeStored crc r).length ≤ n then
      r :: wholeRecords crc (n - (encodeStored crc r).length) rs
    else []

/-- The accumulator of the scan behind the records `rs`. -/
def scanAll (base interval : Nat) (acc : Segment.Recovered)
    (rs : List Record) : Segment.Recovered :=
  rs.foldl (fun acc r => acc.push base interval r acc.pos
    (acc.pos + (encodeStored crc r).length) (encodeStored crc r).length) acc

section

variable {crc : Bytes → UInt32} {base interval : Nat} {r : Record}

theorem framed_iff : Framed crc r ↔ ∃ t, Frame crc (encodeStored crc r) t := by
  constructor
  · rintro ⟨t, ht⟩
    obtain ⟨-, -, -, hframe⟩ := decodeRecordAt_eq_ok.mp ht
    rw [drop_zero, take_length] at hframe
    exact ⟨t, hframe⟩
  · rintro ⟨t, ht⟩
    have h := ht.decode [] []
    rw [append_nil, length_nil, Nat.zero_add] at h
    exact ⟨t, h⟩

theorem Framed.of_fits (hr : Message.Fits r.toMessage) (ho : r.offset < 2 ^ 64) : Framed crc r := by
  have h := decodeRecordAt_encodeRecord crc hr ho r.timestampMs [] []
  rw [append_nil, nil_append, length_nil, Nat.zero_add] at h
  exact ⟨_, by simpa [encodeStored] using h⟩

theorem Framed.of_storable (hr : Storable r) : Framed crc r := by
  refine .of_fits hr.fits ?_
  have := hr.offset_lt
  unfold u64Max at this
  omega

variable {rs : List Record}

/-- The end of a run is behind all its records. -/
theorem endOffset_bounds (hsorted : (rs.map (·.offset)).Pairwise (· < ·))
    (habove : ∀ r ∈ rs, base ≤ r.offset) (hlt : ∀ r ∈ rs, r.offset < u64Max)
    (hbase : base ≤ u64Max) : (∀ r ∈ rs, r.offset < endOffset base rs) ∧ base ≤ endOffset base rs ∧
      endOffset base rs ≤ u64Max := by
  induction rs using reverseRecOn with
  | nil => exact ⟨by simp, le_rfl, hbase⟩
  | append_singleton rs t _ =>
    have ht := hlt t (by simp)
    have hb := habove t (by simp)
    have hend : endOffset base (rs ++ [t]) = t.offset + 1 := by
      simp only [endOffset, getLast?_concat, Option.map_some, Option.getD_some]
      exact Offset.next_of_lt ht
    rw [hend, forall_mem_append]
    rw [map_append] at hsorted
    refine ⟨⟨fun r hr => ?_, by simp⟩, by omega, by omega⟩
    have := (pairwise_append.mp hsorted).2.2 _ (mem_map_of_mem hr) t.offset (by simp)
    omega

theorem GapFree.endOffset (h : GapFree base rs)
    (hlt : ∀ r ∈ rs, r.offset < u64Max) : endOffset base rs = base + rs.length := by
  induction rs using reverseRecOn with
  | nil => rfl
  | append_singleton rs t _ =>
    obtain ⟨-, ht, -⟩ := GapFree.append_iff.mp h
    simp only [Storage.endOffset, getLast?_concat, Option.map_some, Option.getD_some]
    rw [Offset.next_of_lt (hlt t (by simp)), ht, length_append, length_singleton]
    omega

@[simp] theorem pos_scanAll (acc : Segment.Recovered) (rs : List Record) :
    (scanAll crc base interval acc rs).pos = acc.pos + (encodeAll crc rs).length := by
  induction rs generalizing acc with
  | nil => rfl
  | cons r rs ih =>
    rw [scanAll, foldl_cons, ← scanAll, ih, encodeAll_cons, length_append]
    simp only [Segment.Recovered.push]
    omega

theorem nextOffset_scanAll (acc : Segment.Recovered) (rs : List Record) :
    (scanAll crc base interval acc rs).nextOffset = endOffset acc.nextOffset rs := by
  induction rs generalizing acc with
  | nil => rfl
  | cons r rs ih =>
    rw [scanAll, foldl_cons, ← scanAll, ih]
    simp only [endOffset, Segment.Recovered.push, getLast?_cons]
    cases rs.getLast? with
    | none => rfl
    | some t => rfl

/-- Every entry of the rebuilt index is a record boundary. -/
theorem indexOk_scanAll {done rs : List Record} {acc : Segment.Recovered}
    (hindex : IndexOk crc base done acc.index)
    (hpos : acc.pos = HEADER_SIZE + (encodeAll crc done).length) (hbase : ∀ r ∈ rs, base ≤ r.offset)
    (hsorted : ((done ++ rs).map (·.offset)).Pairwise (· < ·)) :
    IndexOk crc base (done ++ rs) (scanAll crc base interval acc rs).index := by
  induction rs generalizing done acc with
  | nil => rwa [append_nil]
  | cons r rs ih =>
    have hlt : ∀ t ∈ done, t.offset < r.offset := by
      intro t ht
      rw [map_append] at hsorted
      exact (pairwise_append.mp hsorted).2.2 _ (mem_map_of_mem ht) _
        (mem_map_of_mem mem_cons_self)
    have hsplit : done ++ r :: rs = done ++ [r] ++ rs := by simp
    rw [hsplit] at hsorted ⊢
    refine ih ?_ ?_ (fun t ht => hbase t (mem_cons_of_mem _ ht)) hsorted
    · simp only [Segment.Recovered.push]
      split
      · rw [hpos]
        exact hindex.snoc_entry (hbase r mem_cons_self) hlt
      · exact hindex.snoc r
    · simp only [Segment.Recovered.push, hpos, encodeAll_append, encodeAll_cons, encodeAll_nil,
        append_nil, length_append]
      omega

/-- The loop takes one record after the other and goes on behind them. -/
theorem recoverLoop_records {before tail : Bytes} {acc : Segment.Recovered}
    (hpos : acc.pos = before.length) (hframed : ∀ r ∈ rs, Framed crc r)
    (hwide : ∀ r ∈ rs, r.offset ≤ u64Max) (hbase : ∀ r ∈ rs, base ≤ r.offset)
    (hnext : ∀ r ∈ rs, acc.nextOffset ≤ r.offset)
    (hsorted : (rs.map (·.offset)).Pairwise (· < ·)) (fuel : Nat) :
    recoverLoop crc (before ++ (encodeAll crc rs ++ tail)) base interval (rs.length + fuel) acc =
      recoverLoop crc (before ++ (encodeAll crc rs ++ tail)) base interval fuel
        (scanAll crc base interval acc rs) := by
  induction rs generalizing before acc with
  | nil => rw [length_nil, Nat.zero_add]; rfl
  | cons r rs ih =>
    obtain ⟨t, ht⟩ := framed_iff.mp (hframed r mem_cons_self)
    have hr : r.offset < 2 ^ 64 := by
      have := hwide r mem_cons_self
      unfold u64Max at this
      omega
    have hwhole : Frame crc ((encodeStored crc r).take (encodeStored crc r).length) t := by
      rwa [take_length]
    obtain ⟨hoffset, htime⟩ := hwhole.offset_eq hr
    have hdecode := ht.decode before (encodeAll crc rs ++ tail)
    rw [← hpos] at hdecode
    have hlarger := pairwise_cons.mp (map_cons ▸ hsorted)
    -- the scan takes `t`, which differs from `r` in nothing that is kept
    have hpush (p n len : Nat) :
        acc.push base interval t p n len = acc.push base interval r p n len := by
      simp [Segment.Recovered.push, hoffset, htime]
    have hih := @ih (before ++ encodeStored crc r)
      (acc.push base interval r acc.pos (acc.pos + (encodeStored crc r).length)
        (encodeStored crc r).length)
      (by simp only [Segment.Recovered.push, hpos, length_append])
      (fun t ht => hframed t (mem_cons_of_mem _ ht))
      (fun t ht => hwide t (mem_cons_of_mem _ ht))
      (fun t ht => hbase t (mem_cons_of_mem _ ht))
      (by
        intro t ht
        have hlt := hlarger.1 t.offset (mem_map_of_mem ht)
        have hle := hwide t (mem_cons_of_mem _ ht)
        simp only [Segment.Recovered.push]
        rw [Offset.next_of_lt (by omega)]
        omega)
      hlarger.2
    have hb := hbase r mem_cons_self
    have hn := hnext r mem_cons_self
    rw [length_cons, show rs.length + 1 + fuel = rs.length + fuel + 1 by omega, encodeAll_cons,
      append_assoc, Segment.recoverLoop_push hdecode (by omega) (by omega), hpush, scanAll,
      foldl_cons, ← scanAll]
    simpa using hih

/-- `wholeRecords` is the prefix behind which the next record no longer fits. -/
theorem wholeRecords_append {n : Nat} {done rest : List Record}
    (hdone : (encodeAll crc done).length ≤ n)
    (hrest : ∀ r ∈ rest.head?, n < (encodeAll crc done).length + (encodeStored crc r).length) :
    wholeRecords crc n (done ++ rest) = done := by
  induction done generalizing n with
  | nil =>
    cases rest with
    | nil => rfl
    | cons r rest =>
      have := hrest r rfl
      rw [encodeAll_nil, length_nil] at this
      rw [nil_append, wholeRecords, if_neg (by omega)]
  | cons r done ih =>
    rw [encodeAll_cons, length_append] at hdone hrest
    rw [cons_append, wholeRecords, if_pos (by omega), ih (by omega)]
    intro t ht
    have := hrest t ht
    omega

theorem wholeRecords_split (n : Nat) (rs : List Record) :
    ∃ rest, rs = wholeRecords crc n rs ++ rest ∧
      (encodeAll crc (wholeRecords crc n rs)).length ≤ n ∧ ∀ r ∈ rest.head?,
        n < (encodeAll crc (wholeRecords crc n rs)).length + (encodeStored crc r).length := by
  induction rs generalizing n with
  | nil => exact ⟨[], rfl, Nat.zero_le _, by simp⟩
  | cons r rs ih =>
    rw [wholeRecords]
    split
    · obtain ⟨rest, hsplit, hlen, hrest⟩ := ih (n - (encodeStored crc r).length)
      refine ⟨rest, by rw [cons_append, ← hsplit], ?_, ?_⟩
      · rw [encodeAll_cons, length_append]
        omega
      · intro t ht
        have := hrest t ht
        rw [encodeAll_cons, length_append]
        omega
    · refine ⟨r :: rs, rfl, Nat.zero_le _, ?_⟩
      intro t ht
      obtain rfl : r = t := by simpa using ht
      omega

end

/-! ## The index of the append path -/

/-- `index` is what appending `rs` to a new segment at `base` leaves in memory. -/
def IndexOfAppends (base interval : Nat) (rs : List Record) (index : SparseIndex) : Prop :=
  ∀ (P : Platform) (dir : Dir) (created : Int64) (opts : SegmentOptions) (h h' : Host)
    (g : Segment) (s' : SegState), P.crc = crc → opts.indexIntervalBytes = interval →
    Segment.createWithOptions P dir base created opts h = .ok g h' →
    PartitionLog.appendSurvivors P rs ⟨h', g⟩ = .ok () s' → s'.seg.index = index

/-- The scan's accumulator and the segment's fields agree. -/
structure Booked (acc : Segment.Recovered) (b : Book) : Prop where
  size : b.size = acc.pos
  next : b.nextOffset = acc.nextOffset
  index : b.index = acc.index
  since : b.bytesSinceIndex = acc.bytesSinceIndex

theorem Booked.push {acc : Segment.Recovered} {b : Book} (h : Booked acc b) {r : Record}
    (hr : b.Indexable r.offset) (len : Nat) :
    Booked (acc.push b.baseOffset b.indexIntervalBytes r acc.pos (acc.pos + len) len)
      (b.record r.offset len) := by
  have hdue : (acc.index.isEmpty || decide (b.indexIntervalBytes ≤ acc.bytesSinceIndex)) =
      b.due := by rw [Book.due, h.index, h.since]
  refine ⟨?_, rfl, ?_, ?_⟩
  · simp [Book.record, Segment.Recovered.push, h.size]
  · simp only [Book.record, Segment.Recovered.push, hdue]
    cases hd : b.due with
    | false => exact h.index
    | true =>
      obtain ⟨-, hdelta, hpos⟩ := hr hd
      rw [h.size] at hpos
      simp [hdelta, hpos, h.index, h.size]
  · simp [Book.record, Segment.Recovered.push, hdue, h.since]

theorem indexOfAppends_scanAll (base interval : Nat) (rs : List Record) :
    IndexOfAppends crc base interval rs (scanAll crc base interval (.start base) rs).index := by
  rintro P dir created opts h h' g s' rfl rfl hcreate happend
  -- the induction runs from any state in which the two agree
  have hsim : ∀ {rs : List Record} {acc : Segment.Recovered} {s : SegState},
      Booked acc s.seg.book → s.seg.baseOffset = base →
      s.seg.indexIntervalBytes = opts.indexIntervalBytes →
      PartitionLog.appendSurvivors P rs s = .ok () s' →
      s'.seg.index = (scanAll P.crc base opts.indexIntervalBytes acc rs).index := by
    intro rs
    induction rs with
    | nil =>
      intro acc s hb _ _ hrun
      obtain ⟨-, rfl⟩ := pure_ok.mp hrun
      exact hb.index
    | cons r rs ih =>
      intro acc s hb hbase hint hrun
      obtain ⟨_, s1, hone, hrest⟩ := bind_ok.mp hrun
      obtain ⟨-, -, hone⟩ := Segment.appendAllowGap_ok hone
      obtain ⟨hindexable, hbook⟩ := Segment.book_appendEncoded hone
      have hpush := hb.push hindexable (encodedRecordSize r.toMessage)
      rw [← hbook] at hpush
      have hbase' : s1.seg.baseOffset = base :=
        (congrArg Book.baseOffset hbook).trans hbase
      have hint' : s1.seg.indexIntervalBytes = opts.indexIntervalBytes :=
        (congrArg Book.indexIntervalBytes hbook).trans hint
      have h := ih hpush hbase' hint' hrest
      rw [scanAll, foldl_cons, encodeStored, length_encodeRecord]
      rw [← hbase, ← hint] at h ⊢
      exact h
  simp only [Segment.createWithOptions, bind_ok] at hcreate
  obtain ⟨_, _, -, _, _, -, _, _, -, hret⟩ := hcreate
  obtain ⟨rfl, rfl⟩ := pure_ok.mp hret
  exact hsim (s := ⟨_, _⟩) ⟨rfl, rfl, rfl, rfl⟩ rfl rfl happend

/-! ## Recovery -/

/-- Recovery of `data` returns the byte end, the next offset and the index of the records `rs`. -/
def RecoversTo (data : Bytes) (base interval : Nat) (rs : List Record) : Prop :=
  ∃ acc, recoverAndIndex crc data base interval = .ok acc ∧
    acc.pos = HEADER_SIZE + (encodeAll crc rs).length ∧ acc.nextOffset = endOffset base rs ∧
    IndexOfAppends crc base interval rs acc.index

/-- The offsets of a segment's records, as 64-bit numbers that grow. -/
structure Growing (rs : List Record) : Prop where
  wide : ∀ r ∈ rs, r.offset ≤ u64Max
  sorted : (rs.map (·.offset)).Pairwise (· < ·)

theorem Growing.left {done rest : List Record} (h : Growing (done ++ rest)) : Growing done where
  wide r hr := h.wide r (mem_append_left _ hr)
  sorted := by
    have := h.sorted
    rw [map_append] at this
    exact (pairwise_append.mp this).1

section

variable {crc : Bytes → UInt32} {base interval : Nat} {header tail : Bytes} {rs : List Record}

/-- On a file that begins with records that scan, recovery is what the loop does behind them. -/
theorem recoverAndIndex_records (hheader : header.length = HEADER_SIZE) (hgrow : Growing rs)
    (hscan : ∀ r ∈ rs, base ≤ r.offset ∧ Framed crc r) {fuel : Nat} (hfuel : tail.length ≤ fuel) :
    recoverAndIndex crc (header ++ (encodeAll crc rs ++ tail)) base interval =
      .ok (recoverLoop crc (header ++ (encodeAll crc rs ++ tail)) base interval fuel
        (scanAll crc base interval (.start base) rs)) := by
  have hlen : (header ++ (encodeAll crc rs ++ tail)).length =
      HEADER_SIZE + (encodeAll crc rs).length + tail.length := by
    rw [length_append, length_append]
    omega
  rw [recoverAndIndex, if_neg (by omega)]
  congr 1
  -- any fuel that covers the file will do
  rw [Segment.recoverLoop_fuel (g := rs.length +
      (header ++ (encodeAll crc rs ++ tail)).length) (by omega) (by omega),
    recoverLoop_records (by rw [hheader]; rfl) (fun r hr => (hscan r hr).2) hgrow.wide
      (fun r hr => (hscan r hr).1) (fun r hr => (hscan r hr).1) hgrow.sorted]
  refine Segment.recoverLoop_fuel (by omega) ?_
  rw [pos_scanAll]
  simp only [Segment.Recovered.start]
  omega

theorem recoverAndIndex_of_stop (hheader : header.length = HEADER_SIZE) (hgrow : Growing rs)
    (hscan : ∀ r ∈ rs, base ≤ r.offset ∧ Framed crc r)
    (hstop : ∀ r p n s, decodeRecordAt crc (header ++ (encodeAll crc rs ++ tail))
      (HEADER_SIZE + (encodeAll crc rs).length) ≠ .ok r p n s) :
    recoverAndIndex crc (header ++ (encodeAll crc rs ++ tail)) base interval =
      .ok (scanAll crc base interval (.start base) rs) := by
  rw [recoverAndIndex_records hheader hgrow hscan le_rfl, Segment.recoverLoop_stop]
  rw [pos_scanAll]
  exact hstop

/-- A scan that ends behind `rs` returns their end, their next offset and their index. -/
theorem recoversTo_scanAll {data : Bytes} (h : recoverAndIndex crc data base interval =
      .ok (scanAll crc base interval (.start base) rs)) : RecoversTo crc data base interval rs :=
  ⟨_, h, pos_scanAll _ _, nextOffset_scanAll _ _, indexOfAppends_scanAll crc base interval rs⟩

section

variable (hheader : header.length = HEADER_SIZE)

include hheader

/-- A cut in the middle of the records leaves the whole ones in front of it. -/
theorem recoversTo_cut (hgrow : Growing rs)
    (hscan : ∀ r ∈ rs, base ≤ r.offset ∧ Framed crc r) {cut : Nat} (hcut : HEADER_SIZE ≤ cut) :
    RecoversTo crc ((header ++ encodeAll crc rs).take cut) base interval
      (wholeRecords crc (cut - HEADER_SIZE) rs) := by
  obtain ⟨rest, hsplit, hlen, hrest⟩ := @wholeRecords_split crc (cut - HEADER_SIZE) rs
  generalize wholeRecords crc (cut - HEADER_SIZE) rs = done at hsplit hlen hrest
  subst hsplit
  -- `j` bytes of the file are left behind the whole records
  obtain ⟨j, hj⟩ : ∃ j, cut - HEADER_SIZE = (encodeAll crc done).length + j :=
    ⟨cut - HEADER_SIZE - (encodeAll crc done).length, by omega⟩
  have hdata : (header ++ encodeAll crc (done ++ rest)).take cut =
      header ++ (encodeAll crc done ++ (encodeAll crc rest).take j) := by
    rw [encodeAll_append, take_append, take_append, hheader, hj,
      take_of_length_le (by omega), take_of_length_le (by omega),
      Nat.add_sub_cancel_left]
  rw [hdata]
  refine recoversTo_scanAll (recoverAndIndex_of_stop hheader hgrow.left
    (fun r hr => hscan r (mem_append_left _ hr)) ?_)
  intro t p n s
  rw [← append_assoc, ← hheader, ← length_append]
  cases rest with
  | nil =>
    rw [encodeAll_nil, take_nil, append_nil]
    intro hok
    obtain ⟨-, rfl, hle, hframe⟩ := decodeRecordAt_eq_ok.mp hok
    have := hframe.long
    rw [length_take] at this
    omega
  | cons r rest =>
    have hr := hrest r rfl
    obtain ⟨t', ht'⟩ := framed_iff.mp
      (hscan r (mem_append_right _ mem_cons_self)).2
    rw [encodeAll_cons, take_append_of_le_length (by omega)]
    refine ht'.torn (take_append_drop j _).symm ?_ _ _ _
    intro hnil
    have := congrArg length hnil
    rw [length_drop, length_nil] at this
    omega

/-- Zeros behind the records do not change what is recovered. -/
theorem recoverAndIndex_zeros (hgrow : Growing rs)
    (hscan : ∀ r ∈ rs, base ≤ r.offset ∧ Framed crc r) (z : Nat) :
    recoverAndIndex crc (header ++ encodeAll crc rs ++ replicate z 0) base interval =
      .ok (scanAll crc base interval (.start base) rs) := by
  rw [append_assoc]
  refine recoverAndIndex_of_stop hheader hgrow hscan ?_
  intro t p n s hok
  rw [← append_assoc, ← hheader, ← length_append] at hok
  obtain h | h := decodeRecordAt_zeros crc (header ++ encodeAll crc rs) z
  · rw [h] at hok
    cases hok
  · rw [h] at hok
    cases hok

/-- A record that is recovered, whole and cut short, as it should be is one that scans. -/
theorem framed_of_recoversTo {done : List Record} {r : Record} (hgrow : Growing (done ++ [r]))
    (hscan : ∀ t ∈ done, base ≤ t.offset ∧ Framed crc t)
    (hwhole : RecoversTo crc (header ++ encodeAll crc (done ++ [r])) base interval (done ++ [r]))
    (hpiece : ∀ s, s < (encodeStored crc r).length →
      RecoversTo crc (header ++ (encodeAll crc done ++ (encodeStored crc r).take s)) base interval
        done) : base ≤ r.offset ∧ Framed crc r := by
  have hr : r.offset < 2 ^ 64 := by
    have := hgrow.wide r (by simp)
    unfold u64Max at this
    omega
  have hlen := encodeStored_pos crc r
  have hat : (scanAll crc base interval (.start base) done).pos =
      (header ++ encodeAll crc done).length := by
    rw [pos_scanAll, length_append, hheader]
    rfl
  have hloop {tail : Bytes} {fuel : Nat} (hfuel : tail.length ≤ fuel) :=
    @recoverAndIndex_records crc base interval header tail done hheader hgrow.left hscan fuel hfuel
  generalize scanAll crc base interval (.start base) done = scanned at hat hloop
  -- what the loop finds behind `done` in the whole file
  rw [encodeAll_append, encodeAll_cons, encodeAll_nil, append_nil] at hwhole
  obtain ⟨acc, hacc, hpos, -⟩ := hwhole
  rw [hloop le_rfl] at hacc
  obtain ⟨t, s, hd, hs, hle, hnext, hbase, -⟩ | hstop := Segment.recoverLoop_round crc
    (header ++ (encodeAll crc done ++ encodeStored crc r)) base interval scanned
  swap
  · rw [hstop] at hacc
    cases hacc
    rw [hat, encodeAll_append, encodeAll_cons, encodeAll_nil, append_nil, length_append,
      length_append] at hpos
    omega
  rw [hat, ← append_assoc] at hd hle
  obtain ⟨-, -, -, hframe⟩ := decodeRecordAt_eq_ok.mp hd
  rw [drop_left] at hframe
  obtain ⟨hoffset, -⟩ := hframe.offset_eq hr
  refine ⟨by omega, framed_iff.mpr ⟨t, ?_⟩⟩
  have hin : s ≤ (encodeStored crc r).length := by
    simp only [length_append] at hle
    omega
  obtain hshort | rfl := lt_or_eq_of_le hin
  swap
  · rwa [take_length] at hframe
  -- a shorter frame would be taken from the file that is cut behind it
  exfalso
  obtain ⟨acc, hacc, hpos, -⟩ := hpiece s hshort
  have htake : ((encodeStored crc r).take s).length = s := by
    rw [length_take, Nat.min_eq_left hin]
  rw [hloop (show ((encodeStored crc r).take s).length ≤ (s - 1) + 1 by omega)] at hacc
  have hdecode := hframe.decode (header ++ encodeAll crc done) []
  rw [append_nil, append_assoc, ← hat, htake] at hdecode
  rw [Segment.recoverLoop_push hdecode hnext hbase] at hacc
  cases hacc
  have hforward := @Segment.pos_recoverLoop crc
    (header ++ (encodeAll crc done ++ (encodeStored crc r).take s)) base interval (s - 1)
    (scanned.push base interval t scanned.pos (scanned.pos + s) s) (by
      simp only [Segment.Recovered.push, hat, length_append, htake]
      omega)
  have hend : scanned.pos + s ≤ _ := hforward.1
  rw [hpos, hat, length_append] at hend
  omega

/-- A cut inside the record behind `done` leaves a piece of it. -/
theorem take_piece (done rest : List Record) (r : Record)
    {s : Nat} (hs : s ≤ (encodeStored crc r).length) :
    (header ++ encodeAll crc (done ++ r :: rest)).take
        (HEADER_SIZE + ((encodeAll crc done).length + s)) =
      header ++ (encodeAll crc done ++ (encodeStored crc r).take s) := by
  have hfront : (header ++ encodeAll crc done).length =
      HEADER_SIZE + (encodeAll crc done).length := by rw [length_append, hheader]
  rw [encodeAll_append, encodeAll_cons, ← Nat.add_assoc, ← hfront, ← append_assoc,
    take_length_add_append, take_append_of_le_length hs, append_assoc]

/-- A file of which every cut is recovered as it should be consists of records that scan. -/
theorem framed_of_cuts (hgrow : Growing rs) (hcut : ∀ cut, HEADER_SIZE ≤ cut →
      RecoversTo crc ((header ++ encodeAll crc rs).take cut) base interval
        (wholeRecords crc (cut - HEADER_SIZE) rs)) :
    ∀ done rest, rs = done ++ rest → ∀ r ∈ done, base ≤ r.offset ∧ Framed crc r := by
  intro done
  -- one record after the other, from the front
  induction done using reverseRecOn with
  | nil => simp
  | append_singleton done r ih =>
    intro rest hrs
    have hsplit : rs = done ++ r :: rest := by rw [hrs, append_assoc]; rfl
    have hdone := ih (r :: rest) hsplit
    have hgrow' : Growing (done ++ [r]) := by
      rw [hrs] at hgrow
      exact hgrow.left
    have hpiece : ∀ s, s < (encodeStored crc r).length →
        RecoversTo crc (header ++ (encodeAll crc done ++ (encodeStored crc r).take s)) base
          interval done := by
      intro s hs
      have h := hcut (HEADER_SIZE + ((encodeAll crc done).length + s)) (by omega)
      have hw : wholeRecords crc ((encodeAll crc done).length + s) (done ++ r :: rest) = done := by
        refine wholeRecords_append (Nat.le_add_right _ _) ?_
        intro t ht
        obtain rfl : r = t := by simpa using ht
        omega
      rwa [Nat.add_sub_cancel_left, hsplit, hw, take_piece hheader _ _ _ hs.le] at h
    have hwhole : RecoversTo crc (header ++ encodeAll crc (done ++ [r])) base interval
        (done ++ [r]) := by
      have h := hcut (HEADER_SIZE + ((encodeAll crc done).length + (encodeStored crc r).length))
        (by omega)
      have hw : wholeRecords crc ((encodeAll crc done).length + (encodeStored crc r).length)
          (done ++ [r] ++ rest) = done ++ [r] := by
        refine wholeRecords_append (by simp) ?_
        intro t _
        have := encodeStored_pos crc t
        simp
        omega
      rw [Nat.add_sub_cancel_left, hrs, hw, append_assoc, singleton_append,
        take_piece hheader _ _ _ le_rfl, take_length] at h
      rwa [encodeAll_append, encodeAll_cons, encodeAll_nil, append_nil]
    have hlast := framed_of_recoversTo hheader hgrow' hdone hwhole hpiece
    intro t ht
    rcases mem_append.mp ht with hold | hnew
    · exact hdone t hold
    · rwa [mem_singleton.mp hnew]

end

/-- Recovery of what recovery keeps gives the same result. -/
theorem recoverAndIndex_take {data : Bytes} {acc : Segment.Recovered}
    (h : recoverAndIndex crc data base interval = .ok acc) :
    recoverAndIndex crc (data.take acc.pos) base interval = .ok acc := by
  unfold recoverAndIndex at h
  split at h
  · cases h
  rename_i hlen
  have hstart : (Segment.Recovered.start base).pos ≤ data.length := not_lt.mp hlen
  obtain ⟨hfrom, hto⟩ := @Segment.pos_recoverLoop crc data base interval data.length _ hstart
  have htake := @Segment.recoverLoop_take crc data base interval data.length _ hstart
  have hacc := Except.ok.inj h
  rw [hacc] at hfrom hto htake
  have hshort : (data.take acc.pos).length = acc.pos := by
    rw [length_take, Nat.min_eq_left hto]
  have hhead : HEADER_SIZE ≤ acc.pos := hfrom
  rw [recoverAndIndex, if_neg (by omega)]
  refine congrArg Except.ok ((Segment.recoverLoop_fuel ?_ ?_).trans htake)
  · omega
  · omega

end

/-- Recovery returns the longest prefix of whole records for every cut behind the header, and all
records when zeros follow them, exactly when each record scans as one record and none lies
below the segment's base; and what it keeps it keeps again. -/
theorem torn_tail_recovery (base interval : Nat) (header : Bytes)
    (rs : List Record) (hheader : header.length = HEADER_SIZE) (hgrow : Growing rs) :
    (((∀ cut, HEADER_SIZE ≤ cut →
        RecoversTo crc ((header ++ encodeAll crc rs).take cut) base interval
          (wholeRecords crc (cut - HEADER_SIZE) rs)) ∧
      ∀ z, RecoversTo crc (header ++ encodeAll crc rs ++ List.replicate z 0) base interval rs) ↔
      ∀ r ∈ rs, base ≤ r.offset ∧ Framed crc r) ∧
    ∀ data acc, recoverAndIndex crc data base interval = .ok acc →
      recoverAndIndex crc (data.take acc.pos) base interval = .ok acc := by
  refine ⟨⟨?_, ?_⟩, fun data acc => recoverAndIndex_take⟩
  · rintro ⟨hcut, -⟩
    exact framed_of_cuts hheader hgrow hcut rs [] (append_nil rs).symm
  · intro hscan
    exact ⟨fun cut hcut => recoversTo_cut hheader hgrow hscan hcut,
      fun z => recoversTo_scanAll (recoverAndIndex_zeros hheader hgrow hscan z)⟩

/-- Two records with a gap between their offsets. -/
def gappyRun : List Record :=
  [{ offset := 5, key := none, value := [1], timestampMs := 10, headers := [] },
   { offset := 9, key := some [2], value := [3], timestampMs := 11, headers := [] }]

/-- A cut in the second of two records, and padding behind both; the append path accepts the two. -/
theorem torn_tail_recovery_gappy :
    RecoversTo (fun _ => 0) ((encodeHeader 5 0 ++ encodeAll (fun _ => 0) gappyRun).take 80) 5 4096
      (gappyRun.take 1) ∧ RecoversTo (fun _ => 0)
      (encodeHeader 5 0 ++ encodeAll (fun _ => 0) gappyRun ++ List.replicate 100 0) 5 4096
      gappyRun ∧
    succeeds ((do
      let g ← Segment.createWithOptions ⟨fun _ => 0, false, false⟩ .data 5 0 ⟨4096, true, false, .std⟩
      PartitionLog.runSeg g
        (PartitionLog.appendSurvivors ⟨fun _ => 0, false, false⟩ gappyRun) : HostM Segment)
      ⟨∅, [], fun _ => 0, 0⟩) = true := by
  have hgrow : Growing gappyRun := ⟨by decide, by decide⟩
  have hscan : ∀ r ∈ gappyRun, 5 ≤ r.offset ∧ Framed (fun _ => 0) r := by
    intro r hr
    have hfits : r.offset < 2 ^ 64 ∧ 4 + recordBodySize r.toMessage < 2 ^ 32 ∧
        r.toMessage.headers = [] ∧ 5 ≤ r.offset := by
      revert r
      decide
    refine ⟨hfits.2.2.2, .of_fits ⟨hfits.2.1, ?_⟩ hfits.1⟩
    rw [hfits.2.2.1]
    simp
  obtain ⟨hcut, hzeros⟩ := (torn_tail_recovery (fun _ => 0) 5 4096 (encodeHeader 5 0) gappyRun
    (length_encodeHeader 5 0) hgrow).1.mpr hscan
  exact ⟨hcut 80 (by decide), hzeros 100, by decide +kernel⟩

theorem recoverAndIndex_longNamed : recoverAndIndex (fun _ => 0)
    (encodeHeader 0 0 ++ encodeRecord (fun _ => 0) 0 0 longNamed) 0 4096 = .ok (.start 0) := by
  have h := @recoverAndIndex_of_stop (fun _ => 0) 0 4096 (encodeHeader 0 0)
    (encodeRecord (fun _ => 0) 0 0 longNamed ++ []) [] (length_encodeHeader 0 0)
    ⟨by simp, by simp⟩ (by simp) (by
    intro r p n s
    exact decodeRecordAt_longNamed _ (by decide) 0 (encodeHeader 0 0) _ r p n s)
  rwa [encodeAll_nil, nil_append, append_nil] at h

/-- Recovery stops in front of a record with a header name of 65536 bytes, in a file that is neither
cut nor padded. -/
theorem long_header_name_ends_recovery : Growing [longNamed.toRecord 0 0] ∧
      (∃ acc, recoverAndIndex (fun _ => 0)
          (encodeHeader 0 0 ++ encodeAll (fun _ => 0) [longNamed.toRecord 0 0]) 0 4096 = .ok acc ∧
        acc.pos = HEADER_SIZE ∧ acc.nextOffset = 0) ∧ ¬ RecoversTo (fun _ => 0)
          (encodeHeader 0 0 ++ encodeAll (fun _ => 0) [longNamed.toRecord 0 0]) 0 4096
          [longNamed.toRecord 0 0] := by
  have hone : encodeAll (fun _ => 0) [longNamed.toRecord 0 0] =
      encodeRecord (fun _ => 0) 0 0 longNamed := by
    rw [encodeAll_cons, encodeAll_nil, append_nil, encodeStored_toRecord]
  refine ⟨⟨by simp, by simp⟩, ⟨_, by rw [hone]; exact recoverAndIndex_longNamed, rfl, rfl⟩, ?_⟩
  rintro ⟨acc, hacc, hpos, -⟩
  rw [hone, recoverAndIndex_longNamed] at hacc
  cases hacc
  rw [hone, length_encodeRecord, encodedRecordSize] at hpos
  simp only [Segment.Recovered.start] at hpos
  omega

end Volant.Storage
