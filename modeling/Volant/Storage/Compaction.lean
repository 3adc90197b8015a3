-- SUMMARY: Compaction keeps what a log means: its last values by key, its records without a key, and both of its ends.
import Volant.Base.LastWrite
import Volant.Storage.Placement
import Volant.Storage.Refinement

/-!
# Compaction

A reader of a compacted topic folds its records by key, the last one winning
and an empty value removing its key. Compaction rewrites the sealed segments
into one with fewer records. What it keeps of them is a function of the records
read, so the meaning is settled by `survivors` alone; the rest is that the
rewritten segment reads back as exactly these records.
-/

namespace Volant.Storage

open Exec List AList

/-- The value a record leaves for its key. -/
def shownValue (r : Record) : Option Bytes := if r.value.isEmpty then none else some r.value

/-- What a reader that folds the records by key ends with. -/
def keyValues (rs : List Record) : Bytes → Option Bytes :=
  LastWrite.fold Record.key shownValue rs

/-! ## Survivors -/

namespace PartitionLog

/-- One record of the pass over the input. -/
def keepLatest (acc : AList (fun _ : Bytes => Record) × List Record) (r : Record) :
    AList (fun _ : Bytes => Record) × List Record :=
  match r.key with
  | none => (acc.1, acc.2 ++ [r])
  | some k => if r.value.isEmpty then (acc.1.erase k, acc.2) else (acc.1.insert k r, acc.2)

theorem survivors_perm (input : List Record) :
    (survivors input).Perm (((input.foldl keepLatest (∅, [])).1.entries.map (·.2)) ++
      (input.foldl keepLatest (∅, [])).2) :=
  perm_insertionSort _ _

/-- The pass has taken in the records `done`. -/
structure Latest (done : List Record)
    (acc : AList (fun _ : Bytes => Record) × List Record) : Prop where
  view : ∀ k, keyValues done k = (acc.1.lookup k).map (·.value)
  keyed : ∀ k r, acc.1.lookup k = some r → r.key = some k ∧ r.value.isEmpty = false
  nulls : acc.2 = done.filter (·.key.isNone)
  kept : (acc.1.entries.map (·.2) ++ acc.2).Subperm done

theorem Latest.nil : Latest [] (∅, []) where
  view _ := rfl
  keyed k r h := by
    cases h
  nulls := rfl
  kept := List.Perm.refl _ |>.subperm

theorem Latest.push {done : List Record} {acc : AList (fun _ : Bytes => Record) × List Record}
    (h : Latest done acc) (r : Record) : Latest (done ++ [r]) (keepLatest acc r) := by
  have herase (k : Bytes) : ((acc.1.erase k).entries.map (·.2)).Sublist
      (acc.1.entries.map (·.2)) := (kerase_sublist k _).map _
  cases hkey : r.key with
  | none =>
    rw [keepLatest, hkey]
    refine ⟨fun k => ?_, h.keyed, ?_, ?_⟩
    · rw [keyValues, LastWrite.fold_concat, LastWrite.write_of_ne (by rw [hkey]; nofun)]
      exact h.view k
    · rw [h.nulls]
      simp [hkey]
    · rw [← append_assoc]
      exact h.kept.append (List.Subperm.refl [r])
  | some k =>
    have hnulls : (done ++ [r]).filter (·.key.isNone) = done.filter (·.key.isNone) := by
      simp [hkey]
    -- every other key keeps its view
    have hother (k' : Bytes) (hk : k' ≠ k) :
        keyValues (done ++ [r]) k' = (acc.1.lookup k').map (·.value) := by
      rw [keyValues, LastWrite.fold_concat, LastWrite.write_of_ne (by
        rw [hkey]
        exact fun hc => hk (Option.some.inj hc).symm)]
      exact h.view k'
    have hself : keyValues (done ++ [r]) k = shownValue r := by
      rw [keyValues, LastWrite.fold_concat, LastWrite.write_of_key hkey, Function.update_self]
    have hshrunk : ((acc.1.erase k).entries.map (·.2) ++ acc.2).Subperm done :=
      ((herase k).append_right acc.2).subperm.trans h.kept
    cases hempty : r.value.isEmpty with
    | true =>
      simp only [keepLatest, hkey, hempty, if_true]
      refine ⟨fun k' => ?_, fun k' t ht => ?_, h.nulls.trans hnulls.symm, ?_⟩
      · by_cases hk : k' = k
        · rw [hk, hself]
          simp [shownValue, hempty]
        · rw [hother k' hk, lookup_erase_ne hk]
      · by_cases hk : k' = k
        · rw [hk, lookup_erase] at ht
          cases ht
        · rw [lookup_erase_ne hk] at ht
          exact h.keyed k' t ht
      · exact hshrunk.trans (sublist_append_left _ _).subperm
    | false =>
      simp only [keepLatest, hkey, hempty, Bool.false_eq_true, if_false]
      refine ⟨fun k' => ?_, fun k' t ht => ?_, h.nulls.trans hnulls.symm, ?_⟩
      · by_cases hk : k' = k
        · rw [hk, hself]
          simp [shownValue, hempty]
        · rw [hother k' hk, lookup_insert_ne hk]
      · by_cases hk : k' = k
        · rw [hk, lookup_insert] at ht
          obtain rfl := Option.some.inj ht
          exact ⟨hk ▸ hkey, hempty⟩
        · rw [lookup_insert_ne hk] at ht
          exact h.keyed k' t ht
      · rw [entries_insert, map_cons]
        refine (List.Perm.subperm ?_).trans (hshrunk.append (List.Subperm.refl [r]))
        exact (perm_append_singleton r _).symm

theorem latest_foldl (input : List Record) : Latest input (input.foldl keepLatest (∅, [])) := by
  induction input using reverseRecOn with
  | nil => exact .nil
  | append_singleton done r ih =>
    rw [foldl_append]
    exact ih.push r

/-- Each survivor is one of the records, as it was. -/
theorem survivors_subperm (input : List Record) : (survivors input).Subperm input :=
  (survivors_perm input).subperm.trans (latest_foldl input).kept

theorem mem_latest {input : List Record} {r : Record} {k : Bytes} (hr : r ∈ survivors input)
    (hk : r.key = some k) : (input.foldl keepLatest (∅, [])).1.lookup k = some r := by
  have h := latest_foldl input
  rcases mem_append.mp ((survivors_perm input).mem_iff.mp hr) with hkeyed | hnull
  · obtain ⟨⟨k', t⟩, he, rfl⟩ := mem_map.mp hkeyed
    have hlook := mem_lookup_iff.mpr he
    obtain rfl : k' = k := Option.some.inj ((h.keyed k' t hlook).1.symm.trans hk)
    exact hlook
  · rw [h.nulls] at hnull
    have := (mem_filter.mp hnull).2
    rw [hk] at this
    cases this

/-- A fold over the survivors is a fold over the records. -/
theorem keyValues_survivors (input : List Record) :
    keyValues (survivors input) = keyValues input := by
  have h := latest_foldl input
  funext k
  rw [h.view k]
  cases hlook : (input.foldl keepLatest (∅, [])).1.lookup k with
  | none =>
    refine LastWrite.fold_of_absent fun r hr hk => ?_
    rw [mem_latest hr hk] at hlook
    cases hlook
  | some r =>
    obtain ⟨hk, hvalue⟩ := h.keyed k r hlook
    have hr : r ∈ survivors input := by
      refine (survivors_perm input).mem_iff.mpr (mem_append_left _ ?_)
      exact mem_map.mpr ⟨⟨k, r⟩, mem_lookup_iff.mp hlook, rfl⟩
    rw [keyValues, LastWrite.fold_of_agree hr hk fun t ht htk => ?_]
    · simp [shownValue, hvalue]
    · rw [mem_latest ht htk] at hlook
      rw [Option.some.inj hlook]

theorem nullKeys_survivors (input : List Record) :
    ((survivors input).filter (·.key.isNone)).Perm (input.filter (·.key.isNone)) := by
  have h := latest_foldl input
  refine ((survivors_perm input).filter _).trans ?_
  have hnone : ((input.foldl keepLatest (∅, [])).1.entries.map (·.2)).filter (·.key.isNone) = [] := by
    rw [filter_eq_nil_iff]
    intro r hr
    obtain ⟨⟨k, t⟩, he, rfl⟩ := mem_map.mp hr
    rw [(h.keyed k t (mem_lookup_iff.mpr he)).1]
    simp
  rw [filter_append, hnone, h.nulls, filter_filter]
  simp

end PartitionLog

/-! ## What is read -/

variable {start nextOffset maxMessages maxBytes fuel pos acc : Nat} {crc : Bytes → UInt32}

/-- What holds along the read loop: it takes framed records, each below the segment's end, and the
byte limit never stops the first one. -/
theorem Segment.readLoop_induct {data : Bytes} {out : List Record}
    {motive : Nat → List Record → Prop}
    (htake : ∀ {acc out r bytes}, motive acc out → start ≤ r.offset → r.offset < nextOffset →
      Frame crc bytes r →
      (out ≠ [] → maxBytes ≠ usizeMax → saturatingAdd acc bytes.length ≤ maxBytes) →
      motive (saturatingAdd acc bytes.length) (out ++ [r])) (h : motive acc out) :
    ∃ acc', motive acc'
      (readLoop crc data start nextOffset maxMessages maxBytes fuel pos acc out) := by
  induction fuel generalizing pos acc out with
  | zero => exact ⟨acc, h⟩
  | succ fuel ih =>
    unfold readLoop
    split
    swap
    · exact ⟨acc, h⟩
    cases hdecode : decodeRecordAt crc data pos with
    | incomplete => exact ⟨acc, h⟩
    | corrupt => exact ⟨acc, h⟩
    | ok r p n size =>
      dsimp only
      split_ifs with hskip hend hfull
      · exact ih h
      · exact ⟨acc, h⟩
      · exact ⟨acc, h⟩
      · obtain ⟨-, rfl, hle, hframe⟩ := decodeRecordAt_eq_ok.mp hdecode
        have hlen : ((data.drop pos).take size).length = size := by
          rw [length_take, length_drop]
          omega
        have hnew := htake h (not_lt.mp hskip) (not_le.mp hend) hframe
        rw [hlen] at hnew
        refine ih (hnew fun hne hlimit => ?_)
        simpa [hne, hlimit] using hfull

/-- A read returns records that were in frames, each below the segment's end. -/
theorem Segment.readLoop_framed {data : Bytes} {r : Record}
    (hr : r ∈ readLoop crc data start nextOffset maxMessages maxBytes fuel pos acc []) :
    start ≤ r.offset ∧ r.offset < nextOffset ∧ ∃ bytes, Frame crc bytes r := by
  obtain ⟨-, hall⟩ := readLoop_induct
    (motive := fun _ out => ∀ r ∈ out, start ≤ r.offset ∧ r.offset < nextOffset ∧
      ∃ bytes, Frame crc bytes r)
    (fun hout hstart hend hframe _ t ht => by
      rcases mem_append.mp ht with hold | hself
      · exact hout t hold
      · obtain rfl := mem_singleton.mp hself
        exact ⟨hstart, hend, _, hframe⟩)
    (forall_mem_nil _)
  exact hall r hr

variable {P : Platform} {g : Segment}

/-- A read that returns runs the read loop, with the byte limit as a parameter. -/
theorem Segment.readFrom_eq_loop {h : Host} {start n b : Nat}
    {rs : List Record} (hread : readFrom P h g start n b = .ok rs) :
    ∃ data fuel pos, ∀ b, readFrom P h g start n b =
      .ok (readLoop P.crc data start g.nextOffset n b fuel pos 0 []) := by
  simp only [readFrom, bind, Except.bind, pure, Except.pure] at hread ⊢
  split
  · exact ⟨[], 0, 0, fun _ => rfl⟩
  split
  · exact ⟨[], 0, 0, fun _ => rfl⟩
  split
  · exact ⟨[], 0, 0, fun _ => rfl⟩
  rename_i hn hend hempty
  rw [if_neg hn, if_neg hend, if_neg hempty] at hread
  split at hread
  · cases hread
  split at hread
  · cases hread
  rename_i hshort
  exact ⟨_, _, _, fun _ => if_neg hshort⟩

theorem Segment.readFrom_storable {h : Host} {start n b : Nat}
    {rs : List Record} (hnext : g.nextOffset ≤ u64Max) (hread : readFrom P h g start n b = .ok rs) :
    ∀ r ∈ rs, Storable r ∧ start ≤ r.offset ∧ r.offset < g.nextOffset := by
  intro r hr
  obtain ⟨data, fuel, pos, hloop⟩ := readFrom_eq_loop hread
  obtain rfl := Except.ok.inj (hread.symm.trans (hloop b))
  obtain ⟨hstart, hlt, _, hframe⟩ := readLoop_framed hr
  exact ⟨hframe.storable (by omega), hstart, hlt⟩

/-- A read looks at the segment's own file only. -/
theorem Segment.readFrom_congr {h h' : Host}
    (hfile : h'.logs.lookup g.path = h.logs.lookup g.path) (start n b : Nat) :
    readFrom P h' g start n b = readFrom P h g start n b := by
  have hload : loadData h' g = loadData h g := by
    unfold loadData
    rw [hfile]
  unfold readFrom
  rw [hload]

namespace PartitionLog

variable {P : Platform} {h h' : Host} {rs kept : List Record} {g : Segment} {u : Unit}

theorem readSealed_append (gs ts : List Segment) :
    readSealed P h (gs ++ ts) = do
      let front ← readSealed P h gs
      let back ← readSealed P h ts
      return front ++ back := by
  induction gs with
  | nil =>
    have hnil : readSealed P h [] = pure [] := rfl
    simp [hnil]
  | cons g gs ih =>
    simp only [cons_append, readSealed, ih, bind_assoc, pure_bind, append_assoc]

theorem readSealed_storable {gs : List Segment} (hnext : ∀ g ∈ gs, g.nextOffset ≤ u64Max)
    (hread : readSealed P h gs = .ok rs) : ∀ r ∈ rs, Storable r := by
  induction gs generalizing rs with
  | nil =>
    cases hread
    nofun
  | cons g gs ih =>
    obtain ⟨recs, hrecs, hread⟩ := except_bind_ok.mp hread
    obtain ⟨rest, hrest, hread⟩ := except_bind_ok.mp hread
    cases hread
    rw [forall_mem_append]
    exact ⟨fun r hr => (Segment.readFrom_storable (hnext g mem_cons_self) hrecs r hr).1,
      ih (fun t ht => hnext t (mem_cons_of_mem _ ht)) hrest⟩

variable {first active : Segment} {others : List Segment} {input : List Record}

theorem storable_survivors {s : LogState} (hl : Placed.Layered s first others active)
    (hread : readSealed P s.host (first :: others) = .ok input) :
    ∀ r ∈ survivors input, Storable r := fun r hr =>
  readSealed_storable (fun t ht => hl.placed.next_le t (hl.mem_sealed ht)) hread r
    ((survivors_subperm input).subset hr)

/-! ## The rewritten segment -/

theorem appendSurvivors_holds {s' : SegState} (hi : g.Holds P h rs) (hs : g.sealed = false)
    (hkept : ∀ r ∈ kept, Storable r) (hrun : appendSurvivors P kept ⟨h, g⟩ = .ok u s') :
    s'.seg.Holds P s'.host (rs ++ kept) ∧ s'.seg.sealed = false ∧ Untouched h g s'.host s'.seg := by
  induction kept generalizing h g rs with
  | nil =>
    obtain ⟨-, rfl⟩ := pure_ok.mp hrun
    rw [append_nil]
    exact ⟨hi, hs, fun _ _ => rfl, rfl, rfl⟩
  | cons r kept ih =>
    obtain ⟨_, t, happend, hrun⟩ := bind_ok.mp hrun
    obtain ⟨-, hoff, hencoded⟩ := Segment.appendAllowGap_ok happend
    obtain ⟨hr, hrest⟩ := forall_mem_cons.mp hkept
    obtain ⟨rfl, -, ht, hholds, hkeep⟩ := hi.appendEncoded hr.fits hr.offset_lt hs hoff hencoded
    obtain ⟨hholds', hs', hkeep'⟩ := ih hholds ht hrest hrun
    rw [append_assoc, singleton_append] at hholds'
    refine ⟨hholds', hs', ?_, hkeep'.dir.trans hkeep.dir, hkeep'.base.trans hkeep.base⟩
    intro q hq
    rw [hkeep'.others q fun hc => hq (hc.trans hkeep.path)]
    exact hkeep.others q hq

variable {log : PartitionLog}

/-- The temporary file holds the survivors, and the data directory is as it was. -/
theorem buildCompacted_file {activeBase : Nat}
    (hbase : log.logStartOffset ≤ u64Max) (hactive : activeBase ≤ u64Max)
    (hkept : ∀ r ∈ kept, Storable r) (hrun : buildCompacted P log kept activeBase h = .ok u h') :
    (∃ created, h'.logs.lookup ⟨.compact log.logStartOffset, log.logStartOffset⟩ =
        some (segmentBytes P.crc log.logStartOffset created kept)) ∧
      (kept.map (·.offset)).Pairwise (· < ·) ∧
      (∀ r ∈ kept, log.logStartOffset ≤ r.offset ∧ r.offset < activeBase) ∧
      ∀ q : Path, q.dir = .data → h'.logs.lookup q = h.logs.lookup q := by
  obtain ⟨_, h1, hclean, hrun⟩ := bind_ok.mp hrun
  obtain rfl := modify_ok.mp hclean
  obtain ⟨now, h2, hnow, hrun⟩ := bind_ok.mp hrun
  have hclock := nowMs_ok hnow
  obtain ⟨seg, h3, hcreate, hrun⟩ := bind_ok.mp hrun
  obtain ⟨-, hnew, hsnew, hpath, hothers⟩ := Segment.createWithOptions_inv
    (by simp [compactOptions, applyDirectIoFlag]) hbase hcreate
  obtain ⟨g, h4, hseg, hrun⟩ := bind_ok.mp hrun
  obtain ⟨-, rfl⟩ := pure_ok.mp hrun
  unfold runSeg at hseg
  split at hseg
  swap
  · cases hseg
  rename_i _ t hfill
  cases hseg
  obtain ⟨_, t1, happend, hfill⟩ := bind_ok.mp hfill
  obtain ⟨_, t2, hset, hseal⟩ := bind_ok.mp hfill
  obtain ⟨hholds1, hs1, hkeep1⟩ := appendSurvivors_holds hnew.holds hsnew hkept happend
  obtain ⟨rfl, -, hholds2⟩ := hholds1.setNextOffset hactive hset
  obtain ⟨hholds3, hs3, -, hkeep3⟩ := hholds2.sealed hs1 hseal
  have hpath1 : t1.seg.path = seg.path := hkeep1.path
  have hpath3 : t.seg.path = ⟨.compact log.logStartOffset, log.logStartOffset⟩ :=
    hkeep3.path.trans (hpath1.trans hpath)
  have hbase3 : t.seg.baseOffset = log.logStartOffset := congrArg Path.base hpath3
  have hfile := hholds3.file_of_sealed hs3
  rw [hpath3, hbase3] at hfile
  refine ⟨⟨_, hfile⟩, hholds3.sorted, fun r hr => ⟨?_, ?_⟩, fun q hq => ?_⟩
  · exact hbase3 ▸ hholds3.above r hr
  · exact hholds2.below r hr
  · have hne : q ≠ (⟨.compact log.logStartOffset, log.logStartOffset⟩ : Path) := by
      rintro rfl
      cases hq
    have hne1 : q ≠ seg.path := hpath ▸ hne
    rw [hkeep3.others q (hpath1 ▸ hne1), hkeep1.others q hne1, hothers q hne, hclock]
    exact lookup_erase_ne hne

theorem lookup_renameCompacted {base : Nat} {file : Bytes}
    (hfile : h.logs.lookup ⟨.compact base, base⟩ = some file)
    (hrun : renameCompacted base h = .ok u h') : h'.logs.lookup ⟨.data, base⟩ = some file ∧
      ∀ q : Path, q.dir = .data → q ≠ ⟨.data, base⟩ → h'.logs.lookup q = h.logs.lookup q := by
  replace hrun := get_bind_ok.mp hrun
  rw [hfile] at hrun
  rw [← modify_ok.mp hrun]
  refine ⟨lookup_insert _, fun q hdir hq => ?_⟩
  refine (lookup_insert_ne hq).trans (lookup_erase_ne ?_)
  rintro rfl
  cases hdir

/-- The segment that is swapped in holds what the temporary file did. -/
theorem swapCompacted_holds {activeBase : Nat} {sealedSegs : List Segment}
    {created : Int64} (hfile : h.logs.lookup ⟨.compact log.logStartOffset, log.logStartOffset⟩ =
      some (segmentBytes P.crc log.logStartOffset created kept))
    (hdirs : ∀ g ∈ sealedSegs, g.dir = .data) (hactive : activeBase ≤ u64Max)
    (hbase : log.logStartOffset ≤ u64Max) (hkept : ∀ r ∈ kept, Storable r)
    (hsorted : (kept.map (·.offset)).Pairwise (· < ·))
    (habove : ∀ r ∈ kept, log.logStartOffset ≤ r.offset)
    (hrun : swapCompacted P log activeBase sealedSegs h = .ok g h') :
    g.Holds P h' kept ∧ g.sealed = true ∧ endOffset log.logStartOffset kept ≤ activeBase ∧
      ∀ b, b ≠ log.logStartOffset → h'.logs.lookup ⟨.data, b⟩ =
        if b ∈ sealedSegs.map (·.baseOffset) then none else h.logs.lookup ⟨.data, b⟩ := by
  obtain ⟨_, h1, _, h2, opened, hdelete, hrename, hopen, hle, rfl⟩ := swapCompacted_ok hrun
  have hfile1 : h1.logs.lookup ⟨.compact log.logStartOffset, log.logStartOffset⟩ =
      some (segmentBytes P.crc log.logStartOffset created kept) := by
    rw [deleteAll_ok hdelete, if_neg, hfile]
    intro hc
    obtain ⟨g, hg, hpath⟩ := mem_map.mp hc
    cases (hdirs g hg).symm.trans (congrArg Path.dir hpath)
  obtain ⟨hfile2, hothers2⟩ := lookup_renameCompacted hfile1 hrename
  have hpadded : h2.logs.lookup ⟨.data, log.logStartOffset⟩ =
      some (segmentBytes P.crc log.logStartOffset created kept ++ replicate 0 0) := by
    rw [hfile2, replicate_zero, append_nil]
  obtain ⟨hholds, hend, hs, -, hothers3⟩ := Segment.openWithOptions_holds hpadded hkept hsorted
    habove hbase (by simp [compactOptions, applyDirectIoFlag]) hopen
  have hset : Segment.setNextOffset activeBase ⟨h', opened⟩ =
      .ok () ⟨h', { opened with nextOffset := activeBase }⟩ := by
    refine bind_ok.mpr ⟨_, _, get_ok.mpr ⟨rfl, rfl⟩, ?_⟩
    rw [if_neg (not_lt.mpr hle)]
    rfl
  obtain ⟨-, -, hstretched⟩ := hholds.setNextOffset hactive hset
  refine ⟨hstretched, hs, hend ▸ hle, fun b hb => ?_⟩
  have hne : (⟨.data, b⟩ : Path) ≠ ⟨.data, log.logStartOffset⟩ := fun hc =>
    hb (congrArg Path.base hc)
  rw [hothers3 _ hne, hothers2 _ rfl hne, deleteAll_ok hdelete]
  simp [mem_paths hdirs]

/-- Offsets are enough to count records in ascending order. -/
theorem length_le_of_ascending {bound : Nat} (hsorted : (rs.map (·.offset)).Pairwise (· < ·))
    (hlt : ∀ r ∈ rs, r.offset < bound) : rs.length ≤ bound := by
  have hnodup : (rs.map (·.offset)).Nodup := hsorted.imp fun h => h.ne
  have hsub : rs.map (·.offset) ⊆ range bound := by
    intro o ho
    obtain ⟨r, hr, rfl⟩ := mem_map.mp ho
    exact mem_range.mpr (hlt r hr)
  simpa using (hnodup.subperm hsub).length_le

/-- A read without limits returns all the segment holds. -/
theorem readAll_of_holds (hi : g.Holds P h rs) :
    Segment.readFrom P h g g.baseOffset usizeMax usizeMax = .ok rs := by
  have hcount : rs.length ≤ usizeMax :=
    length_le_of_ascending hi.sorted fun r hr => (hi.storable r hr).offset_lt
  rw [hi.readFrom, filter_eq_self.mpr (by simpa using hi.above),
    take_of_length_le hcount]

/-- A compaction's result: the new segment holds the survivors, the other sealed ones are gone and
nothing else has changed. -/
theorem compacted_segments {s : LogState}
    {h1 h2 : Host} (hl : Placed.Layered s first others active) (hkept : ∀ r ∈ kept, Storable r)
    (hbuild : buildCompacted P s.log kept active.baseOffset s.host = .ok u h1)
    (hswap : swapCompacted P s.log active.baseOffset (first :: others) h1 = .ok g h2) :
    g.Holds P h2 kept ∧ g.sealed = true ∧ g.path = ⟨.data, s.log.logStartOffset⟩ ∧
      endOffset s.log.logStartOffset kept ≤ active.baseOffset ∧
      (∀ b, b ≠ s.log.logStartOffset → h2.logs.lookup ⟨.data, b⟩ =
        if b ∈ others.map (·.baseOffset) then none else s.host.logs.lookup ⟨.data, b⟩) ∧
      h2.logs.lookup active.path = s.host.logs.lookup active.path := by
  have hs := hl.placed
  have hactive : active.baseOffset ≤ u64Max := (hs.base_le active hl.mem_active).trans hs.top
  have hbase : s.log.logStartOffset ≤ u64Max := hl.start_lt.le.trans hactive
  obtain ⟨⟨created, hfile⟩, hsorted, hrange, hdata⟩ :=
    buildCompacted_file hbase hactive hkept hbuild
  obtain ⟨hholds, hsealed, hend, hothers⟩ := swapCompacted_holds hfile
    (fun t ht => hs.dir t (hl.mem_sealed ht)) hactive hbase hkept hsorted
    (fun r hr => (hrange r hr).1) hswap
  refine ⟨hholds, hsealed, (placed_swapCompacted hswap).1, hend, fun b hb => ?_, ?_⟩
  · rw [hothers b hb, hdata _ rfl, map_cons, ← hl.start]
    simp [hb]
  · rw [hs.path_data hl.mem_active, hothers _ hl.start_lt.ne', if_neg hl.active_ne, hdata _ rfl]

/-! ## Meaning -/

/-- All records of a log, as its segments return them. -/
def allRecords (P : Platform) (s : LogState) : Except Error (List Record) :=
  readSealed P s.host s.log.segments

/-- `after` means what `before` means, with some of its keyed records gone. -/
structure SameMeaning (before after : List Record) : Prop where
  view : keyValues after = keyValues before
  nullKeys : (after.filter (·.key.isNone)).Perm (before.filter (·.key.isNone))
  kept : after.Subperm before
  ascending : (before.map (·.offset)).Pairwise (· < ·) → (after.map (·.offset)).Pairwise (· < ·)

theorem SameMeaning.refl (rs : List Record) : SameMeaning rs rs :=
  ⟨rfl, .refl _, .refl _, id⟩

/-- Only the records in front change. -/
theorem sameMeaning_survivors (tail : List Record)
    (hsorted : ((survivors input).map (·.offset)).Pairwise (· < ·)) :
    SameMeaning (input ++ tail) (survivors input ++ tail) where
  view := LastWrite.fold_append_congr (keyValues_survivors input) tail
  nullKeys := by
    rw [filter_append, filter_append]
    exact (nullKeys_survivors input).append_right _
  kept := (survivors_subperm input).append (List.Subperm.refl tail)
  ascending h := by
    rw [map_append, pairwise_append] at h ⊢
    refine ⟨hsorted, h.2.1, fun a ha b hb => h.2.2 a ?_ b hb⟩
    exact map_subset _ (fun _ hr => (survivors_subperm input).subset hr) ha

/-- Compaction keeps the meaning of every log that can be reached, its active segment and both of
its ends. -/
theorem compaction_preserves_meaning {s s' : LogState} {stats : CompactStats}
    {before : List Record} (hreached : Reached P s)
    (hrun : compactSealed P s = .ok stats s') (hread : allRecords P s = .ok before) :
    (∃ after, allRecords P s' = .ok after ∧ SameMeaning before after) ∧
      s'.log.segments.getLast? = s.log.segments.getLast? ∧
      (∀ active, s.log.segments.getLast? = some active →
        s'.host.logs.lookup active.path = s.host.logs.lookup active.path) ∧
      s'.log.logStartOffset = s.log.logStartOffset ∧ s'.log.logEndOffset = s.log.logEndOffset := by
  have hs := hreached.placed
  obtain ⟨rfl, -⟩ | ⟨first, others, active, input, u, h1, g, h2, hsplit, hinput, -, hbuild, hswap,
    rfl⟩ := compactSealed_ok hrun
  · exact ⟨⟨before, hread, .refl _⟩, rfl, fun _ _ => rfl, rfl, rfl⟩
  have hl : Placed.Layered s first others active := ⟨hs, hsplit⟩
  obtain ⟨hholds, -, -, -, -, hkeep⟩ :=
    compacted_segments hl (storable_survivors hl hinput) hbuild hswap
  refine ⟨?_, ?_, ?_, (bounds_swapCompacted hswap).1, rfl⟩
  · have hgread := readAll_of_holds hholds
    rw [allRecords, hsplit, readSealed_append, hinput] at hread
    obtain ⟨_, ⟨⟩, hread⟩ := except_bind_ok.mp hread
    obtain ⟨tail, htail, hread⟩ := except_bind_ok.mp hread
    cases hread
    refine ⟨survivors input ++ tail, ?_, sameMeaning_survivors tail hholds.sorted⟩
    have htail' : readSealed P h2 [active] = .ok tail := by
      rw [← htail]
      simp [readSealed, Segment.readFrom_congr hkeep]
    change readSealed P h2 ([g] ++ [active]) = _
    rw [readSealed_append, htail']
    simp [readSealed, hgread, bind, Except.bind, pure, Except.pure]
  · rw [hsplit, getLast?_concat]
    rfl
  · intro a ha
    rw [hsplit, getLast?_concat] at ha
    obtain rfl := Option.some.inj ha
    exact hkeep

/-- A value for a key, an overwrite, a record without a key, and a last one in the active segment. -/
def overwrites : List Message :=
  [{ smallMessage with key := some [107] }, { smallMessage with key := some [107], value := [121] },
    smallMessage, smallMessage]

/-- The state after an open and one batch, with what compaction makes of it. -/
def compactedRun : Option (Nat × Nat × Nat) :=
  match PartitionLog.open plainPlatform smallSegments (Store.fresh fun _ => 0).host with
  | .error _ _ => none
  | .ok log h =>
    let s := stop (call plainPlatform (.appendBatch overwrites) ⟨h, log⟩)
    match allRecords plainPlatform s, compactSealed plainPlatform s with
    | .ok before, .ok stats _ => some (before.length, stats.outputRecords, stats.segmentsRemoved)
    | _, _ => none

theorem compaction_preserves_meaning_overwrites :
    ∃ s s' stats before after, Reached plainPlatform s ∧
      compactSealed plainPlatform s = .ok stats s' ∧
      allRecords plainPlatform s = .ok before ∧ before.length = 4 ∧ stats.outputRecords = 2 ∧
      stats.segmentsRemoved = 3 ∧ allRecords plainPlatform s' = .ok after ∧
      SameMeaning before after := by
  have hcounts : compactedRun = some (4, 2, 3) := by decide +kernel
  unfold compactedRun at hcounts
  split at hcounts
  · cases hcounts
  next log h hopen =>
    have hreached := Reached.called (.appendBatch overwrites) (.opened hopen)
    dsimp only at hcounts
    generalize stop (call plainPlatform (.appendBatch overwrites) ⟨h, log⟩) = s
      at hcounts hreached
    split at hcounts
    next before stats s' hread hrun =>
      obtain ⟨hbefore, hstats⟩ := Prod.mk.inj (Option.some.inj hcounts)
      obtain ⟨hout, hremoved⟩ := Prod.mk.inj hstats
      obtain ⟨⟨after, hafter, hsame⟩, -⟩ := compaction_preserves_meaning hreached hrun hread
      exact ⟨s, s', stats, before, after, hreached, hrun, hread, hbefore, hout, hremoved, hafter,
        hsame⟩
    · cases hcounts

end PartitionLog

end Volant.Storage
