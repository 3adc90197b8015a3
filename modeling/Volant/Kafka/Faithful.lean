-- SUMMARY: When a fetched record set shows a consumer the records of the log.
import Volant.Kafka.RecordSet

/-!
# Faithful record sets

A consumer gets back exactly the log's data when the offsets between two markers
have no gaps and the timestamps there differ from the first one by less than
2^31 milliseconds either way. Compaction and isolation leave gaps; then the
records behind a gap come out with offsets of other records. The older format
carries every offset and timestamp, but no headers.
-/

namespace Volant.Kafka

open Consumer List

/-- A batch of records without gaps, with timestamps near the first one. -/
def RunFaithful : List Record → Prop
  | [] => True
  | first :: rest => first.offset < 2 ^ 63 ∧ ∀ i r, (first :: rest)[i]? = some r →
      r.offset = first.offset + i ∧ -2 ^ 31 ≤ r.timestampMs.toInt - first.timestampMs.toInt ∧
        r.timestampMs.toInt - first.timestampMs.toInt < 2 ^ 31

/-- The data that the older format can carry. -/
def OldFaithful (records : List Record) : Prop :=
  ∀ r ∈ records, isData r = true →
    isTxnControlRecord r = false ∧ r.headers = [] ∧ r.offset < 2 ^ 63

def Faithful (version : Int16) (records : List Record) : Prop :=
  if version < 4 then OldFaithful records
  else ∀ run, Segment.data run ∈ cut [] records → RunFaithful run

/-! ## Deltas -/

theorem toInt_offsetAsI64_eq {o : Nat} (ho : o < 2 ^ 64) :
    (offsetAsI64 o).toInt = o ↔ o < 2 ^ 63 := by
  have hint : (offsetAsI64 o).toInt = Int.bmod (UInt64.ofNat o).toNat (2 ^ 64) :=
    BitVec.toInt_eq_toNat_bmod _
  rw [hint, UInt64.toNat_ofNat', Int.bmod_def]
  split_ifs <;> omega

/-- The low 32 bits of a difference are the difference if it is small. -/
theorem add_delta_eq (first ts : Int64) : first.toInt + (ts - first).toInt32.toInt = ts.toInt ↔
      -2 ^ 31 ≤ ts.toInt - first.toInt ∧ ts.toInt - first.toInt < 2 ^ 31 := by
  have hdelta : (ts - first).toInt32.toInt = Int.bmod (ts.toInt - first.toInt) (2 ^ 32) := by
    rw [Int64.toInt_toInt32, Int64.toInt_sub]
    exact Int.bmod_bmod_of_dvd (by decide)
  rw [hdelta, Int.bmod_def]
  split_ifs <;> omega

theorem shown_eq_of {first r : Record} {i : Nat} (hfirst : first.offset < 2 ^ 63) :
    shown first r i = FetchedRecord.of r ↔ r.offset = first.offset + i ∧
      -2 ^ 31 ≤ r.timestampMs.toInt - first.timestampMs.toInt ∧
        r.timestampMs.toInt - first.timestampMs.toInt < 2 ^ 31 := by
  rw [← add_delta_eq, shown, FetchedRecord.of, FetchedRecord.mk.injEq,
    (toInt_offsetAsI64_eq (by omega)).mpr hfirst]
  simp only [and_true]
  exact and_congr_left fun _ => by omega

theorem shownRun_eq_iff {run : List Record} (hu64 : ∀ r ∈ run, r.offset < 2 ^ 64) :
    shownRun run = run.map FetchedRecord.of ↔ RunFaithful run := by
  cases run with
  | nil => simp [shownRun, RunFaithful]
  | cons first rest =>
    have hget (i : Nat) : ((first :: rest).zipIdx.map fun p => shown first p.1 p.2)[i]? =
        ((first :: rest)[i]?).map fun r => shown first r i := by
      rw [getElem?_map, getElem?_zipIdx, Option.map_map, Nat.zero_add]
      rfl
    have hpoint : shownRun (first :: rest) = (first :: rest).map FetchedRecord.of ↔
        ∀ i r, (first :: rest)[i]? = some r → shown first r i = FetchedRecord.of r := by
      rw [shownRun, List.ext_getElem?_iff]
      simp only [hget, getElem?_map]
      refine forall_congr' fun i => ?_
      cases (first :: rest)[i]? with
      | none => simp
      | some r => simp
    rw [hpoint]
    constructor
    · intro h
      -- The first record has the delta zero.
      have hzero := congrArg FetchedRecord.offset (h 0 first rfl)
      have hfirst : first.offset < 2 ^ 63 := by
        refine (toInt_offsetAsI64_eq (hu64 first mem_cons_self)).mp ?_
        simpa [shown, FetchedRecord.of] using hzero
      exact ⟨hfirst, fun i r hr => (shown_eq_of hfirst).mp (h i r hr)⟩
    · rintro ⟨hfirst, h⟩ i r hr
      exact (shown_eq_of hfirst).mpr (h i r hr)

theorem flatMap_eq_iff {ι α : Type} {f g : ι → List α} {l : List ι}
    (hlen : ∀ s, (f s).length = (g s).length) : l.flatMap f = l.flatMap g ↔ ∀ s ∈ l, f s = g s := by
  induction l with
  | nil => simp
  | cons s l ih =>
    rw [flatMap_cons, flatMap_cons, forall_mem_cons, ← ih]
    exact ⟨fun h => append_inj h (hlen s), fun ⟨h₁, h₂⟩ => by rw [h₁, h₂]⟩

theorem length_shown (s : Segment) : s.shown.length = s.expected.length := by
  cases s with
  | marker r ctrl => rfl
  | data run =>
    cases run with
    | nil => rfl
    | cons first rest => simp [Segment.shown, Segment.expected, shownRun]

/-! ## The older format -/

theorem shownMessage_eq_of {r : Record} (hu64 : r.offset < 2 ^ 64) :
    shownMessage r = FetchedRecord.of r ↔ r.headers = [] ∧ r.offset < 2 ^ 63 := by
  rw [shownMessage, FetchedRecord.of, FetchedRecord.mk.injEq, toInt_offsetAsI64_eq hu64]
  simp only [true_and]
  exact ⟨fun h => ⟨h.2.symm, h.1⟩, fun h => ⟨h.2, h.1.symm⟩⟩

theorem isData_of_not_control {r : Record} (h : isTxnControlRecord r = false) : isData r = true := by
  rw [isData, parseTxnControlRecord, h]
  rfl

theorem old_eq_iff {records : List Record} (hu64 : ∀ r ∈ records, r.offset < 2 ^ 64) :
    (records.filter fun r => !isTxnControlRecord r).map shownMessage =
      (records.filter isData).map FetchedRecord.of ↔ OldFaithful records := by
  have hfilter : (records.filter fun r => !isTxnControlRecord r) =
      (records.filter isData).filter fun r => !isTxnControlRecord r := by
    rw [filter_filter]
    refine filter_congr fun r _ => ?_
    cases hcontrol : isTxnControlRecord r with
    | true => simp
    | false => simp [isData_of_not_control hcontrol]
  have hmem {P : Record → Prop} : (∀ r ∈ records, isData r = true → P r) ↔
      ∀ r ∈ records.filter isData, P r := by
    simp
  rw [hfilter, OldFaithful, hmem]
  have hu64' : ∀ r ∈ records.filter isData, r.offset < 2 ^ 64 :=
    fun r hr => hu64 r (mem_of_mem_filter hr)
  generalize records.filter isData = data at hu64'
  have hpoint (l : List Record) (hl : ∀ r ∈ l, r.offset < 2 ^ 64) :
      l.map shownMessage = l.map FetchedRecord.of ↔ ∀ r ∈ l, r.headers = [] ∧ r.offset < 2 ^ 63 := by
    rw [map_inj_left]
    exact forall₂_congr fun r hr => shownMessage_eq_of (hl r hr)
  constructor
  · intro h
    -- Nothing is missing, so nothing was left out.
    have hlength := congrArg length h
    rw [length_map, length_map, length_filter_eq_length_iff] at hlength
    rw [filter_eq_self.mpr hlength, hpoint data hu64'] at h
    exact fun r hr => ⟨by simpa using hlength r hr, h r hr⟩
  · intro h
    rw [filter_eq_self.mpr fun r hr => by rw [(h r hr).1]; rfl, hpoint data hu64']
    exact fun r hr => (h r hr).2

/-! ## Record sets -/

/-- A consumer reads the data of the log, in order and with every field, from exactly the responses
whose records are faithful. -/
theorem fetched_records_faithful_iff {lib : Crates} (hlawful : lib.Lawful) {codec : CompressionCodec}
    {records : List Record} {version : Int16} (hu64 : ∀ r ∈ records, r.offset < 2 ^ 64)
    (hbound : (records.map wireBound).sum < 2 ^ 31)
    (hlen : (encodeFetchRecordSet lib codec records version).length < 2 ^ 31) :
    recordSet lib (encodeFetchRecordSet lib codec records version) =
        some ((records.filter isData).map FetchedRecord.of) ↔ Faithful version records := by
  unfold Faithful
  split_ifs with hversion
  · rw [recordSet_old hlawful hversion hbound hlen, Option.some.injEq, old_eq_iff hu64]
  · have hencode : encodeFetchRecordSet lib codec records version =
        encodeFetchRecordBatches lib records codec := by
      unfold encodeFetchRecordSet
      split_ifs with hempty
      · rw [isEmpty_iff.mp hempty]
        rfl
      · rfl
    rw [hencode] at hlen ⊢
    rw [recordSet_batches hlawful hbound hlen, Option.some.injEq,
      ← nil_append records, ← flatMap_expected_cut records (by simp), nil_append,
      flatMap_eq_iff length_shown]
    constructor
    · intro h run hrun
      refine (shownRun_eq_iff fun r hr => ?_).mp (h _ hrun)
      have hmem := (sublist_of_mem_cut hrun).2.mem hr
      exact hu64 r (by simpa using hmem)
    · intro h s hs
      cases s with
      | marker r ctrl => rfl
      | data run =>
        refine (shownRun_eq_iff fun r hr => ?_).mpr (h run hs)
        have hmem := (sublist_of_mem_cut hs).2.mem hr
        exact hu64 r (by simpa using hmem)

/-- A record of the log with a key and a value of one byte. -/
def byteRecord (offset : Nat) (b : UInt8) : Record :=
  { offset, key := some [b], value := [b], timestampMs := 1000, headers := [] }

theorem storedCrates_lawful : storedCrates.Lawful := by
  have hstore : Coder.Lawful ⟨.ok, .ok⟩ := fun data out h => congrArg _ (Except.ok.inj h).symm
  have hblock {data out : Bytes} (h : storedCrates.snappy.encode data = .ok out) :
      data.length < 2 ^ 32 ∧ data = out := by
    simp only [storedCrates] at h
    split at h
    · exact ⟨by assumption, Except.ok.inj h⟩
    · cases h
  exact Crates.lawful_of_coders hstore (fun _ _ h => congrArg _ (hblock h).2.symm)
    (fun _ _ h => (hblock h).2 ▸ (hblock h).1) hstore hstore

/-- Two neighbours. -/
theorem fetched_neighbours_faithful : Faithful 4 [byteRecord 5 1, byteRecord 6 2] :=
  have hlen : (encodeFetchRecordSet storedCrates .none [byteRecord 5 1, byteRecord 6 2] 4).length <
      2 ^ 31 := by decide +kernel
  (fetched_records_faithful_iff storedCrates_lawful (by decide +kernel) (by decide +kernel)
    hlen).mp (by decide +kernel)

/-- Behind a gap the offset is wrong: the record at 7 is read as one at 6. -/
theorem fetched_gap_shifts_offset : recordSet storedCrates (encodeFetchRecordSet storedCrates .none
        [byteRecord 5 1, byteRecord 7 2] 4) =
      some [FetchedRecord.of (byteRecord 5 1), FetchedRecord.of (byteRecord 6 2)] := by
  decide +kernel

end Volant.Kafka
