-- SUMMARY: Stored records, their place in a segment file, and what the read loop returns of them.
import Volant.Storage.Segment

/-!
# Scanning a segment file

The loops of a segment walk over encoded records. The lemma about the read loop
is by induction on the records still ahead: the file is `before ++ encodeAll
rs`, the loop stands at the end of `before`, and each round moves one record
from `rs` to `before`.
-/

namespace Volant.Storage

open List

variable {n : Nat} {rs : List Record} {r : Record}

/-- Consecutive offsets from `n` on. -/
def GapFree : Nat → List Record → Prop
  | _, [] => True
  | n, r :: rs => r.offset = n ∧ GapFree (n + 1) rs

theorem GapFree.append_iff {ts : List Record} :
    GapFree n (rs ++ ts) ↔ GapFree n rs ∧ GapFree (n + rs.length) ts := by
  induction rs generalizing n with
  | nil => simp [GapFree]
  | cons r rs ih =>
    have harith : n + (rs.length + 1) = n + 1 + rs.length := by omega
    simp [GapFree, ih, harith, and_assoc]

theorem GapFree.offset_eq {i : Nat} (h : GapFree n rs) (hi : rs[i]? = some r) :
    r.offset = n + i := by
  induction rs generalizing n i with
  | nil => cases hi
  | cons r' rs ih =>
    cases i with
    | zero =>
      cases hi
      exact h.1
    | succ i =>
      rw [ih h.2 hi]
      omega

theorem GapFree.bounds (h : GapFree n rs) (hr : r ∈ rs) :
    n ≤ r.offset ∧ r.offset < n + rs.length := by
  induction rs generalizing n with
  | nil => cases hr
  | cons t rs ih =>
    obtain ⟨ht, hrest⟩ := h
    rcases mem_cons.mp hr with rfl | hmem
    · simp only [length_cons]
      omega
    · have := ih hrest hmem
      simp only [length_cons]
      omega

theorem GapFree.sorted (h : GapFree n rs) : (rs.map (·.offset)).Pairwise (· < ·) := by
  induction rs generalizing n with
  | nil => simp
  | cons r rs ih =>
    obtain ⟨hr, hrest⟩ := h
    refine pairwise_cons.mpr ⟨?_, ih hrest⟩
    intro o ho
    obtain ⟨t, ht, rfl⟩ := mem_map.mp ho
    have := (hrest.bounds ht).1
    simp only
    omega

/-! ## Stored records -/

/-- The record can be written and read back. -/
structure Storable (r : Record) : Prop where
  fits : Message.Fits r.toMessage
  offset_lt : r.offset < u64Max

theorem Storable.of_message {m : Message} (hm : Message.Fits m) {o : Nat} (ho : o < u64Max)
    (t : Int64) : Storable (m.toRecord o t) where
  fits := ⟨hm.recordLength, hm.names⟩
  offset_lt := ho

section

variable (crc : Bytes → UInt32)

def encodeStored (r : Record) : Bytes := encodeRecord crc r.offset r.timestampMs r.toMessage

def encodeAll (rs : List Record) : Bytes := rs.flatMap (encodeStored crc)

@[simp] theorem encodeAll_nil : encodeAll crc [] = [] := rfl

@[simp] theorem encodeAll_cons (r : Record) (rs : List Record) :
    encodeAll crc (r :: rs) = encodeStored crc r ++ encodeAll crc rs := rfl

@[simp] theorem encodeAll_append (rs ts : List Record) :
    encodeAll crc (rs ++ ts) = encodeAll crc rs ++ encodeAll crc ts := flatMap_append

theorem encodeStored_pos (r : Record) : 8 ≤ (encodeStored crc r).length := by
  simp only [encodeStored, length_encodeRecord, encodedRecordSize]
  omega

theorem length_le_encodeAll (rs : List Record) : rs.length ≤ (encodeAll crc rs).length := by
  induction rs with
  | nil => simp
  | cons r rs ih =>
    have := encodeStored_pos crc r
    simp only [length_cons, encodeAll_cons, length_append]
    omega

/-- A stored message's encoding does not depend on the timestamp the message asked for. -/
theorem encodeStored_toRecord (m : Message) (o : Nat) (t : Int64) :
    encodeStored crc (m.toRecord o t) = encodeRecord crc o t m := rfl

end

theorem decodeRecordAt_stored (crc : Bytes → UInt32) (hr : Storable r) (before after : Bytes) :
    decodeRecordAt crc (before ++ (encodeStored crc r ++ after)) before.length =
      .ok r before.length (before.length + (encodeStored crc r).length)
        (encodeStored crc r).length := by
  have hlt : r.offset < 2 ^ 64 := by
    have := hr.offset_lt
    unfold u64Max at this
    omega
  have h := decodeRecordAt_encodeRecord crc hr.fits hlt r.timestampMs before after
  simpa [encodeStored] using h

/-- Zeros do not decode: padding ends a scan. -/
theorem decodeRecordAt_zeros (crc : Bytes → UInt32) (before : Bytes) (z : Nat) :
    decodeRecordAt crc (before ++ replicate z 0) before.length = .incomplete ∨
      decodeRecordAt crc (before ++ replicate z 0) before.length = .corrupt := by
  unfold decodeRecordAt
  split
  · exact .inl rfl
  · rename_i hlen
    have hz : 4 ≤ z := by
      simp only [length_append, length_replicate] at hlen
      omega
    have hzero : LittleEndian.decode
        (((before ++ replicate z 0).drop before.length).take 4) = 0 := by
      rw [drop_left, take_replicate, Nat.min_eq_left hz]
      rfl
    refine .inr ?_
    simp only [hzero]
    rfl

/-! ## Index -/

/-- Every index entry is the position of some record boundary, and all records before it have
offsets below the entry's. -/
def IndexOk (crc : Bytes → UInt32) (base : Nat) (rs : List Record) (index : SparseIndex) : Prop :=
  ∀ e ∈ index, ∃ done rest, rs = done ++ rest ∧
    e.position = HEADER_SIZE + (encodeAll crc done).length ∧
    ∀ r ∈ done, r.offset < base + e.offsetDelta

namespace IndexOk

variable {crc : Bytes → UInt32} {base : Nat} {rs : List Record} {index : SparseIndex}

theorem nil : IndexOk crc base rs [] := by
  intro e he
  cases he

theorem snoc (h : IndexOk crc base rs index) (r : Record) : IndexOk crc base (rs ++ [r]) index := by
  intro e he
  obtain ⟨done, rest, rfl, hpos, hlt⟩ := h e he
  exact ⟨done, rest ++ [r], by simp, hpos, hlt⟩

/-- An entry for the record written behind `rs`. -/
theorem snoc_entry (h : IndexOk crc base rs index) {r : Record} (hbase : base ≤ r.offset)
    (hlt : ∀ t ∈ rs, t.offset < r.offset) : IndexOk crc base (rs ++ [r]) (index ++
      [{ offsetDelta := r.offset - base
         position := HEADER_SIZE + (encodeAll crc rs).length }]) := by
  intro e he
  rcases mem_append.mp he with hold | hnew
  · exact h.snoc r e hold
  · obtain rfl := mem_singleton.mp hnew
    refine ⟨rs, [r], rfl, rfl, ?_⟩
    intro t ht
    have := hlt t ht
    simp only
    omega

end IndexOk

/-! ## The read loop -/

/-- Without a byte limit the read loop returns the records from `start` on, up to the message
limit. -/
theorem readLoop_eq {crc : Bytes → UInt32} {start nextOffset maxMessages : Nat} {before : Bytes}
    {out : List Record} {fuel bytesAcc : Nat} (hfuel : rs.length ≤ fuel)
    (hstorable : ∀ r ∈ rs, Storable r) (hnext : ∀ r ∈ rs, r.offset < nextOffset) :
    Segment.readLoop crc (before ++ encodeAll crc rs) start nextOffset maxMessages usizeMax fuel
        before.length bytesAcc out =
      out ++ (rs.filter (start ≤ ·.offset)).take (maxMessages - out.length) := by
  induction rs generalizing before fuel bytesAcc out with
  | nil =>
    cases fuel with
    | zero => simp [Segment.readLoop]
    | succ fuel => simp [Segment.readLoop]
  | cons r rs ih =>
    obtain ⟨fuel, rfl⟩ : ∃ k, fuel = k + 1 := ⟨fuel - 1, by simp at hfuel; omega⟩
    have hdecode := decodeRecordAt_stored crc (hstorable r mem_cons_self) before
      (encodeAll crc rs)
    have hr := hnext r mem_cons_self
    have hpos : before.length < (before ++ encodeAll crc (r :: rs)).length := by
      have := encodeStored_pos crc r
      simp only [length_append, encodeAll_cons]
      omega
    have hrec : ∀ acc out, Segment.readLoop crc (before ++ encodeAll crc (r :: rs)) start
        nextOffset maxMessages usizeMax fuel (before.length + (encodeStored crc r).length) acc
        out = out ++ (rs.filter (start ≤ ·.offset)).take (maxMessages - out.length) := by
      intro acc out
      have hshift : Segment.readLoop crc (before ++ encodeStored crc r ++ encodeAll crc rs) start
          nextOffset maxMessages usizeMax fuel (before ++ encodeStored crc r).length acc out =
          out ++ (rs.filter (start ≤ ·.offset)).take (maxMessages - out.length) :=
        ih (by simpa using hfuel) (fun t ht => hstorable t (mem_cons_of_mem _ ht))
          (fun t ht => hnext t (mem_cons_of_mem _ ht))
      simpa using hshift
    unfold Segment.readLoop
    by_cases hroom : out.length < maxMessages
    · rw [if_pos (by simp only [hpos, hroom, decide_true, Bool.and_self])]
      rw [encodeAll_cons, hdecode, ← encodeAll_cons]
      by_cases hskip : r.offset < start
      · simp only [if_pos hskip, hrec]
        rw [filter_cons_of_neg (by simpa using hskip)]
      · have hkeep : start ≤ r.offset := by omega
        simp only [if_neg hskip, if_neg (show ¬ nextOffset ≤ r.offset by omega), ne_eq,
          not_true_eq_false, decide_false, Bool.and_false, Bool.false_and, Bool.false_eq_true,
          if_false, hrec]
        obtain ⟨k, hk⟩ : ∃ k, maxMessages - out.length = k + 1 :=
          ⟨maxMessages - out.length - 1, by omega⟩
        rw [filter_cons_of_pos (by simpa using hkeep), hk, length_append, length_singleton,
          append_assoc, singleton_append]
        congr 3
        omega
    · rw [if_neg (by simp [hroom])]
      have hzero : maxMessages - out.length = 0 := by omega
      simp [hzero]

/-- A scan that starts at an index entry misses no record from `start` on. -/
theorem IndexOk.lookup_split {crc : Bytes → UInt32} {base start pos : Nat} {index : SparseIndex}
    (h : IndexOk crc base rs index) (hstart : base ≤ start)
    (hpos : index.lookup ((start - base) % 2 ^ 32) = some pos) :
    ∃ done rest, rs = done ++ rest ∧ pos = HEADER_SIZE + (encodeAll crc done).length ∧
      ∀ r ∈ done, r.offset < start := by
  obtain ⟨e, he, hle, rfl⟩ := SparseIndex.lookup_mem hpos
  obtain ⟨done, rest, hrs, hp, hlt⟩ := h e he
  refine ⟨done, rest, hrs, hp, ?_⟩
  intro r hr
  have := hlt r hr
  omega

end Volant.Storage
