-- SUMMARY: When the writes, flushes and seals of a segment succeed.
import Volant.Storage.Bookkeeping
import Volant.Storage.SegmentBytes

/-!
# Write paths

The lemmas about a segment's bytes are about runs that succeed. Here is when
they do. A buffered segment can always write. A segment that writes directly
needs its physical size at a block boundary: it is the position at which the
next whole blocks go to the file. Appends and flushes keep it there, but a
segment that is reopened starts at its recovered end, wherever that is.
-/

namespace Volant.Storage

open Exec

namespace Segment

/-- The segment has a writer, and a direct one stands at a block boundary. -/
def Writable (g : Segment) : Prop :=
  if g.directIo then
    g.logFile = true ∧ g.backend.isSome = true ∧ g.physicalSize % DIRECT_IO_ALIGN = 0
  else g.logWriter.isSome = true ∨ g.logFile = true ∧ g.backend.isSome = true

instance (g : Segment) : Decidable g.Writable :=
  inferInstanceAs (Decidable (if g.directIo then _ else _))

variable {P : Platform} {s s' : SegState} {bytes : Bytes}

theorem writable_direct {g : Segment} (hd : g.directIo = true) :
    g.Writable ↔ g.logFile = true ∧ g.backend.isSome = true ∧
      g.physicalSize % DIRECT_IO_ALIGN = 0 := by
  rw [Writable, if_pos hd]

theorem writable_plain {g : Segment} (hd : g.directIo = false) :
    g.Writable ↔ g.logWriter.isSome = true ∨ g.logFile = true ∧ g.backend.isSome = true := by
  rw [Writable, if_neg (by simp [hd])]

/-- Updates of other fields, and of a plain segment's counters, leave a segment writable. -/
theorem Writable.of_same {g g' : Segment} (hw : g.Writable) (hd : g'.directIo = g.directIo)
    (hf : g'.logFile = g.logFile) (hb : g'.backend = g.backend)
    (hp : g.directIo = true → g'.physicalSize = g.physicalSize)
    (hlw : g.logWriter.isSome = true → g'.logWriter.isSome = true) : g'.Writable := by
  cases h : g.directIo with
  | true =>
    rw [writable_direct (hd.trans h), hf, hb, hp h]
    exact (writable_direct h).mp hw
  | false =>
    rw [writable_plain (hd.trans h), hf, hb]
    exact ((writable_plain h).mp hw).imp_left hlw

/-! ## Writes -/

/-- Whole blocks go to a block boundary and end at one. -/
theorem writeAligned_run (hp : s.seg.physicalSize % DIRECT_IO_ALIGN = 0) :
    Runs writeAligned s fun _ t => t.seg.physicalSize % DIRECT_IO_ALIGN = 0 := by
  refine .bind (.get ?_)
  dsimp only
  split
  · exact .pure hp
  · rw [if_neg (not_not_intro hp)]
    refine .bind (.modify (.modify ?_))
    simp only [Nat.add_mul_mod_self_right]
    exact hp

theorem flushPendingAligned_run (hd : s.seg.directIo = true) (hw : s.seg.Writable) (force : Bool) :
    Runs (flushPendingAligned force) s fun _ t => t.seg.physicalSize % DIRECT_IO_ALIGN = 0 := by
  obtain ⟨hfile, hbackend, hp⟩ := (writable_direct hd).mp hw
  have hnone : s.seg.backend.isNone = false := by simpa using hbackend
  refine .bind (.get ?_)
  simp only [hd, hfile, hnone, Bool.not_true, Bool.false_eq_true, if_false]
  cases force with
  | false => exact writeAligned_run hp
  | true =>
    by_cases hempty : s.seg.pending.isEmpty = true
    · rw [if_pos hempty]
      exact .pure hp
    · rw [if_neg hempty]
      exact .bind (.modify (writeAligned_run hp))

/-- What a write leaves of the fields that say how the segment writes. -/
theorem writer_of_frame (h : WriteFrame s s') :
    s'.seg.directIo = s.seg.directIo ∧ s'.seg.logFile = s.seg.logFile ∧
      s'.seg.backend = s.seg.backend := by
  obtain ⟨w, ps, pd, sz, hseg⟩ := h.seg
  rw [hseg]
  exact ⟨rfl, rfl, rfl⟩

theorem writable_of_frame (h : WriteFrame s s') (hd : s.seg.directIo = true)
    (hw : s.seg.Writable) (hp : s'.seg.physicalSize % DIRECT_IO_ALIGN = 0) : s'.seg.Writable := by
  obtain ⟨hfile, hbackend, -⟩ := (writable_direct hd).mp hw
  obtain ⟨hd', hf', hb'⟩ := writer_of_frame h
  exact (writable_direct (hd'.trans hd)).mpr ⟨hf'.trans hfile, by rw [hb', hbackend], hp⟩

theorem writeEncoded_run (hb : s.Backs bytes) (hs : s.seg.sealed = false) (hw : s.seg.Writable)
    (buf : Bytes) : Runs (writeEncoded buf) s fun _ t => t.seg.Writable := by
  cases hd : s.seg.directIo with
  | true =>
    have hrun : Runs (writeEncoded buf) s fun _ t =>
        t.seg.physicalSize % DIRECT_IO_ALIGN = 0 := by
      refine .bind (.get ?_)
      rw [if_pos hd]
      refine .bind (.modify (flushPendingAligned_run ?_ ?_ false))
      · exact hd
      · exact hw.of_same rfl rfl rfl (fun _ => rfl) id
    refine (hrun.and_ok fun _ t ht => (writeEncoded_backs hb hs ht).2).mono ?_
    rintro _ t ⟨hp, hframe⟩
    exact writable_of_frame hframe hd hw hp
  | false =>
    refine .bind (.get ?_)
    rw [if_neg (by simp [hd])]
    cases hlw : s.seg.logWriter with
    | some w => exact .modify (hw.of_same rfl rfl rfl (by simp [hd]) fun _ => rfl)
    | none =>
      obtain hno | ⟨hfile, hbackend⟩ := (writable_plain hd).mp hw
      · simp [hlw] at hno
      have hnone : s.seg.backend.isNone = false := by simpa using hbackend
      simp only [hfile, hnone, Bool.not_true, Bool.false_eq_true, if_false]
      exact .bind (.modify (.modify (hw.of_same rfl rfl rfl (by simp [hd]) id)))

theorem flushWriter_run (hw : s.seg.Writable) : Runs flushWriter s fun _ t => t.seg.Writable := by
  refine .bind (.get ?_)
  cases hlw : s.seg.logWriter with
  | none => exact .pure hw
  | some w =>
    exact .bind (.modify (.modify (hw.of_same rfl rfl rfl (fun _ => rfl) fun _ => rfl)))

/-! ## Appends -/

/-- An append behind its offset checks succeeds when the index check passes. -/
theorem appendEncoded_run (hb : s.Backs bytes) (hs : s.seg.sealed = false) (hw : s.seg.Writable)
    {offset : Nat} (hok : s.seg.book.Indexable offset) (message : Message) (t : Int64) :
    Runs (appendEncoded P offset message t) s fun r t' =>
      r = message.toRecord offset t ∧ t'.seg.Writable := by
  refine .bind (((writeEncoded_run hb hs hw _).and_ok
    fun _ u hu => book_writeEncoded hu).mono ?_)
  rintro _ s1 ⟨hw1, h1⟩
  obtain ⟨hsize, hbase, hdue⟩ := book_behind_write h1
  refine .bind (.get ?_)
  rw [hsize]
  refine .bind ⟨_, _, indexRecord_run offset s.seg.size (by rwa [hdue, hbase]), ?_⟩
  refine .bind (.modify (.bind ((flushWriter_run ?_).mono fun _ u hu => .pure ⟨rfl, hu⟩)))
  exact hw1.of_same rfl rfl rfl (fun _ => rfl) id

theorem append_run (hb : s.Backs bytes) (hs : s.seg.sealed = false) (hw : s.seg.Writable)
    (hok : s.seg.book.Indexable s.seg.nextOffset) (message : Message) (t : Int64) :
    Runs (append P s.seg.nextOffset message t) s fun r t' =>
      r = message.toRecord s.seg.nextOffset t ∧ t'.seg.Writable := by
  refine .bind (.get ?_)
  rw [if_neg (by simp [hs]), if_neg (not_not_intro rfl)]
  exact appendEncoded_run hb hs hw hok message t

/-! ## Flush and seal -/

/-- After a padded flush the last partial block is in the file, so it can be taken back. -/
theorem restoreTail_run (hp : Padded s bytes) (halign : s.seg.physicalSize % DIRECT_IO_ALIGN = 0) :
    Runs restoreTail s fun _ t => t.seg.physicalSize % DIRECT_IO_ALIGN = 0 := by
  obtain ⟨z, hfile, hphys⟩ := hp.file
  have hsize := hp.size
  have hfloor : s.seg.size / DIRECT_IO_ALIGN * DIRECT_IO_ALIGN % DIRECT_IO_ALIGN = 0 :=
    Nat.mul_mod_left _ _
  refine .bind (.get ?_)
  dsimp only
  split
  · split
    · rw [Host.bytesOf_of_lookup hfile, if_neg ?_]
      · exact .modify hfloor
      · rw [List.length_take, List.length_drop, List.length_append]
        omega
    · exact .modify hfloor
  · exact .pure halign

theorem flush_run (hb : s.Backs bytes) (hs : s.seg.sealed = false) (hw : s.seg.Writable) :
    Runs flush s fun _ t => t.seg.Writable := by
  cases hd : s.seg.directIo with
  | false =>
    refine .bind (.get ?_)
    rw [if_neg (by simp [hd])]
    exact flushWriter_run hw
  | true =>
    have hrun : Runs flush s fun _ t => t.seg.physicalSize % DIRECT_IO_ALIGN = 0 := by
      refine .bind (.get ?_)
      rw [if_pos hd]
      refine .bind (((flushPendingAligned_run hd hw true).and_ok
        fun _ u hu => (flushPendingAligned_true_padded hb hd hs hu).1).mono ?_)
      rintro _ u ⟨hp, hpad⟩
      exact restoreTail_run hpad hp
    refine (hrun.and_ok fun _ t ht => (flush_backs hb hs ht).2.2.2).mono ?_
    rintro _ t ⟨hp, hframe⟩
    exact writable_of_frame hframe hd hw hp

theorem seal_run (hb : s.Backs bytes) (hw : s.seg.sealed = false → s.seg.Writable) :
    Runs Segment.seal s fun _ t => t.seg.sealed = true := by
  refine .bind (.get ?_)
  cases hs : s.seg.sealed with
  | true => exact .pure hs
  | false =>
    refine .bind ((flush_run hb hs (hw hs)).mono fun _ u _ => ?_)
    refine .bind (.get ?_)
    have hdirect : Runs sealDirect u fun _ _ => True := by
      refine .bind (.get (.bind ?_))
      have hcut : ∀ v : SegState, Runs (when u.seg.logFile
          (modifyFile fun file => Host.setLen file u.seg.size)) v fun _ _ => True := by
        intro v
        cases u.seg.logFile with
        | true => exact .modify trivial
        | false => exact .pure trivial
      cases hpend : u.seg.pending.isEmpty with
      | true => exact .pure (hcut u)
      | false => exact .bind (.modify (.modify (hcut _)))
    cases hd : u.seg.directIo with
    | true => exact .bind (hdirect.mono fun _ v _ => .modify rfl)
    | false => exact .bind (.pure (.modify rfl))

end Segment

end Volant.Storage
