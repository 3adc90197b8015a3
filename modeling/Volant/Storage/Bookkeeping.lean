-- SUMMARY: What an append does to a segment's size, next offset and sparse index, on every write path.
import Volant.Storage.Segment

/-!
# Bookkeeping

Where the bytes of a segment go depends on its write path; its counters and
its index do not. `Book` is that part of a segment. Writes and flushes leave
it alone but for the size, and an append changes it as a function of the
record.
-/

namespace Volant.Storage

open Exec

structure Book where
  baseOffset : Nat
  nextOffset : Nat
  size : Nat
  indexIntervalBytes : Nat
  bytesSinceIndex : Nat
  index : SparseIndex
  sealed : Bool
deriving DecidableEq, Repr

namespace Book

/-- An index entry is due before the next record. -/
def due (b : Book) : Bool := b.index.isEmpty || decide (b.indexIntervalBytes ≤ b.bytesSinceIndex)

/-- The checks behind the write pass for a record at `offset`. -/
def Indexable (b : Book) (offset : Nat) : Prop :=
  b.due = true → b.baseOffset ≤ offset ∧ offset - b.baseOffset ≤ u32Max ∧ b.size ≤ u32Max

instance (b : Book) (offset : Nat) : Decidable (b.Indexable offset) :=
  inferInstanceAs (Decidable (_ → _))

/-- The bookkeeping of a record of `len` bytes at `offset`. -/
def record (b : Book) (offset len : Nat) : Book :=
  { b with
    nextOffset := Offset.next offset
    size := b.size + len
    bytesSinceIndex := (if b.due then 0 else b.bytesSinceIndex) + len
    index := if b.due then
        b.index ++ [{ offsetDelta := offset - b.baseOffset, position := b.size }]
      else b.index }

end Book

namespace Segment

def book (g : Segment) : Book where
  baseOffset := g.baseOffset
  nextOffset := g.nextOffset
  size := g.size
  indexIntervalBytes := g.indexIntervalBytes
  bytesSinceIndex := g.bytesSinceIndex
  index := g.index
  sealed := g.sealed

/-! ## Invariants that do not see the bytes -/

/-- What `I` says of a segment it says of any other with the same view, and it does not mind what
is written to the segment's file. -/
structure Blind {β : Type} (view : Segment → β) (I : SegState → Prop) : Prop where
  seg : ∀ {s : SegState} {g : Segment}, view g = view s.seg → I s → I { s with seg := g }
  file : ∀ {s : SegState} (file : Bytes), I s →
    I { s with host := s.host.putLog s.seg.path file }

/-- What flushing leaves alone. -/
def flushView (g : Segment) : Dir × Book := (g.dir, g.book)

/-- What every operation but an append leaves alone. -/
def spanView (g : Segment) : Dir × Nat × Nat := (g.dir, g.baseOffset, g.nextOffset)

section Keeps

variable {β : Type} {view : Segment → β} {I : SegState → Prop} {P : Platform}

theorem Blind.flushes (hI : Blind spanView I) : Blind flushView I where
  seg h hs := by
    obtain ⟨hdir, hbook⟩ := Prod.mk.inj h
    refine hI.seg ?_ hs
    exact Prod.ext hdir
      (Prod.ext (congrArg Book.baseOffset hbook) (congrArg Book.nextOffset hbook))
  file := hI.file

theorem keeps_modifySeg (hI : Blind view I) {f : Segment → Segment}
    (h : ∀ g, view (f g) = view g) : Keeps I (modifySeg f) :=
  Keeps.modify fun s hs => hI.seg (h s.seg) hs

theorem keeps_modifyFile (hI : Blind view I) (f : Bytes → Bytes) : Keeps I (modifyFile f) :=
  Keeps.modify fun _ hs => hI.file _ hs

section

variable (hI : Blind flushView I)

include hI

theorem keeps_writeAligned : Keeps I writeAligned := by
  refine .bind Keeps.get fun s => ?_
  refine .ite (fun _ => .pure _) fun _ => .check fun _ => ?_
  exact (keeps_modifyFile hI _).bind fun _ => keeps_modifySeg hI fun g => rfl

theorem keeps_flushPendingAligned (force : Bool) : Keeps I (flushPendingAligned force) := by
  refine .bind Keeps.get fun s => ?_
  refine .ite (fun _ => .pure _) fun _ => .check fun _ => ?_
  refine .check fun _ => .ite (fun _ => ?_) fun _ =>
    keeps_writeAligned hI
  refine .ite (fun _ => .pure _) fun _ => .bind ?_ fun _ => keeps_writeAligned hI
  exact keeps_modifySeg hI fun g => rfl

theorem keeps_flushWriter : Keeps I flushWriter := by
  refine .bind Keeps.get fun s => ?_
  split
  · exact (keeps_modifyFile hI _).bind fun _ => keeps_modifySeg hI fun g => rfl
  · exact .pure _

theorem keeps_restoreTail : Keeps I restoreTail := by
  refine .bind Keeps.get fun s => .ite (fun _ => ?_) fun _ => .pure _
  refine .ite (fun _ => ?_) fun _ => keeps_modifySeg hI fun g => rfl
  exact .check fun _ => keeps_modifySeg hI fun g => rfl

theorem keeps_flush : Keeps I flush := by
  refine .bind Keeps.get fun s => .ite (fun _ => ?_) fun _ => keeps_flushWriter hI
  exact (keeps_flushPendingAligned hI true).bind fun _ => keeps_restoreTail hI

end

section

variable (hI : Blind spanView I)

include hI

theorem keeps_seal : Keeps I Segment.seal := by
  refine .bind Keeps.get fun s => .ite (fun _ => .pure _) fun _ => ?_
  refine (keeps_flush hI.flushes).bind fun _ => .bind Keeps.get fun s => .bind ?_
    fun _ => ?_
  · refine .when fun _ => .bind Keeps.get fun s => .bind ?_ fun _ => ?_
    · exact .when fun _ => (keeps_modifyFile hI _).bind fun _ =>
        keeps_modifySeg hI fun g => rfl
    · exact .when fun _ => keeps_modifyFile hI _
  · exact .modify fun t ht => hI.seg rfl ht

theorem keeps_writeEncoded (buf : Bytes) : Keeps I (writeEncoded buf) := by
  refine .bind Keeps.get fun s => .ite (fun _ => ?_) fun _ => ?_
  · refine .bind ?_ fun _ => keeps_flushPendingAligned hI.flushes false
    exact keeps_modifySeg hI fun g => rfl
  · split
    · exact keeps_modifySeg hI fun g => rfl
    · refine .check fun _ => .check fun _ => ?_
      exact (keeps_modifyFile hI _).bind fun _ => keeps_modifySeg hI fun g => rfl

theorem keeps_indexRecord (offset position : Nat) : Keeps I (indexRecord offset position) := by
  refine .bind Keeps.get fun s => .ite (fun _ => ?_) fun _ => .pure _
  refine .check fun _ => .check fun _ => ?_
  exact .check fun _ => keeps_modifySeg hI fun g => rfl

/-- An append also moves the next offset. -/
theorem keeps_appendEncoded {offset : Nat}
    (hnext : ∀ s, I s → I { s with seg := { s.seg with nextOffset := Offset.next offset } })
    (message : Message) (timestampMs : Int64) :
    Keeps I (appendEncoded P offset message timestampMs) := by
  refine (keeps_writeEncoded hI _).bind fun _ => .bind Keeps.get fun s => ?_
  refine (keeps_indexRecord hI _ _).bind fun _ => .bind ?_ fun _ => ?_
  · refine .modify fun t ht => ?_
    have hmoved := hnext t ht
    exact hI.seg (s := { t with seg := { t.seg with nextOffset := Offset.next offset } }) rfl hmoved
  · exact (keeps_flushWriter hI.flushes).bind fun _ => .pure _

theorem keeps_append {offset : Nat}
    (hnext : ∀ s, I s → I { s with seg := { s.seg with nextOffset := Offset.next offset } })
    (message : Message) (timestampMs : Int64) :
    Keeps I (append P offset message timestampMs) := by
  refine .bind Keeps.get fun s => .check fun _ => ?_
  exact .check fun _ =>
    keeps_appendEncoded hI hnext message timestampMs

end

end Keeps

/-! ## What an append writes down -/

/-- The segment under mutation has the bookkeeping `b`. -/
def Shows (b : Book) (t : SegState) : Prop := t.seg.book = b

theorem blind_shows (b : Book) : Blind flushView (Shows b) where
  seg h hs := (congrArg Prod.snd h).trans hs
  file _ hs := hs

variable {P : Platform} {s s' : SegState} {offset : Nat} {message : Message} {t : Int64}
  {r : Record}

/-- A run that succeeds leaves the bookkeeping that its program keeps. -/
theorem book_of_keeps {α : Type} {x : SegM α} {a : α} (h : Keeps (Shows s.seg.book) x)
    (hrun : x s = .ok a s') : s'.seg.book = s.seg.book := by
  have hstop := h s rfl
  rw [hrun] at hstop
  exact hstop

theorem book_writeEncoded {buf : Bytes} {u : Unit} (hrun : writeEncoded buf s = .ok u s') :
    s'.seg.book = { s.seg.book with size := s.seg.size + buf.length } := by
  simp only [writeEncoded, get_bind_ok] at hrun
  split at hrun
  · obtain ⟨_, t, hmod, hflush⟩ := bind_ok.mp hrun
    obtain rfl := modify_ok.mp hmod
    exact (book_of_keeps (keeps_flushPendingAligned (blind_shows _) false) hflush).trans rfl
  · cases hw : s.seg.logWriter with
    | some w =>
      rw [hw] at hrun
      obtain rfl := modify_ok.mp hrun
      rfl
    | none =>
      simp only [hw, check_ok, bind_ok] at hrun
      obtain ⟨-, -, _, t, hfile, hmod⟩ := hrun
      obtain rfl := modify_ok.mp hfile
      obtain rfl := modify_ok.mp hmod
      rfl

/-- The index step succeeds when its checks pass, and then adds an entry if one is due. -/
theorem indexRecord_run (offset position : Nat) (hok : s.seg.book.due = true →
      s.seg.baseOffset ≤ offset ∧ offset - s.seg.baseOffset ≤ u32Max ∧ position ≤ u32Max) :
    indexRecord offset position s = .ok () { s with seg := { s.seg with
      index := if s.seg.book.due then
          s.seg.index ++ [{ offsetDelta := offset - s.seg.baseOffset, position := position }]
        else s.seg.index
      bytesSinceIndex := if s.seg.book.due then 0 else s.seg.bytesSinceIndex } } := by
  refine bind_ok.mpr ⟨s, s, get_ok.mpr ⟨rfl, rfl⟩, ?_⟩
  have hdue : (s.seg.index.isEmpty || decide (s.seg.indexIntervalBytes ≤ s.seg.bytesSinceIndex)) =
      s.seg.book.due := rfl
  rw [hdue]
  cases hd : s.seg.book.due with
  | true =>
    obtain ⟨hbase, hdelta, hpos⟩ := hok hd
    rw [if_pos rfl, if_neg (by omega), if_neg (by omega), if_neg (by omega)]
    rfl
  | false => rfl

theorem indexRecord_checks {position : Nat} {u : Unit}
    (hrun : indexRecord offset position s = .ok u s') (hd : s.seg.book.due = true) :
    s.seg.baseOffset ≤ offset ∧ offset - s.seg.baseOffset ≤ u32Max ∧ position ≤ u32Max := by
  simp only [indexRecord, get_bind_ok] at hrun
  have hdue : (s.seg.index.isEmpty || decide (s.seg.indexIntervalBytes ≤ s.seg.bytesSinceIndex)) =
      true := hd
  rw [if_pos hdue, check_ok, check_ok, check_ok] at hrun
  omega

theorem append_ok (hrun : append P offset message t s = .ok r s') :
    s.seg.sealed = false ∧ offset = s.seg.nextOffset ∧
      appendEncoded P offset message t s = .ok r s' := by
  simp only [append, get_bind_ok, check_ok] at hrun
  obtain ⟨hs, hoffset, hrun⟩ := hrun
  exact ⟨by simpa using hs, not_not.mp hoffset, hrun⟩

theorem appendAllowGap_ok (hrun : appendAllowGap P offset message t s = .ok r s') :
    s.seg.sealed = false ∧ s.seg.nextOffset ≤ offset ∧
      appendEncoded P offset message t s = .ok r s' := by
  simp only [appendAllowGap, get_bind_ok, check_ok] at hrun
  obtain ⟨hs, hoffset, hrun⟩ := hrun
  exact ⟨by simpa using hs, not_lt.mp hoffset, hrun⟩

/-- What the index step reads of a segment behind the write of a record of `n` bytes. -/
theorem book_behind_write {n : Nat} (h : s'.seg.book = { s.seg.book with size := s.seg.size + n }) :
    s'.seg.size - n = s.seg.size ∧ s'.seg.baseOffset = s.seg.baseOffset ∧
      s'.seg.book.due = s.seg.book.due := by
  have hsize : s'.seg.size = s.seg.size + n := congrArg Book.size h
  exact ⟨by omega, congrArg Book.baseOffset h, by rw [h]; rfl⟩

/-- What a successful append has checked behind its write, and what it has written down. -/
theorem book_appendEncoded (hrun : appendEncoded P offset message t s = .ok r s') :
    s.seg.book.Indexable offset ∧
      s'.seg.book = s.seg.book.record offset (encodedRecordSize message) := by
  simp only [appendEncoded, bind_ok, get_ok] at hrun
  obtain ⟨_, s1, hwrite, _, _, ⟨rfl, rfl⟩, _, s2, hindex, _, s3, hbook, _, s4, hflush, hret⟩ :=
    hrun
  obtain ⟨-, rfl⟩ := pure_ok.mp hret
  have h1 := book_writeEncoded hwrite
  obtain ⟨hsize, hbase, hdue⟩ := book_behind_write h1
  rw [length_encodeRecord] at h1
  rw [hsize] at hindex
  have hchecks := indexRecord_checks hindex
  rw [hdue, hbase] at hchecks
  have hrun2 := indexRecord_run (s := s1) offset s.seg.size (by rwa [hdue, hbase])
  rw [hindex] at hrun2
  cases hrun2
  have hb1 : s1.seg.bytesSinceIndex = s.seg.bytesSinceIndex := congrArg Book.bytesSinceIndex h1
  have hi1 : s1.seg.index = s.seg.index := congrArg Book.index h1
  have hv1 : s1.seg.indexIntervalBytes = s.seg.indexIntervalBytes :=
    congrArg Book.indexIntervalBytes h1
  have hz1 : s1.seg.size = s.seg.size + encodedRecordSize message := congrArg Book.size h1
  have hs1 : s1.seg.sealed = s.seg.sealed := congrArg Book.sealed h1
  obtain rfl := modify_ok.mp hbook
  refine ⟨hchecks, ?_⟩
  rw [book_of_keeps (keeps_flushWriter (blind_shows _)) hflush]
  simp only [book, Book.record, hbase, hb1, hi1, hv1, hz1, hs1, length_encodeRecord]
  rfl

end Segment

end Volant.Storage
