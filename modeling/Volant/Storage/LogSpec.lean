-- SUMMARY: What each operation of the partition log does to the records it holds.
import Volant.Storage.LogInv

/-!
# Log specification

One lemma per operation: a successful run keeps `LogInv` and changes the run
of records as the operation promises. Appends add stamped messages at the end,
rolls and flushes change nothing, prefix deletion and retention drop records
from the front.
-/

namespace Volant.Storage

open List Exec

/-- `rs` are the messages `ms` at consecutive offsets from `o`. A message's own timestamp is kept;
one without gets some reading of the clock. -/
def Stamped : Nat → List Message → List Record → Prop
  | _, [], [] => True
  | o, m :: ms, r :: rs =>
    (∃ t, r = m.toRecord o t ∧ ∀ t', m.timestampMs = some t' → t = t') ∧ Stamped (o + 1) ms rs
  | _, _, _ => False

theorem Stamped.length {o : Nat} {ms : List Message} {rs : List Record} (h : Stamped o ms rs) :
    rs.length = ms.length := by
  induction ms generalizing o rs with
  | nil =>
    cases rs with
    | nil => rfl
    | cons r rs => exact absurd h (by simp [Stamped])
  | cons m ms ih =>
    cases rs with
    | nil => exact absurd h (by simp [Stamped])
    | cons r rs => simp [ih h.2]

namespace PartitionLog

variable {P : Platform} {s s' : LogState} {start : Nat} {rs : List Record} {u : Unit} {m : Message}
  {r : Record}

/-! ## Flush -/

/-- What a successful operation of the active segment works on, and what the log becomes with any
chain in the segment's place. -/
theorem onActive_inv {α : Type} {missing : String} {x : SegM α} {a : α} (hi : LogInv P s start rs)
    (hrun : onActive missing x s = .ok a s') : ∃ front g t done rest, x ⟨s.host, g⟩ = .ok a t ∧
      s' = { host := t.host, log := { s.log with segments := front ++ [t.seg] } } ∧
      rs = done ++ rest ∧ g.dir = .data ∧ g.sealed = false ∧ g.Inv P s.host rest ∧
      g.baseOffset = start + done.length ∧
      ∀ {h' : Host} {gs : List Segment} {rest' : List Record} (log : PartitionLog),
        Chain P h' g.baseOffset gs rest' →
        (∀ b ∉ gs.map (·.baseOffset), h'.logs.lookup ⟨.data, b⟩ = s.host.logs.lookup ⟨.data, b⟩) →
        log.segments = front ++ gs → log.config = s.log.config →
        log.nextOffset = start + (done ++ rest').length →
        LogInv P ⟨h', log⟩ start (done ++ rest') := by
  obtain ⟨front, g, t, hsegs, hx, rfl⟩ := onActive_ok hrun
  obtain ⟨front', g', done, rest, hsegs', rfl, hdir, hs, hinv, hbase, hput⟩ := hi.chain.split_last
  obtain ⟨rfl, hg⟩ := append_inj' (hsegs.symm.trans hsegs') rfl
  obtain rfl : g = g' := by simpa using hg
  refine ⟨front, g, t, done, rest, hx, rfl, rfl, hdir, hs, hinv, hbase, ?_⟩
  intro h' gs rest' log hchain hothers hlog hconfig hnext
  have hhead : g.baseOffset ∈ gs.map (·.baseOffset) := by
    generalize g.baseOffset = b at hchain
    cases hchain with
    | last => exact mem_cons_self
    | cons => exact mem_cons_self
  have hfront : ∀ a ∈ front, a.baseOffset ∉ gs.map (·.baseOffset) := by
    intro a ha hmem
    have hge := hchain.bases.2 _ hmem
    have hpair := hi.chain.bases.1
    rw [hsegs, map_append, pairwise_append] at hpair
    have hlt := hpair.2.2 _ (mem_map_of_mem ha) g.baseOffset (by simp)
    omega
  have hall := hput (fun a ha => ?_) hchain
  · refine ⟨hlog ▸ hall, hnext, fun b => ?_, hconfig ▸ hi.mmap⟩
    simp only [hlog, map_append, mem_append]
    by_cases hb : b ∈ gs.map (·.baseOffset)
    · exact iff_of_true (hchain.lookup_isSome hb) (.inr hb)
    · have hne : b ≠ g.baseOffset := fun hc => hb (hc ▸ hhead)
      rw [hothers b hb, hi.files, hsegs]
      simp [hb, hne]
  · rw [Segment.path_eq_data (hi.chain.dir a (by simp [hsegs, ha]))]
    exact hothers _ (hfront a ha)

/-- The active segment stays in its place. -/
theorem chain_untouched {h h' : Host} {g g' : Segment} (hun : Untouched h g h' g')
    (hdir : g.dir = .data) (hs : g'.sealed = false) (hinv : g'.Inv P h' rs) :
    Chain P h' g.baseOffset [g'] rs ∧ ∀ b ∉ [g'].map (·.baseOffset),
      h'.logs.lookup ⟨.data, b⟩ = h.logs.lookup ⟨.data, b⟩ := by
  refine ⟨hun.base ▸ .last (hun.dir.trans hdir) hs hinv, fun b hb => hun.others _ fun hp => hb ?_⟩
  rw [map_singleton, mem_singleton, hun.base]
  exact congrArg Path.base hp

section

variable (hi : LogInv P s start rs)

include hi

theorem flush_inv (hrun : flush s = .ok u s') :
    LogInv P s' start rs ∧ s'.log.config = s.log.config := by
  simp only [flush, modifyLog, bind_ok, get_ok, modify_ok] at hrun
  obtain ⟨_, _, ⟨rfl, rfl⟩, _, t, hflush, rfl⟩ := hrun
  obtain ⟨-, hflush⟩ | ⟨hno, -⟩ := when_ok.mp hflush
  swap
  · have hne := hi.chain.ne_nil
    simp [hne] at hno
  obtain ⟨front, g, t', done, rest, hseg, rfl, rfl, hdir, hs, hinv, -, hput⟩ :=
    onActive_inv hi hflush
  obtain ⟨hinv', -, hs', hun⟩ := hinv.flush hs hseg
  obtain ⟨hchain, hothers⟩ := chain_untouched hun hdir hs' hinv'
  exact ⟨hput _ hchain hothers rfl rfl hi.next, rfl⟩

theorem finishAppend_inv {n : Nat} {wait : Bool} (hrun : finishAppend n wait s = .ok u s') :
    LogInv P s' start rs ∧ s'.log.config = s.log.config := by
  simp only [finishAppend, modifyLog, bind_ok, get_ok, modify_ok] at hrun
  obtain ⟨_, t, rfl, _, _, ⟨rfl, rfl⟩, hflush⟩ := hrun
  have hi' : LogInv P { s with log := { s.log with
      appendsSinceFlush := saturatingAdd s.log.appendsSinceFlush n } } start rs :=
    ⟨hi.chain, hi.next, hi.files, hi.mmap⟩
  obtain ⟨-, hflush⟩ | ⟨-, rfl⟩ := when_ok.mp hflush
  · obtain ⟨hi2, hc⟩ := flush_inv hi' hflush
    exact ⟨hi2, hc⟩
  · exact ⟨hi', rfl⟩

/-! ## Roll -/

theorem roll_inv (hrun : roll P s = .ok u s') :
    LogInv P s' start rs ∧ s'.log.config = s.log.config := by
  simp only [roll, modifyLog, bind_ok, get_ok, modify_ok] at hrun
  obtain ⟨_, _, ⟨rfl, rfl⟩, _, t1, hseal, now, t2, hnow, n, t3, hcreate, rfl⟩ := hrun
  obtain ⟨front, g, t, done, rest, hseg, rfl, rfl, hdir, hs, hinv, hbase, hput⟩ :=
    onActive_inv hi hseal
  obtain ⟨h2, htick, rfl⟩ := liftHost_ok hnow
  obtain ⟨h3, hnew, rfl⟩ := liftHost_ok hcreate
  obtain ⟨hinv', hs', hun⟩ := hinv.sealed hs hseg
  obtain ⟨hnone, hothers, -, hnbase, -, hnchain⟩ := create_inv hi.mmap (next_le hi) hnew
  simp only [nowMs_ok htick] at hnone hothers
  have hend : s.log.nextOffset = t.seg.nextOffset := by
    rw [hi.next, hinv'.next, hun.base, length_append]
    omega
  have hother : g.path ≠ ⟨.data, s.log.nextOffset⟩ := by
    intro hp
    have hsome := hinv'.lookup_isSome
    rw [hun.path, hp, hnone] at hsome
    cases hsome
  -- An empty active segment would have the new one's name, and the new file could not be created.
  have hne : rest ≠ [] := by
    rintro rfl
    refine hother ?_
    rw [Segment.path_eq_data hdir, hend, hinv'.next, hun.base]
    rfl
  have hchain := Chain.cons (hun.dir.trans hdir) hs' hne
    (hinv'.congr_host (by rw [hun.path, hothers _ hother])) (hend ▸ hnchain)
  rw [hun.base] at hchain
  have hrolled := hput { s.log with segments := front ++ [t.seg] ++ [n] } hchain (fun b hb => ?_)
    (by simp) rfl (by rw [append_nil]; exact hi.next)
  · rw [append_nil] at hrolled
    exact ⟨hrolled, rfl⟩
  · simp only [map_cons, map_nil, mem_cons, not_mem_nil, or_false, not_or, hun.base, hnbase] at hb
    rw [hothers _ fun hp => hb.2 (congrArg Path.base hp),
      hun.others _ fun hp => hb.1 (congrArg Path.base hp)]

/-! ## Append -/

section

variable (hm : Message.Fits m) (hlt : start + rs.length < u64Max)

include hm hlt

/-- The part of `appendOne` behind the roll. -/
theorem appendActive_inv {t : Int64} (hrun : onActive "no active segment" (Segment.append P s.log.nextOffset m t) s = .ok r s') :
    r = m.toRecord (start + rs.length) t ∧
      LogInv P { s' with log := { s'.log with nextOffset := Offset.next s.log.nextOffset } } start
        (rs ++ [r]) ∧ s'.log.config = s.log.config := by
  obtain ⟨front, g, t', done, rest, hseg, rfl, rfl, hdir, hs, hinv, -, hput⟩ :=
    onActive_inv hi hrun
  rw [hi.next] at hseg
  obtain ⟨rfl, -, -, hs', hinv', hun⟩ := hinv.append hm hlt hseg
  obtain ⟨hchain, hothers⟩ := chain_untouched hun hdir hs' hinv'
  refine ⟨rfl, ?_, rfl⟩
  rw [append_assoc]
  refine hput _ hchain hothers rfl rfl ?_
  simp only [hi.next]
  rw [Offset.next_of_lt hlt]
  simp only [length_append, length_singleton]
  omega

theorem appendOne_inv (hrun : appendOne P m s = .ok r s') :
    (∃ t, r = m.toRecord (start + rs.length) t ∧ ∀ t', m.timestampMs = some t' → t = t') ∧
      LogInv P s' start (rs ++ [r]) ∧ s'.log.config = s.log.config := by
  obtain ⟨t, s1, hstamp, hrun⟩ := bind_ok.mp hrun
  -- The clock is read only for a message without a timestamp.
  have hclock : LogInv P s1 start rs ∧ s1.log.config = s.log.config ∧
      ∀ t', m.timestampMs = some t' → t = t' := by
    cases hts : m.timestampMs with
    | some t0 =>
      rw [timestampOf, hts] at hstamp
      obtain ⟨rfl, rfl⟩ := pure_ok.mp hstamp
      exact ⟨hi, rfl, fun t' ht' => Option.some.inj ht'⟩
    | none =>
      rw [timestampOf, hts] at hstamp
      obtain ⟨h', hnow, rfl⟩ := liftHost_ok hstamp
      exact ⟨congr_logs hi (nowMs_ok hnow), rfl, by simp⟩
  obtain ⟨hi1, hc1, htime⟩ := hclock
  simp only [modifyLog, bind_ok, get_ok, modify_ok, pure_ok] at hrun
  obtain ⟨_, _, ⟨rfl, rfl⟩, _, s2, hroll, _, _, ⟨rfl, rfl⟩, r', s3, hseg, _, _, rfl, rfl, rfl⟩ :=
    hrun
  have hrolled : LogInv P s2 start rs ∧ s2.log.config = s1.log.config := by
    obtain ⟨-, hroll⟩ | ⟨-, rfl⟩ := when_ok.mp hroll
    · exact roll_inv hi1 hroll
    · exact ⟨hi1, rfl⟩
  obtain ⟨hi2, hc2⟩ := hrolled
  obtain ⟨hr, hi3, hc3⟩ := appendActive_inv hi2 hm hlt hseg
  exact ⟨⟨t, hr, htime⟩, hi3, hc3.trans (hc2.trans hc1)⟩

theorem append_inv (hrun : append P m s = .ok r s') :
    Stamped (start + rs.length) [m] [r] ∧ LogInv P s' start (rs ++ [r]) ∧
      s'.log.config = s.log.config := by
  simp only [append, bind_ok, pure_ok] at hrun
  obtain ⟨r', s1, hone, _, s2, hfin, rfl, rfl⟩ := hrun
  obtain ⟨hr, hi1, hc1⟩ := appendOne_inv hi hm hlt hone
  obtain ⟨hi2, hc2⟩ := finishAppend_inv hi1 hfin
  exact ⟨⟨hr, trivial⟩, hi2, hc2.trans hc1⟩

end

theorem appendEach_inv {ms : List Message} {out : List Record}
    (hm : ∀ m ∈ ms, Message.Fits m) (hlt : start + rs.length + ms.length ≤ u64Max)
    (hrun : appendEach P ms s = .ok out s') :
    Stamped (start + rs.length) ms out ∧ LogInv P s' start (rs ++ out) ∧
      s'.log.config = s.log.config := by
  induction ms generalizing s rs out with
  | nil =>
    obtain ⟨rfl, rfl⟩ := pure_ok.mp hrun
    exact ⟨trivial, by simpa using hi, rfl⟩
  | cons m ms ih =>
    simp only [appendEach, bind_ok, pure_ok] at hrun
    obtain ⟨r, s1, hone, out', s2, heach, rfl, rfl⟩ := hrun
    rw [length_cons] at hlt
    obtain ⟨hr, hi1, hc1⟩ := appendOne_inv hi (hm m mem_cons_self) (by omega) hone
    obtain ⟨hst, hi2, hc2⟩ := ih hi1 (fun m hmem => hm m (mem_cons_of_mem _ hmem))
      (by simp only [length_append, length_singleton]; omega) heach
    rw [length_append, ← Nat.add_assoc] at hst
    rw [append_assoc] at hi2
    exact ⟨⟨hr, hst⟩, hi2, hc2.trans hc1⟩

theorem appendBatch_inv {ms : List Message} {out : List Record}
    (hm : ∀ m ∈ ms, Message.Fits m) (hlt : start + rs.length + ms.length ≤ u64Max)
    (hrun : appendBatch P ms s = .ok out s') :
    Stamped (start + rs.length) ms out ∧ LogInv P s' start (rs ++ out) ∧
      s'.log.config = s.log.config := by
  simp only [appendBatch, appendBatchInner, bind_ok, pure_ok] at hrun
  obtain ⟨out', s1, heach, _, s2, hfin, rfl, rfl⟩ := hrun
  obtain ⟨hst, hi1, hc1⟩ := appendEach_inv hi hm hlt heach
  obtain ⟨-, hfin⟩ | ⟨-, rfl⟩ := when_ok.mp hfin
  · obtain ⟨hi2, hc2⟩ := finishAppend_inv hi1 hfin
    exact ⟨hst, hi2, hc2.trans hc1⟩
  · exact ⟨hst, hi1, hc1⟩

theorem appendWithOffset_inv {o : Nat} (hm : Message.Fits m)
    (hlt : start + rs.length < u64Max) (hrun : appendWithOffset P o m s = .ok r s') :
    o = start + rs.length ∧ Stamped (start + rs.length) [m] [r] ∧
      LogInv P s' start (rs ++ [r]) ∧ s'.log.config = s.log.config := by
  simp only [appendWithOffset, get_bind_ok, check_ok] at hrun
  obtain ⟨ho, hrun⟩ := hrun
  have ho : o = s.log.nextOffset := by simpa using ho
  simp only [bind_ok, pure_ok] at hrun
  obtain ⟨r', s1, hone, _, s2, hfin, rfl, rfl⟩ := hrun
  obtain ⟨hr, hi1, hc1⟩ := appendOne_inv hi hm hlt hone
  obtain ⟨hi2, hc2⟩ := finishAppend_inv hi1 hfin
  exact ⟨ho.trans hi.next, ⟨hr, trivial⟩, hi2, hc2.trans hc1⟩

/-! ## Read -/

/-- A read returns the first `n` records at or above both `from_` and the log start. -/
theorem read_eq (from_ n : Nat) :
    read P s from_ n = .ok ((rs.filter (max from_ start ≤ ·.offset)).take n) := by
  have hstart : s.log.logStartOffset = start := hi.chain.head_base
  simp only [read, readBytes, hstart, highWatermark]
  split
  · rename_i hstop
    rcases Bool.or_eq_true _ _ ▸ hstop with hend | hzero
    · have hend : s.log.nextOffset ≤ max from_ start := by simpa using hend
      have hnone : rs.filter (max from_ start ≤ ·.offset) = [] := by
        rw [filter_eq_nil_iff]
        intro r hr
        have hlt := (hi.chain.gapFree.bounds hr).2
        rw [hi.next] at hend
        simp only [decide_eq_true_eq]
        omega
      rw [hnone, take_nil]
    · have hzero : n = 0 := by simpa using hzero
      rw [hzero, take_zero]
  · rw [hi.chain.readSegments_eq]
    simp

end

end PartitionLog

/-! ## Prefix deletion -/

/-- Dropping the segments that end at or before `b` drops a prefix of records below `b`. -/
theorem Chain.drop_before {P : Platform} {h : Host} {start : Nat} {gs : List Segment}
    {rs : List Record} (hc : Chain P h start gs rs) (b : Nat) :
    (gs.drop (gs.takeWhile (·.nextOffset ≤ b)).length = [] ∧ ∀ r ∈ rs, r.offset < b) ∨
    ∃ j, j ≤ rs.length ∧
      Chain P h (start + j) (gs.drop (gs.takeWhile (·.nextOffset ≤ b)).length) (rs.drop j) ∧
      ∀ r ∈ rs.take j, r.offset < b := by
  have hbelow : ∀ {g : Segment} {rs : List Record}, g.Inv P h rs → g.nextOffset ≤ b →
      ∀ r ∈ rs, r.offset < b := by
    intro g rs hinv hle r hr
    have := (hinv.gapFree.bounds hr).2
    rw [hinv.next] at hle
    omega
  induction hc with
  | @last g rs hdir hs hinv =>
    by_cases hle : g.nextOffset ≤ b
    · rw [takeWhile_cons_of_pos (by simpa using hle)]
      exact .inl ⟨rfl, hbelow hinv hle⟩
    · rw [takeWhile_cons_of_neg (by simpa using hle)]
      exact .inr ⟨0, Nat.zero_le _, .last hdir hs hinv, by simp⟩
  | @cons g gs rs ts hdir hs hne hinv hrest ih =>
    by_cases hle : g.nextOffset ≤ b
    · rw [takeWhile_cons_of_pos (by simpa using hle), length_cons]
      obtain ⟨hnil, hall⟩ | ⟨j, hj, hchain, hpre⟩ := ih
      · refine .inl ⟨hnil, ?_⟩
        intro r hr
        rcases mem_append.mp hr with hl | hr
        · exact hbelow hinv hle r hl
        · exact hall r hr
      · refine .inr ⟨rs.length + j, ?_, ?_, ?_⟩
        · rw [length_append]
          omega
        · rw [hinv.next, Nat.add_assoc] at hchain
          simpa using hchain
        · intro r hr
          rw [take_append] at hr
          simp only [take_of_length_le (Nat.le_add_right _ _), Nat.add_sub_cancel_left,
            mem_append] at hr
          rcases hr with hl | hr
          · exact hbelow hinv hle r hl
          · exact hpre r hr
    · rw [takeWhile_cons_of_neg (by simpa using hle)]
      exact .inr ⟨0, Nat.zero_le _, .cons hdir hs hne hinv hrest, by simp⟩

namespace PartitionLog

variable {P : Platform} {s s' : LogState} {start : Nat} {rs : List Record} {u : Unit}

theorem deleteAll_ok {gs : List Segment} {h h' : Host} (hrun : deleteAll gs h = .ok u h') (q : Path) :
    h'.logs.lookup q = if q ∈ gs.map (·.path) then none else h.logs.lookup q := by
  induction gs generalizing h with
  | nil =>
    obtain ⟨-, rfl⟩ := pure_ok.mp hrun
    simp
  | cons g gs ih =>
    simp only [deleteAll, Segment.deleteFiles, bind_ok, modify_ok] at hrun
    obtain ⟨-, t, rfl, hrun⟩ := hrun
    rw [ih hrun]
    by_cases hq : q = g.path
    · subst hq
      simp
    · simp only [map_cons, mem_cons, hq, false_or]
      rw [AList.lookup_erase_ne hq]

/-- In the data directory, a path is a base offset. -/
theorem mem_paths {gs : List Segment} (hdir : ∀ g ∈ gs, g.dir = .data) (b : Nat) :
    (⟨.data, b⟩ : Path) ∈ gs.map (·.path) ↔ b ∈ gs.map (·.baseOffset) := by
  simp only [mem_map]
  constructor
  · rintro ⟨g, hg, hp⟩
    exact ⟨g, hg, congrArg Path.base hp⟩
  · rintro ⟨g, hg, rfl⟩
    exact ⟨g, hg, Segment.path_eq_data (hdir g hg)⟩

/-- After the front files are deleted, the existing ones are those of the remaining segments. -/
theorem files_drop (hi : LogInv P s start rs) {h' : Host} {k : Nat}
    (hrun : deleteAll (s.log.segments.take k) s.host = .ok u h') (base : Nat) :
    (h'.logs.lookup ⟨.data, base⟩).isSome = true ↔
      base ∈ (s.log.segments.drop k).map (·.baseOffset) := by
  have hpair := hi.chain.bases.1
  have hparts := take_append_drop k s.log.segments
  rw [deleteAll_ok hrun]
  have hmem := mem_paths (fun g hg => hi.chain.dir g (mem_of_mem_take (i := k) hg)) base
  rw [← hparts, map_append, pairwise_append] at hpair
  have hall := hi.files base
  rw [← hparts, map_append, mem_append] at hall
  by_cases hdel : base ∈ (s.log.segments.take k).map (·.baseOffset)
  · rw [if_pos (hmem.mpr hdel)]
    simp only [Option.isSome_none, Bool.false_eq_true, false_iff]
    intro hrest
    exact absurd (hpair.2.2 base hdel base hrest) (lt_irrefl _)
  · rw [if_neg (fun hc => hdel (hmem.mp hc)), hall]
    exact ⟨fun hor => hor.resolve_left hdel, .inr⟩

theorem deleteRecords_inv {b o : Nat} (hi : LogInv P s start rs)
    (hrun : deleteRecords P b s = .ok o s') :
    ∃ j, j ≤ rs.length ∧ LogInv P s' (start + j) (rs.drop j) ∧ (∀ r ∈ rs.take j, r.offset < b) ∧
      o = start + j ∧ s'.log.config = s.log.config ∧ (s'.log.segments =
          s.log.segments.drop (s.log.segments.takeWhile (·.nextOffset ≤ b)).length ∨
        s'.log.segments.length = 1) := by
  simp only [deleteRecords, get_bind_ok] at hrun
  generalize hk : (s.log.segments.takeWhile (·.nextOffset ≤ b)).length = k at hrun ⊢
  split at hrun
  · rename_i hzero
    obtain ⟨rfl, rfl⟩ := pure_ok.mp hrun
    refine ⟨0, Nat.zero_le _, by simpa using hi, by simp, ?_, rfl, .inl ?_⟩
    · exact hi.chain.head_base
    · simp [hzero]
  simp only [modifyLog, bind_ok, get_ok, modify_ok, pure_ok] at hrun
  obtain ⟨_, s1, rfl, _, s2, hdel, _, s3, hnew, _, _, ⟨rfl, rfl⟩, rfl, rfl⟩ := hrun
  obtain ⟨h2, hdel', rfl⟩ := liftHost_ok hdel
  have hfiles := files_drop hi hdel'
  have hsame : ∀ g ∈ s.log.segments.drop k, h2.logs.lookup g.path = s.host.logs.lookup g.path := by
    intro g hg
    have hpair := hi.chain.bases.1
    rw [deleteAll_ok hdel', if_neg]
    have hgdir := Segment.path_eq_data (hi.chain.dir g (mem_of_mem_drop hg))
    rw [hgdir, mem_paths fun g hg => hi.chain.dir g (mem_of_mem_take hg)]
    intro hmem
    rw [← take_append_drop k s.log.segments, map_append, pairwise_append] at hpair
    exact absurd (hpair.2.2 _ hmem _ (mem_map_of_mem hg)) (lt_irrefl _)
  have hcases := hi.chain.drop_before b
  rw [hk] at hcases
  obtain ⟨hnil, hall⟩ | ⟨j, hj, hchain, hpre⟩ := hcases
  · -- Everything is gone: a new empty segment starts at the log end.
    obtain ⟨-, hnew⟩ | ⟨hno, -⟩ := when_ok.mp hnew
    swap
    · simp [hnil] at hno
    simp only [bind_ok, modify_ok] at hnew
    obtain ⟨now, t1, hnow, seg, t2, hcreate, rfl⟩ := hnew
    obtain ⟨h3, htick, rfl⟩ := liftHost_ok hnow
    obtain ⟨h4, hmake, rfl⟩ := liftHost_ok hcreate
    obtain ⟨-, -, hadded, hnbase, -, hchain⟩ := create_inv hi.mmap (next_le hi) hmake
    refine ⟨rs.length, le_refl _, ⟨?_, ?_, fun base => ?_, hi.mmap⟩,
      fun r hr => hall r (mem_of_mem_take hr), ?_, rfl, .inr ?_⟩
    · simp only [hnil, nil_append, drop_length]
      rw [← hi.next]
      exact hchain
    · simp only [drop_length, length_nil, Nat.add_zero]
      exact hi.next
    · rw [hadded, nowMs_ok htick, hfiles, hnil]
      simp [hnbase]
    · simp only [logStartOffset, hnil, nil_append, head?_cons, Option.map_some, Option.getD_some]
      rw [hnbase, hi.next]
    · simp [hnil]
  · obtain ⟨hno, -⟩ | ⟨-, rfl⟩ := when_ok.mp hnew
    · have := hchain.ne_nil
      simp at hno
      simp [hno] at this
    have hchain' := hchain.congr_host hsame
    refine ⟨j, hj, ⟨hchain', ?_, hfiles, hi.mmap⟩, hpre, hchain'.head_base, rfl, .inl rfl⟩
    simp only [length_drop]
    rw [hi.next]
    omega

/-! ## Retention -/

/-- Some prefix of the records is gone, and nothing else changed. -/
def Trimmed (P : Platform) (s s' : LogState) (start : Nat) (rs : List Record) : Prop :=
  ∃ j, j ≤ rs.length ∧ LogInv P s' (start + j) (rs.drop j) ∧ s'.log.config = s.log.config

theorem Trimmed.refl (hi : LogInv P s start rs) : Trimmed P s s start rs :=
  ⟨0, Nat.zero_le _, by simpa using hi, rfl⟩

theorem Trimmed.trans {s1 s2 s3 : LogState} (h : Trimmed P s1 s2 start rs)
    (h' : ∀ start' rs', LogInv P s2 start' rs' → Trimmed P s2 s3 start' rs') :
    Trimmed P s1 s3 start rs := by
  obtain ⟨j, hj, hi, hc⟩ := h
  obtain ⟨k, hk, hi', hc'⟩ := h' _ _ hi
  rw [length_drop] at hk
  refine ⟨j + k, by omega, ?_, hc'.trans hc⟩
  rw [← Nat.add_assoc, ← drop_drop]
  exact hi'

theorem deleteRecords_trimmed {b o : Nat} (hi : LogInv P s start rs)
    (hrun : deleteRecords P b s = .ok o s') : Trimmed P s s' start rs := by
  obtain ⟨j, hj, hi', -, -, hc, -⟩ := deleteRecords_inv hi hrun
  exact ⟨j, hj, hi', hc⟩

theorem ifSome_ok {value : Option Nat} {body : Nat → LogM Unit}
    (hrun : ifSome value body s = .ok u s') : (∃ n, body n s = .ok u s') ∨ s = s' := by
  cases value with
  | some n => exact .inl ⟨n, hrun⟩
  | none => exact .inr (pure_ok.mp hrun).2

theorem retainByTime_trimmed {ms : Nat} (hi : LogInv P s start rs)
    (hrun : retainByTime P ms s = .ok u s') : Trimmed P s s' start rs := by
  simp only [retainByTime, bind_ok, get_ok] at hrun
  obtain ⟨now, s1, hnow, _, _, ⟨rfl, rfl⟩, hrun⟩ := hrun
  obtain ⟨h', htick, rfl⟩ := liftHost_ok hnow
  have hi1 := congr_logs hi (nowMs_ok htick)
  have hstart : Trimmed P s { s with host := h' } start rs := ⟨0, Nat.zero_le _, by simpa using hi1, rfl⟩
  obtain ⟨before, hrun⟩ | rfl := ifSome_ok hrun
  · obtain ⟨-, hrun⟩ | ⟨-, rfl⟩ := when_ok.mp hrun
    · obtain ⟨o, s2, hdel, hret⟩ := bind_ok.mp hrun
      obtain ⟨-, rfl⟩ := pure_ok.mp hret
      exact hstart.trans fun _ _ hi' => deleteRecords_trimmed hi' hdel
    · exact hstart
  · exact hstart

/-- The size loop trims the log, and its fuel lets it run until it would stop by itself. -/
theorem retainBySize_trimmed {limit fuel : Nat} (hi : LogInv P s start rs)
    (hfuel : s.log.segments.length ≤ fuel) (hrun : retainBySize P limit fuel s = .ok u s') :
    Trimmed P s s' start rs ∧ (s'.log.totalSize ≤ limit ∨ s'.log.segments.length ≤ 1) := by
  induction fuel generalizing s start rs with
  | zero =>
    have := hi.chain.ne_nil
    exact absurd (eq_nil_of_length_eq_zero (Nat.le_zero.mp hfuel)) this
  | succ fuel ih =>
    simp only [retainBySize, get_bind_ok] at hrun
    split at hrun
    · rename_i hfits
      obtain ⟨-, rfl⟩ := pure_ok.mp hrun
      exact ⟨.refl hi, .inl hfits⟩
    split at hrun
    next hsecond =>
      obtain ⟨-, rfl⟩ := pure_ok.mp hrun
      exact ⟨.refl hi, .inr (getElem?_eq_none_iff.mp hsecond)⟩
    next g hsecond =>
      obtain ⟨o, s1, hdel, hrun⟩ := bind_ok.mp hrun
      have htrim := deleteRecords_trimmed hi hdel
      obtain ⟨j, hj, hi1, -, -, -, hsegs⟩ := deleteRecords_inv hi hdel
      -- The first segment ends where the second begins, so the round removes it.
      have hshrink : s1.log.segments.length ≤ fuel := by
        have hchain := hi.chain
        generalize hgs : s.log.segments = gs at hchain hsegs hsecond hfuel
        cases hchain with
        | last => simp at hsecond
        | @cons a gs rs' ts hdir hs hne hinv hrest =>
          have hbase : a.nextOffset = g.baseOffset := by
            have := hrest.head_base
            rw [getElem?_cons_succ, ← head?_eq_getElem?] at hsecond
            rw [hsecond] at this
            exact this.symm
          rcases hsegs with hsegs | hone
          · rw [hsegs, takeWhile_cons_of_pos (by simp [hbase]), length_cons,
              drop_succ_cons, length_drop]
            rw [length_cons] at hfuel
            omega
          · have := length_pos_iff.mpr hrest.ne_nil
            rw [length_cons] at hfuel
            omega
      obtain ⟨-, hstop⟩ := ih hi1 hshrink hrun
      refine ⟨htrim.trans fun start' rs' hi' => ?_, hstop⟩
      exact (ih hi' hshrink hrun).1

/-- Retention without compaction trims the log. -/
theorem applyRetention_trimmed (hi : LogInv P s start rs) (hcompact : s.log.config.compact = false)
    (hrun : applyRetention P s = .ok u s') : Trimmed P s s' start rs := by
  simp only [applyRetention, bind_ok, get_ok] at hrun
  obtain ⟨_, _, ⟨rfl, rfl⟩, _, s1, htime, _, _, ⟨rfl, rfl⟩, _, s2, hsize, hcomp⟩ := hrun
  obtain ⟨hno, -⟩ | ⟨-, rfl⟩ := when_ok.mp hcomp
  · simp [hcompact] at hno
  have h1 : Trimmed P s s1 start rs := by
    obtain ⟨ms, htime⟩ | rfl := ifSome_ok htime
    · exact retainByTime_trimmed hi htime
    · exact .refl hi
  refine h1.trans fun start' rs' hi' => ?_
  obtain ⟨limit, hsize⟩ | rfl := ifSome_ok hsize
  · exact (retainBySize_trimmed hi' (le_refl _) hsize).1
  · exact .refl hi'

end PartitionLog

end Volant.Storage
