-- SUMMARY: Where the logical bytes of a segment are on each write path, and that writes, flushes and seals keep track.
import Volant.Storage.Scan

/-!
# The bytes of a segment

Depending on its write path, the logical contents of a segment are in the log
file, in the file and a writer's buffer, or in the file and the pending bytes
of direct I/O. `SegState.Backs` says where; the lemmas say that each write,
flush and seal changes the contents as it should and nothing else.
-/

namespace Volant.Storage

open List Exec

/-! ## File updates -/

namespace Host

variable {file buf : Bytes} {o : Nat}

theorem writeAt_length (file buf : Bytes) : writeAt file file.length buf = file ++ buf := by
  simp [writeAt]

theorem writeAt_take (h : o ≤ file.length) :
    (writeAt file o buf).take (o + buf.length) = file.take o ++ buf := by
  have hz : o - file.length = 0 := by omega
  have hlen : (file.take o ++ buf).length = o + buf.length := by simp [h]
  rw [writeAt, hz, replicate_zero, append_nil, take_left' hlen]

theorem writeAt_drop (h : o ≤ file.length) :
    (writeAt file o buf).drop (o + buf.length) = file.drop (o + buf.length) := by
  have hz : o - file.length = 0 := by omega
  have hlen : (file.take o ++ buf).length = o + buf.length := by simp [h]
  rw [writeAt, hz, replicate_zero, append_nil, drop_left' hlen]

theorem length_writeAt (h : o ≤ file.length) : o + buf.length ≤ (writeAt file o buf).length := by
  have := congrArg length (@writeAt_take file buf o h)
  simp only [length_take, length_append] at this
  omega

theorem setLen_of_le {n : Nat} (h : n ≤ file.length) : setLen file n = file.take n := by
  have hz : n - file.length = 0 := by omega
  simp [setLen, hz]

theorem bytesOf_of_lookup {h : Host} {p : Path} (hl : h.logs.lookup p = some file) :
    h.bytesOf p = file := by
  simp [bytesOf, hl]

end Host

theorem alignUp_mul (n : Nat) {a : Nat} (ha : 0 < a) :
    alignUp n a / a * a = alignUp n a ∧ n ≤ alignUp n a := by
  unfold alignUp
  rw [if_neg (by omega)]
  refine ⟨by rw [Nat.mul_div_cancel _ ha], ?_⟩
  have hdiv := Nat.div_add_mod (n + a - 1) a
  have hmod := Nat.mod_lt (n + a - 1) ha
  have hcomm := Nat.mul_comm a ((n + a - 1) / a)
  omega

/-! ## Where a segment's bytes are -/

/-- The segment `g`, whose log file holds `file`, stands for `bytes`. -/
inductive Backed (file : Bytes) (g : Segment) (bytes : Bytes) : Prop where
  | sealed (hs : g.sealed = true) (hfile : file = bytes)
      (hmmap : g.mmap = some bytes ∨ g.mmap = none ∧ g.directIo = false)
  | buffered (w : BufWriter) (hs : g.sealed = false) (hd : g.directIo = false)
      (hw : g.logWriter = some w) (hm : g.mmap = none) (hcursor : w.cursor = file.length)
      (hfile : file ++ w.buf = bytes)
  | raw (hs : g.sealed = false) (hd : g.directIo = false) (hw : g.logWriter = none)
      (hm : g.mmap = none) (hfile : file = bytes)
  /-- The bytes are an aligned part of the file and the pending rest. Behind the aligned part the
  file may hold an earlier, padded copy of the beginning of that rest. -/
  | direct (hs : g.sealed = false) (hd : g.directIo = true) (hf : g.logFile = true)
      (hw : g.logWriter = none) (hm : g.mmap = none) (hphys : g.physicalSize ≤ file.length)
      (hbytes : file.take g.physicalSize ++ g.pending = bytes)
      (hrest : ∃ j z, file.drop g.physicalSize = g.pending.take j ++ List.replicate z 0)

/-- Where the bytes of a direct segment are until it is sealed. -/
theorem Backed.of_direct {file bytes : Bytes} {g : Segment} (h : Backed file g bytes)
    (hd : g.directIo = true) (hs : g.sealed = false) :
    g.logFile = true ∧ g.logWriter = none ∧ g.mmap = none ∧ g.physicalSize ≤ file.length ∧
      file.take g.physicalSize ++ g.pending = bytes ∧
      bytes.length = g.physicalSize + g.pending.length ∧
      ∃ j z, file.drop g.physicalSize = g.pending.take j ++ replicate z 0 := by
  cases h with
  | sealed hs' => simp [hs] at hs'
  | buffered _ _ hd' => simp [hd] at hd'
  | raw _ hd' => simp [hd] at hd'
  | direct _ _ hf hw hm hphys hbytes hrest =>
    refine ⟨hf, hw, hm, hphys, hbytes, ?_, hrest⟩
    rw [← hbytes]
    simp [hphys]

structure SegState.Backs (s : SegState) (bytes : Bytes) : Prop where
  file : ∃ file, s.host.logs.lookup s.seg.path = some file ∧ Backed file s.seg bytes
  size : s.seg.size = bytes.length

/-- Only the segment's own log file and its write buffers change. -/
structure WriteFrame (s s' : SegState) : Prop where
  others : ∀ q, q ≠ s.seg.path → s'.host.logs.lookup q = s.host.logs.lookup q
  seg : ∃ w ps pd sz, s'.seg = { s.seg with
    logWriter := w, physicalSize := ps, pending := pd, size := sz }

namespace WriteFrame

variable {s : SegState}

theorem refl (s : SegState) : WriteFrame s s where
  others _ _ := rfl
  seg := ⟨_, _, _, _, rfl⟩

theorem path {s' : SegState} (h : WriteFrame s s') : s'.seg.path = s.seg.path := by
  obtain ⟨w, ps, pd, sz, hseg⟩ := h.seg
  rw [hseg]
  rfl

theorem trans {t u : SegState} (h : WriteFrame s t) (h' : WriteFrame t u) : WriteFrame s u where
  others q hq := by rw [h'.others q (by rwa [h.path]), h.others q hq]
  seg := by
    obtain ⟨w, ps, pd, sz, hseg⟩ := h.seg
    obtain ⟨w', ps', pd', sz', hseg'⟩ := h'.seg
    exact ⟨w', ps', pd', sz', by rw [hseg', hseg]⟩

theorem sealed {s' : SegState} (h : WriteFrame s s') : s'.seg.sealed = s.seg.sealed := by
  obtain ⟨w, ps, pd, sz, hseg⟩ := h.seg
  rw [hseg]

/-- A rewrite of the segment's file together with an update of its buffers. -/
theorem write (h : Host) (g : Segment) (file : Bytes) (w : Option BufWriter) (ps : Nat)
    (pd : Bytes) (sz : Nat) : WriteFrame ⟨h, g⟩ ⟨h.putLog g.path file,
      { g with logWriter := w, physicalSize := ps, pending := pd, size := sz }⟩ where
  others _ hq := Host.putLog_lookup_of_ne hq h file
  seg := ⟨w, ps, pd, sz, rfl⟩

/-- An update of the buffers alone. -/
theorem buffers (h : Host) (g : Segment) (w : Option BufWriter) (ps : Nat) (pd : Bytes) (sz : Nat) :
    WriteFrame ⟨h, g⟩
      ⟨h, { g with logWriter := w, physicalSize := ps, pending := pd, size := sz }⟩ where
  others _ _ := rfl
  seg := ⟨w, ps, pd, sz, rfl⟩

end WriteFrame

namespace Segment

variable {s s' : SegState} {bytes : Bytes} {u : Unit}

/-! ## The direct write path -/

/-- Inversion of `writeAligned`: nothing is written, or one chunk of whole blocks is. -/
theorem writeAligned_ok (h : writeAligned s = .ok u s') :
    let n := s.seg.pending.length / DIRECT_IO_ALIGN * DIRECT_IO_ALIGN
    n = 0 ∧ s' = s ∨
    s.seg.physicalSize % DIRECT_IO_ALIGN = 0 ∧
      s' = ⟨s.host.putLog s.seg.path
          (Host.writeAt (s.host.bytesOf s.seg.path) s.seg.physicalSize (s.seg.pending.take n)),
        { s.seg with
          physicalSize := s.seg.physicalSize + n
          pending := s.seg.pending.drop n }⟩ := by
  simp only [writeAligned, get_bind_ok] at h
  split at h
  · rename_i hn
    obtain ⟨-, rfl⟩ := pure_ok.mp h
    exact .inl ⟨hn, rfl⟩
  · split at h
    · exact absurd h throw_ok
    · rename_i haligned
      obtain ⟨-, t, rfl, rfl⟩ := h
      exact .inr ⟨by simpa using haligned, rfl⟩

/-- Moving whole blocks from `pending` to the file changes nothing about the contents. -/
theorem writeAligned_backs (hb : s.Backs bytes) (hd : s.seg.directIo = true)
    (hs : s.seg.sealed = false) (h : writeAligned s = .ok u s') :
    s'.Backs bytes ∧ WriteFrame s s' := by
  obtain ⟨host, g⟩ := s
  obtain ⟨-, rfl⟩ | ⟨-, rfl⟩ := writeAligned_ok h
  · exact ⟨hb, .refl _⟩
  obtain ⟨⟨file, hfile, hback⟩, hsize⟩ := hb
  rw [Host.bytesOf_of_lookup hfile]
  generalize hn : g.pending.length / DIRECT_IO_ALIGN * DIRECT_IO_ALIGN = n
  have hle : n ≤ g.pending.length := by
    rw [← hn]
    exact Nat.div_mul_le_self _ _
  have hlen : (g.pending.take n).length = n := by simp [hle]
  refine ⟨⟨⟨_, Host.putLog_lookup_self _ _ _, ?_⟩, hsize⟩,
    WriteFrame.write host g _ g.logWriter _ _ g.size⟩
  obtain ⟨hf, hw, hm, hphys, hbytes, -, j, z, hj⟩ := hback.of_direct hd hs
  have htake := @Host.writeAt_take file (g.pending.take n) _ hphys
  have hdrop := @Host.writeAt_drop file (g.pending.take n) _ hphys
  have hlong := @Host.length_writeAt file (g.pending.take n) _ hphys
  rw [hlen] at htake hdrop hlong
  refine .direct hs hd hf hw hm hlong ?_ ?_
  · simp [htake, hbytes]
  · simp only [hdrop, ← drop_drop, hj, drop_append, drop_take, drop_replicate]
    exact ⟨_, _, rfl⟩

theorem flushPendingAligned_false_backs (hb : s.Backs bytes) (hs : s.seg.sealed = false)
    (h : flushPendingAligned false s = .ok u s') : s'.Backs bytes ∧ WriteFrame s s' := by
  simp only [flushPendingAligned, get_bind_ok] at h
  split at h
  · obtain ⟨-, rfl⟩ := pure_ok.mp h
    exact ⟨hb, .refl _⟩
  · rename_i hd
    rw [check_ok, check_ok] at h
    exact writeAligned_backs hb (by simpa using hd) hs (by simpa using h.2.2)

/-- The state between the two halves of a direct flush: everything is in the file, with padding
behind it. -/
structure Padded (s : SegState) (bytes : Bytes) : Prop where
  file : ∃ z, s.host.logs.lookup s.seg.path = some (bytes ++ List.replicate z 0) ∧
    s.seg.physicalSize ≤ bytes.length + z
  size : s.seg.size = bytes.length
  covers : bytes.length ≤ s.seg.physicalSize
  pending : s.seg.pending = []
  unsealed : s.seg.sealed = false
  directIo : s.seg.directIo = true
  logFile : s.seg.logFile = true
  logWriter : s.seg.logWriter = none
  mmap : s.seg.mmap = none

private theorem length_padPending (g : Segment) :
    g.padPending.length = alignUp g.pending.length DIRECT_IO_ALIGN := by
  have := (alignUp_mul g.pending.length (show 0 < DIRECT_IO_ALIGN by decide)).2
  simp only [padPending, length_append, length_replicate]
  omega

theorem flushPendingAligned_true_padded (hb : s.Backs bytes) (hd : s.seg.directIo = true)
    (hs : s.seg.sealed = false) (h : flushPendingAligned true s = .ok u s') :
    Padded s' bytes ∧ WriteFrame s s' := by
  obtain ⟨host, g⟩ := s
  simp only at hd hs
  obtain ⟨⟨file, hfile, hback⟩, hsize⟩ := hb
  obtain ⟨hf, hw, hm, hphys, hbytes, hlen, j, z, hj⟩ := hback.of_direct hd hs
  simp only at hphys hbytes hlen hj hf hw hm hfile hsize
  simp only [flushPendingAligned, get_bind_ok] at h
  simp only [hd, hf, Bool.not_true, Bool.false_eq_true, if_false, if_true, check_ok] at h
  replace h := h.2
  split at h
  · -- Nothing pending: the aligned part is everything.
    rename_i hempty
    obtain ⟨-, rfl⟩ := pure_ok.mp h
    have hpend : g.pending = [] := by simpa using hempty
    have hall : file = bytes ++ replicate z 0 := by
      have hparts := take_append_drop g.physicalSize file
      rw [hj, hpend, take_nil, nil_append] at hparts
      rw [← hbytes, hpend, append_nil, hparts]
    rw [hpend, length_nil] at hlen
    refine ⟨⟨⟨z, by rw [← hall]; exact hfile, ?_⟩, hsize, hlen.le, hpend, hs, hd, hf, hw, hm⟩,
      .refl _⟩
    dsimp only
    omega
  · rename_i hne
    simp only [modifySeg, bind_ok, modify_ok] at h
    obtain ⟨-, t, rfl, h⟩ := h
    have hpadlen := length_padPending g
    have hup := alignUp_mul g.pending.length (show 0 < DIRECT_IO_ALIGN by decide)
    have hpos : 0 < g.pending.length := by
      rw [length_pos_iff]
      simpa using hne
    have hn : g.padPending.length / DIRECT_IO_ALIGN * DIRECT_IO_ALIGN = g.padPending.length := by
      rw [hpadlen, hup.1]
    obtain ⟨hzero, -⟩ | ⟨-, rfl⟩ := writeAligned_ok h
    · simp only [hn] at hzero
      omega
    · have hpath : path { g with pending := g.padPending } = g.path := rfl
      simp only [hn, take_length, drop_length, hpath, Host.bytesOf_of_lookup hfile]
      refine ⟨⟨?_, hsize, ?_, rfl, hs, hd, hf, hw, hm⟩,
        WriteFrame.write host g _ g.logWriter _ _ g.size⟩
      · -- Behind the padded block the file can only hold more padding.
        have hzeros : ∃ k, file.drop (g.physicalSize + g.padPending.length) =
            replicate k 0 := by
          refine ⟨z - (g.padPending.length - (g.pending.take j).length), ?_⟩
          have hshort : (g.pending.take j).length ≤ g.padPending.length := by
            rw [length_take]
            omega
          rw [← drop_drop, hj, drop_append, drop_eq_nil_of_le hshort, nil_append, drop_replicate]
        obtain ⟨k, hk⟩ := hzeros
        have hwrite : Host.writeAt file g.physicalSize g.padPending = bytes ++
            replicate (alignUp g.pending.length DIRECT_IO_ALIGN - g.pending.length + k)
              0 := by
          rw [← take_append_drop (g.physicalSize + g.padPending.length)
            (Host.writeAt file g.physicalSize g.padPending), Host.writeAt_take hphys,
            Host.writeAt_drop hphys, hk, ← hbytes, replicate_add]
          simp [padPending]
        refine ⟨_, (Host.putLog_lookup_self _ _ _).trans (congrArg some hwrite), ?_⟩
        simp only [hpadlen, hlen]
        omega
      · simp only [hpadlen, hlen]
        omega

/-- After a flush every pending byte is in the file as well. -/
def OnDisk (s : SegState) : Prop :=
  s.seg.directIo = true →
    s.seg.pending <+: (s.host.bytesOf s.seg.path).drop s.seg.physicalSize

theorem restoreTail_backs (hp : Padded s bytes) (h : restoreTail s = .ok u s') :
    s'.Backs bytes ∧ OnDisk s' ∧ WriteFrame s s' := by
  obtain ⟨host, g⟩ := s
  obtain ⟨⟨z, hfile, hphys⟩, hsize, hcov, hpend, hs, hd, hf, hw, hm⟩ := hp
  simp only at hfile hphys hsize hcov hpend hs hd hf hw hm
  simp only [restoreTail, get_bind_ok] at h
  generalize hfl : g.size / DIRECT_IO_ALIGN * DIRECT_IO_ALIGN = floor at h
  have hfloor : floor ≤ bytes.length := by
    rw [← hsize, ← hfl]
    exact Nat.div_mul_le_self _ _
  -- Whatever the branch, the aligned part ends at `floor` and the rest of the bytes is pending.
  have hmain : ∀ tail, tail = bytes.drop floor → SegState.Backs
      ⟨host, { g with pending := tail, physicalSize := floor }⟩ bytes ∧
      OnDisk ⟨host, { g with pending := tail, physicalSize := floor }⟩ := by
    rintro tail rfl
    have hdrop : (bytes ++ replicate z (0 : UInt8)).drop floor =
        bytes.drop floor ++ replicate z 0 := drop_append_of_le_length hfloor
    refine ⟨⟨⟨_, hfile, .direct hs hd hf hw hm ?_ ?_ ?_⟩, hsize⟩, ?_⟩
    · simp only [length_append, length_replicate]
      omega
    · simp [take_append_of_le_length hfloor]
    · exact ⟨(bytes.drop floor).length, z, by simp [hdrop]⟩
    · intro _
      have hbytes : host.bytesOf (path
          { g with pending := bytes.drop floor, physicalSize := floor }) =
          bytes ++ replicate z 0 := Host.bytesOf_of_lookup hfile
      simp only [hbytes, hdrop]
      exact prefix_append _ _
  split at h
  · split at h
    · simp only [Host.bytesOf_of_lookup hfile] at h
      split at h
      · exact absurd h throw_ok
      · obtain rfl := modify_ok.mp h
        have htail : ((bytes ++ replicate z (0 : UInt8)).drop floor).take (g.size - floor) =
            bytes.drop floor := by
          rw [drop_append_of_le_length hfloor]
          apply take_left'
          simp only [length_drop]
          omega
        obtain ⟨hb, ho⟩ := hmain _ htail
        exact ⟨hb, ho, .buffers host g g.logWriter _ _ g.size⟩
    · obtain rfl := modify_ok.mp h
      obtain ⟨hb, ho⟩ := hmain [] (by rw [drop_eq_nil_of_le]; omega)
      exact ⟨hb, ho, .buffers host g g.logWriter _ _ g.size⟩
  · obtain ⟨-, rfl⟩ := pure_ok.mp h
    have hphysical : g.physicalSize = floor := by omega
    have hsame : { g with pending := [], physicalSize := floor } = g := by
      rw [← hpend, ← hphysical]
    obtain ⟨hb, ho⟩ := hmain [] (by rw [drop_eq_nil_of_le]; omega)
    rw [hsame] at hb ho
    exact ⟨hb, ho, .refl _⟩

/-! ## Writes, flush and seal on bytes -/

/-- The buffer of the plain writer is empty between two operations. -/
def Settled (g : Segment) : Prop := ∀ w, g.logWriter = some w → w.buf = []

section

variable (hb : s.Backs bytes) (hs : s.seg.sealed = false)

include hb hs

theorem flushWriter_backs (h : flushWriter s = .ok u s') :
    s'.Backs bytes ∧ Settled s'.seg ∧ WriteFrame s s' ∧ (s.seg.directIo = true → s' = s) := by
  obtain ⟨host, g⟩ := s
  simp only [flushWriter, get_bind_ok] at h
  obtain ⟨⟨file, hfile, hback⟩, hsize⟩ := hb
  simp only at h hs hfile hback hsize
  cases hw : g.logWriter with
  | some w =>
    rw [hw] at h
    obtain ⟨-, t, rfl, rfl⟩ := h
    simp only [Host.bytesOf_of_lookup hfile]
    cases hback with
    | sealed hs' => simp [hs] at hs'
    | raw _ _ hw' => simp [hw] at hw'
    | direct _ _ _ hw' => simp [hw] at hw'
    | buffered w' _ hd hw' hm hcursor hbytes =>
      obtain rfl : w' = w := by simpa [hw] using hw'.symm
      refine ⟨⟨⟨_, Host.putLog_lookup_self _ _ _, ?_⟩, hsize⟩, ?_,
        WriteFrame.write host g _ _ g.physicalSize g.pending g.size, by simp [hd]⟩
      · refine .buffered _ hs hd rfl hm ?_ ?_
        · rw [hcursor, Host.writeAt_length, length_append]
        · rw [hcursor, Host.writeAt_length, append_nil, hbytes]
      · rintro _ ⟨⟩
        rfl
  | none =>
    rw [hw] at h
    obtain ⟨-, rfl⟩ := pure_ok.mp h
    refine ⟨⟨⟨file, hfile, hback⟩, hsize⟩, ?_, .refl _, fun _ => rfl⟩
    intro w hw'
    simp [hw] at hw'

theorem writeEncoded_backs {buf : Bytes} (h : writeEncoded buf s = .ok u s') : s'.Backs (bytes ++ buf) ∧ WriteFrame s s' := by
  obtain ⟨host, g⟩ := s
  simp only [writeEncoded, get_bind_ok] at h
  obtain ⟨⟨file, hfile, hback⟩, hsize⟩ := hb
  simp only at h hs hfile hback hsize
  have hlen : g.size + buf.length = (bytes ++ buf).length := by simp [hsize]
  cases hback with
  | sealed hs' => simp [hs] at hs'
  | buffered w _ hd hw hm hcursor hbytes =>
    simp only [hd, Bool.false_eq_true, if_false, hw] at h
    obtain rfl := modify_ok.mp h
    refine ⟨⟨⟨file, hfile, .buffered _ hs hd rfl hm hcursor ?_⟩, hlen⟩,
      WriteFrame.buffers host g _ _ g.pending _⟩
    rw [← hbytes, append_assoc]
  | raw _ hd hw hm hbytes =>
    simp only [hd, Bool.false_eq_true, if_false, hw, check_ok, modifyFile, modifySeg, bind_ok,
      modify_ok] at h
    obtain ⟨-, -, -, t, rfl, rfl⟩ := h
    simp only [Host.bytesOf_of_lookup hfile]
    refine ⟨⟨⟨_, Host.putLog_lookup_self _ _ _, .raw hs hd hw hm ?_⟩, hlen⟩,
      WriteFrame.write host g _ g.logWriter _ g.pending _⟩
    rw [hsize, ← hbytes, Host.writeAt_length]
  | direct _ hd hf hw hm hphys hbytes hrest =>
    rw [if_pos hd] at h
    simp only [modifySeg, bind_ok, modify_ok] at h
    obtain ⟨-, t, rfl, h⟩ := h
    have hmid : SegState.Backs
        ⟨host, { g with pending := g.pending ++ buf, size := g.size + buf.length }⟩
        (bytes ++ buf) := by
      refine ⟨⟨file, hfile, .direct hs hd hf hw hm hphys ?_ ?_⟩, hlen⟩
      · rw [← hbytes, append_assoc]
      · obtain ⟨j, z, hj⟩ := hrest
        refine ⟨min j g.pending.length, z, ?_⟩
        rw [hj, take_append_of_le_length (Nat.min_le_right _ _), ← take_take, take_length]
    obtain ⟨hback', hframe⟩ := flushPendingAligned_false_backs hmid hs h
    exact ⟨hback', (WriteFrame.buffers host g g.logWriter g.physicalSize _ _).trans hframe⟩

theorem flush_backs (h : flush s = .ok u s') :
    s'.Backs bytes ∧ Settled s'.seg ∧ OnDisk s' ∧ WriteFrame s s' := by
  simp only [flush, get_bind_ok] at h
  split at h
  · rename_i hd
    obtain ⟨_, t, hflush, hrestore⟩ := bind_ok.mp h
    obtain ⟨hpad, hframe⟩ := flushPendingAligned_true_padded hb hd hs hflush
    obtain ⟨hback, hdisk, hframe'⟩ := restoreTail_backs hpad hrestore
    refine ⟨hback, ?_, hdisk, hframe.trans hframe'⟩
    -- A direct segment has no plain writer.
    obtain ⟨file, -, hb'⟩ := hback.file
    have hd' : s'.seg.directIo = true := by
      obtain ⟨_, _, _, _, hseg⟩ := (hframe.trans hframe').seg
      rw [hseg]
      exact hd
    have hs' := (hframe.trans hframe').sealed.trans hs
    intro w hw
    simp [(hb'.of_direct hd' hs').2.1] at hw
  · rename_i hd
    obtain ⟨hback, hset', hframe, -⟩ := flushWriter_backs hb hs h
    refine ⟨hback, hset', ?_, hframe⟩
    intro hd'
    obtain ⟨_, _, _, _, hseg⟩ := hframe.seg
    rw [hseg] at hd'
    exact absurd hd' hd

end

/-- Sealing only changes how the segment is accessed. -/
structure SealFrame (s s' : SegState) : Prop where
  others : ∀ q, q ≠ s.seg.path → s'.host.logs.lookup q = s.host.logs.lookup q
  seg : ∃ w f i m b ps pd sz, s'.seg = { s.seg with
    logWriter := w, logFile := f, indexWriter := i, mmap := m, backend := b, sealed := true
    physicalSize := ps, pending := pd, size := sz }

theorem sealDirect_file (hb : s.Backs bytes) (hd : s.seg.directIo = true)
    (hs : s.seg.sealed = false) (h : sealDirect s = .ok u s') :
    s'.host.logs.lookup s'.seg.path = some bytes ∧ WriteFrame s s' ∧ s'.seg.size = s.seg.size := by
  obtain ⟨host, g⟩ := s
  obtain ⟨⟨file, hfile, hback⟩, hsize⟩ := hb
  simp only at hd hs hfile hback hsize
  obtain ⟨hf, hw, hm, hphys, hbytes, hlen, -⟩ := hback.of_direct hd hs
  obtain ⟨_, t, hpad, hcut⟩ := bind_ok.mp (get_bind_ok.mp h)
  obtain ⟨-, hcut⟩ | ⟨hno, -⟩ := when_ok.mp hcut
  swap
  · simp [hf] at hno
  obtain rfl := modify_ok.mp hcut
  obtain ⟨-, hpad⟩ | ⟨hempty, rfl⟩ := when_ok.mp hpad
  · obtain ⟨-, t', rfl, rfl⟩ := hpad
    have hlook : (host.putLog g.path
        (Host.writeAt file g.physicalSize g.padPending)).bytesOf g.path =
        Host.writeAt file g.physicalSize g.padPending :=
      Host.bytesOf_of_lookup (Host.putLog_lookup_self _ _ _)
    have hpadlen := length_padPending g
    have hup := (alignUp_mul g.pending.length (show 0 < DIRECT_IO_ALIGN by decide)).2
    have hlong := @Host.length_writeAt file g.padPending _ hphys
    have hcut : Host.setLen (Host.writeAt file g.physicalSize g.padPending) g.size = bytes := by
      rw [Host.setLen_of_le (by omega), hsize, hlen]
      have htake := @Host.writeAt_take file g.padPending _ hphys
      have hmin : g.physicalSize + g.pending.length =
          min (g.physicalSize + g.pending.length) (g.physicalSize + g.padPending.length) := by
        omega
      rw [hmin, ← take_take, htake, ← hbytes, padPending, ← append_assoc]
      apply take_left'
      simp [hphys]
    refine ⟨?_, ?_, rfl⟩
    · rw [Host.putLog_lookup_self]
      simp only [Host.bytesOf_of_lookup hfile]
      exact congrArg some ((congrArg (Host.setLen · g.size) hlook).trans hcut)
    · exact (WriteFrame.write host g _ g.logWriter _ _ g.size).trans
        (.write _ _ _ g.logWriter _ _ g.size)
  · have hpend : g.pending = [] := by simpa using hempty
    refine ⟨?_, .write host g _ g.logWriter g.physicalSize g.pending g.size, rfl⟩
    rw [Host.putLog_lookup_self]
    simp only [Host.bytesOf_of_lookup hfile]
    rw [hpend] at hbytes hlen
    rw [Host.setLen_of_le (by simp at hlen; omega), hsize, hlen, length_nil, Nat.add_zero,
      ← hbytes, append_nil]

theorem seal_backs (hb : s.Backs bytes) (hmmap : s.seg.directIo = true → s.seg.useMmap = true)
    (hs : s.seg.sealed = false) (h : Segment.seal s = .ok u s') :
    s'.Backs bytes ∧ SealFrame s s' := by
  simp only [Segment.seal, get_bind_ok] at h
  rw [if_neg (by simp [hs])] at h
  obtain ⟨_, t, hflush, h⟩ := bind_ok.mp h
  obtain ⟨hback, hset', -, hframe⟩ := flush_backs hb hs hflush
  obtain ⟨_, v, hdir, hfin⟩ := bind_ok.mp (get_bind_ok.mp h)
  obtain rfl := modify_ok.mp hfin
  have hst := hframe.sealed.trans hs
  -- On either path the file now holds exactly the bytes.
  have hexact : v.host.logs.lookup v.seg.path = some bytes ∧ WriteFrame t v ∧
      v.seg.size = bytes.length := by
    obtain ⟨hd, hdir⟩ | ⟨hd, rfl⟩ := when_ok.mp hdir
    · obtain ⟨hf, hfr, hsz⟩ := sealDirect_file hback hd hst hdir
      exact ⟨hf, hfr, hsz.trans hback.size⟩
    · refine ⟨?_, .refl _, hback.size⟩
      obtain ⟨file, hfile, hb'⟩ := hback.file
      rw [hfile]
      cases hb' with
      | sealed _ hf => rw [hf]
      | buffered w _ _ hw _ _ hf => rw [← hf, hset' w hw, append_nil]
      | raw _ _ _ _ hf => rw [hf]
      | direct _ hd' => simp [hd] at hd'
  obtain ⟨hfile, hframe', hsize⟩ := hexact
  have hall := hframe.trans hframe'
  obtain ⟨w, ps, pd, sz, hseg⟩ := hall.seg
  refine ⟨⟨⟨bytes, hfile, .sealed rfl rfl ?_⟩, hsize⟩, ?_⟩
  · simp only [Host.bytesOf_of_lookup hfile]
    cases hm : v.seg.useMmap with
    | true => simp
    | false =>
      -- Without a mapping the segment was never direct.
      have hd : v.seg.directIo = false := by
        rw [hseg] at hm ⊢
        by_contra hne
        simp [hmmap (by simpa using hne)] at hm
      refine .inr ⟨?_, hd⟩
      rw [hseg]
      obtain ⟨file, -, hb'⟩ := hb.file
      cases hb' with
      | sealed hs' => simp [hs] at hs'
      | buffered _ _ _ _ hm' => exact hm'
      | raw _ _ _ hm' => exact hm'
      | direct _ _ _ _ hm' => exact hm'
  · refine ⟨hall.others, ?_⟩
    rw [hseg]
    exact ⟨_, _, _, _, _, _, _, _, rfl⟩

end Segment

end Volant.Storage
