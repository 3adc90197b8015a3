-- SUMMARY: The invariant of a partition log: a chain of segments that together hold one gap-free run of records.
import Volant.Storage.SegmentSpec

/-!
# Log invariant

`Chain P h start segs rs` ties a list of segments to one run of records: each
segment continues where the one before it ends, all but the last are sealed,
and no sealed segment is empty (so no two have the same name).
-/

namespace Volant.Storage

open List Exec

inductive Chain (P : Platform) (h : Host) : Nat → List Segment → List Record → Prop where
  | last {g : Segment} {rs : List Record} (hdir : g.dir = .data) (hs : g.sealed = false)
      (hinv : g.Inv P h rs) : Chain P h g.baseOffset [g] rs
  | cons {g : Segment} {gs : List Segment} {rs ts : List Record} (hdir : g.dir = .data)
      (hs : g.sealed = true) (hne : rs ≠ []) (hinv : g.Inv P h rs)
      (hrest : Chain P h g.nextOffset gs ts) : Chain P h g.baseOffset (g :: gs) (rs ++ ts)

namespace Chain

variable {P : Platform} {h h' : Host} {start : Nat} {gs : List Segment} {rs : List Record}

section

variable (hc : Chain P h start gs rs)

include hc

theorem ne_nil : gs ≠ [] := by
  cases hc with
  | last => simp
  | cons => simp

theorem gapFree : GapFree start rs := by
  induction hc with
  | last hdir hs hinv => exact hinv.gapFree
  | cons hdir hs hne hinv hrest ih =>
    rw [hinv.next] at ih
    exact GapFree.append_iff.mpr ⟨hinv.gapFree, ih⟩

/-- What every segment of a chain has on its own. -/
theorem forall_mem {Q : Segment → Prop}
    (hQ : ∀ g rs, g.dir = .data → g.Inv P h rs → Q g) : ∀ g ∈ gs, Q g := by
  induction hc with
  | last hdir hs hinv =>
    intro g hg
    rw [mem_singleton.mp hg]
    exact hQ _ _ hdir hinv
  | cons hdir hs hne hinv hrest ih =>
    intro g hg
    rcases mem_cons.mp hg with rfl | hg
    · exact hQ _ _ hdir hinv
    · exact ih g hg

theorem dir : ∀ g ∈ gs, g.dir = .data := hc.forall_mem fun _ _ hdir _ => hdir

theorem directBuild : ∀ g ∈ gs, g.directIo = true → P.directIo = true :=
  hc.forall_mem fun _ _ _ hinv => hinv.directBuild

theorem head_base : (gs.head?.map (·.baseOffset)).getD 0 = start := by
  cases hc with
  | last => rfl
  | cons => rfl

/-- Base offsets grow strictly along the chain. -/
theorem bases :
    (gs.map (·.baseOffset)).Pairwise (· < ·) ∧ ∀ b ∈ gs.map (·.baseOffset), start ≤ b := by
  induction hc with
  | last hdir hs hinv => simp
  | @cons g gs rs ts hdir hs hne hinv hrest ih =>
    obtain ⟨hpair, hmin⟩ := ih
    have hlt : g.baseOffset < g.nextOffset := by
      rw [hinv.next]
      have := length_pos_iff.mpr hne
      omega
    refine ⟨?_, ?_⟩
    · rw [map_cons, pairwise_cons]
      exact ⟨fun b hb => lt_of_lt_of_le hlt (hmin b hb), hpair⟩
    · intro b hb
      rcases mem_cons.mp hb with rfl | hb
      · exact le_refl _
      · exact le_trans hlt.le (hmin b hb)

/-- The last segment ends where the log ends. -/
theorem last_next : ∃ g, gs.getLast? = some g ∧ g.nextOffset = start + rs.length ∧
      g.nextOffset ≤ u64Max := by
  induction hc with
  | last hdir hs hinv => exact ⟨_, rfl, hinv.next, hinv.bound⟩
  | @cons g gs rs ts hdir hs hne hinv hrest ih =>
    obtain ⟨a, hlast, hnext, hbound⟩ := ih
    refine ⟨a, ?_, ?_, hbound⟩
    · rw [getLast?_cons, hlast]
      rfl
    · rw [hnext, hinv.next, length_append]
      omega

theorem congr_host
    (hl : ∀ g ∈ gs, h'.logs.lookup g.path = h.logs.lookup g.path) : Chain P h' start gs rs := by
  induction hc with
  | last hdir hs hinv => exact .last hdir hs (hinv.congr_host (hl _ mem_cons_self))
  | cons hdir hs hne hinv hrest ih =>
    exact .cons hdir hs hne (hinv.congr_host (hl _ mem_cons_self))
      (ih fun g hg => hl g (mem_cons_of_mem _ hg))

/-- Split off the active segment; any chain that begins where it does may take its place. -/
theorem split_last : ∃ front g done rest, gs = front ++ [g] ∧ rs = done ++ rest ∧ g.dir = .data ∧
      g.sealed = false ∧ g.Inv P h rest ∧ g.baseOffset = start + done.length ∧
      ∀ {h' : Host} {gs' : List Segment} {rest' : List Record},
        (∀ a ∈ front, h'.logs.lookup a.path = h.logs.lookup a.path) →
        Chain P h' g.baseOffset gs' rest' → Chain P h' start (front ++ gs') (done ++ rest') := by
  induction hc with
  | @last g rs hdir hs hinv =>
    exact ⟨[], g, [], rs, rfl, rfl, hdir, hs, hinv, rfl, fun _ hchain => hchain⟩
  | @cons g gs rs ts hdir hs hne hinv hrest ih =>
    obtain ⟨front, a, done, rest, rfl, rfl, hadir, has, hainv, habase, hput⟩ := ih
    refine ⟨g :: front, a, rs ++ done, rest, rfl, by simp, hadir, has, hainv, ?_, ?_⟩
    · rw [habase, hinv.next, length_append]
      omega
    · intro h' gs' rest' hl hchain
      rw [append_assoc]
      exact .cons hdir hs hne (hinv.congr_host (hl g mem_cons_self))
        (hput (fun b hb => hl b (mem_cons_of_mem _ hb)) hchain)

end

/-! ## Reading -/

/-- The loop over the segments collects the records from `start` on, up to the limit. -/
theorem readSegments_eq {from_ : Nat} (hc : Chain P h from_ gs rs) (n : Nat) (acc : Nat)
    (out : List Record) : PartitionLog.readSegments P h start n usizeMax gs acc out =
      .ok (out ++ (rs.filter (start ≤ ·.offset)).take (n - out.length)) := by
  -- One segment contributes its own records from `start` on.
  have hone : ∀ {g : Segment} {rs : List Record} (hinv : g.Inv P h rs) (m : Nat),
      Segment.readFrom P h g (max start g.baseOffset) m usizeMax =
        .ok ((rs.filter (start ≤ ·.offset)).take m) := by
    intro g rs hinv m
    rw [hinv.holds.readFrom]
    congr 2
    apply filter_congr
    intro r hr
    have := (hinv.gapFree.bounds hr).1
    simp only [decide_eq_decide]
    omega
  have hskip : ∀ {g : Segment} {rs : List Record} (hinv : g.Inv P h rs), g.nextOffset ≤ start →
      rs.filter (start ≤ ·.offset) = [] := by
    intro g rs hinv hle
    rw [filter_eq_nil_iff]
    intro r hr
    have := (hinv.gapFree.bounds hr).2
    rw [hinv.next] at hle
    simp only [decide_eq_true_eq]
    omega
  induction hc generalizing acc out with
  | last hdir hs hinv =>
    unfold PartitionLog.readSegments
    split
    · rename_i hle
      simp [PartitionLog.readSegments, hskip hinv hle]
    · split
      · have hzero : n - out.length = 0 := by omega
        simp [hzero]
      · simp only [ne_eq, not_true_eq_false, decide_false, Bool.false_and, Bool.false_eq_true,
          if_false, if_true, hone hinv]
        rfl
  | @cons g gs rs ts hdir hs hne hinv hrest ih =>
    unfold PartitionLog.readSegments
    split
    · rename_i hle
      rw [ih, filter_append, hskip hinv hle, nil_append]
    · split
      · have hzero : n - out.length = 0 := by omega
        simp [hzero]
      · simp only [ne_eq, not_true_eq_false, decide_false, Bool.false_and, Bool.false_eq_true,
          if_false, if_true, hone hinv]
        simp only [bind, Except.bind, ih]
        rw [filter_append, take_append, append_assoc, length_append, length_take]
        congr 4
        omega

end Chain

/-! ## The invariant of an open log -/

/-- The open log holds exactly the records `rs`, from offset `start` on. -/
structure LogInv (P : Platform) (s : LogState) (start : Nat) (rs : List Record) : Prop where
  chain : Chain P s.host start s.log.segments rs
  next : s.log.nextOffset = start + rs.length
  files : ∀ base, (s.host.logs.lookup ⟨.data, base⟩).isSome = true ↔
    base ∈ s.log.segments.map (·.baseOffset)
  /-- See `Segment.Inv.mmapIfDirect`. -/
  mmap : applyDirectIoFlag P s.log.config.directIo = true → s.log.config.useMmap = true

/-- The file of a segment that satisfies its invariant exists. -/
theorem Segment.Inv.lookup_isSome {P : Platform} {h : Host} {g : Segment} {rs : List Record}
    (hi : g.Inv P h rs) : (h.logs.lookup g.path).isSome = true := by
  obtain ⟨⟨file, hfile, -⟩, -⟩ := hi.backs
  exact Option.isSome_iff_exists.mpr ⟨file, hfile⟩

theorem Segment.path_eq_data {g : Segment} (hdir : g.dir = .data) :
    g.path = ⟨.data, g.baseOffset⟩ := by
  rw [Segment.path, hdir]

/-- So do the files of all segments of a chain. -/
theorem Chain.lookup_isSome {P : Platform} {h : Host} {start : Nat} {gs : List Segment}
    {rs : List Record} (hc : Chain P h start gs rs) {base : Nat}
    (hb : base ∈ gs.map (·.baseOffset)) : (h.logs.lookup ⟨.data, base⟩).isSome = true := by
  induction hc with
  | last hdir hs hinv =>
    obtain rfl : base = _ := by simpa using hb
    rw [← Segment.path_eq_data hdir]
    exact hinv.lookup_isSome
  | cons hdir hs hne hinv hrest ih =>
    rcases mem_cons.mp hb with rfl | hb
    · rw [← Segment.path_eq_data hdir]
      exact hinv.lookup_isSome
    · exact ih hb

namespace PartitionLog

variable {P : Platform} {s s' : LogState} {start : Nat} {rs : List Record} {α : Type}

theorem liftHost_ok {x : HostM α} {a : α} (hrun : liftHost x s = .ok a s') :
    ∃ h', x s.host = .ok a h' ∧ s' = { s with host := h' } := by
  unfold liftHost at hrun
  split at hrun
  · rename_i b h' hx
    cases hrun
    exact ⟨h', hx, rfl⟩
  · cases hrun

theorem onActive_ok {missing : String} {x : SegM α} {a : α}
    (hrun : onActive missing x s = .ok a s') :
    ∃ front g t, s.log.segments = front ++ [g] ∧ x ⟨s.host, g⟩ = .ok a t ∧
      s' = { host := t.host, log := { s.log with segments := front ++ [t.seg] } } := by
  unfold onActive at hrun
  split at hrun
  · cases hrun
  · rename_i g hg
    split at hrun
    · rename_i b t hx
      cases hrun
      obtain ⟨front, hfront⟩ := getLast?_eq_some_iff.mp hg
      refine ⟨front, g, t, hfront, hx, ?_⟩
      simp [hfront]
    · cases hrun

variable {h h' : Host}

theorem nowMs_ok {t : Int64} (hrun : nowMs h = .ok t h') : h'.logs = h.logs := by
  obtain ⟨_, _, ⟨rfl, rfl⟩, _, _, rfl, rfl, rfl⟩ := hrun
  rfl

/-- The segments of a log are mapped where they are direct if its configuration says so. -/
theorem segmentOptions_mmap {c : StorageConfig}
    (hmmap : applyDirectIoFlag P c.directIo = true → c.useMmap = true) (isSealed : Bool) :
    applyDirectIoFlag P (c.segmentOptions isSealed).directIo = true →
      (c.segmentOptions isSealed).useMmap = true := by
  cases isSealed with
  | true => simp [StorageConfig.segmentOptions, applyDirectIoFlag]
  | false => simpa [StorageConfig.segmentOptions] using hmmap

theorem next_le (hi : LogInv P s start rs) : s.log.nextOffset ≤ u64Max := by
  obtain ⟨g, -, hnext, hbound⟩ := hi.chain.last_next
  rw [hi.next, ← hnext]
  exact hbound

/-- A new segment of the data directory adds its own file to those that are there. -/
theorem create_inv {c : StorageConfig} {base : Nat} {now : Int64} {g : Segment}
    (hmmap : applyDirectIoFlag P c.directIo = true → c.useMmap = true) (hbase : base ≤ u64Max)
    (hrun : Segment.createWithOptions P .data base now (c.segmentOptions false) h = .ok g h') :
    h.logs.lookup ⟨.data, base⟩ = none ∧ (∀ p : Path, p ≠ ⟨.data, base⟩ →
        h'.logs.lookup p = h.logs.lookup p) ∧ (∀ b, (h'.logs.lookup ⟨.data, b⟩).isSome = true ↔
        b = base ∨ (h.logs.lookup ⟨.data, b⟩).isSome = true) ∧
      g.baseOffset = base ∧ g.nextOffset = base ∧ Chain P h' base [g] [] := by
  obtain ⟨hnone, hinv, hs, hpath, hothers⟩ :=
    Segment.createWithOptions_inv (segmentOptions_mmap hmmap false) hbase hrun
  obtain rfl : g.baseOffset = base := congrArg Path.base hpath
  refine ⟨hnone, hothers, fun b => ?_, rfl, hinv.next, .last (congrArg Path.dir hpath) hs hinv⟩
  by_cases hb : b = g.baseOffset
  · have hsome := hinv.lookup_isSome
    rw [hpath] at hsome
    rw [hb, hsome]
    simp
  · rw [hothers _ fun hp => hb (congrArg Path.base hp)]
    simp [hb]

/-- An open creates the first segment of a directory, or opens those it finds. -/
theorem open_cases {config : StorageConfig} {log : PartitionLog}
    (hrun : PartitionLog.open P config h = .ok log h') :
    (listSegmentBases h = [] ∧ ∃ now h1 g, nowMs h = .ok now h1 ∧
      Segment.createWithOptions P .data 0 now (config.segmentOptions false) h1 = .ok g h' ∧
      log = { config := config, segments := [g], nextOffset := g.nextOffset
              appendsSinceFlush := 0 }) ∨
    (listSegmentBases h ≠ [] ∧ ∃ segs,
      openSegments P config (listSegmentBases h) h = .ok segs h' ∧ firstOverlap segs = none ∧
      log = { config := config, segments := segs
              nextOffset := (segs.getLast?.map (·.nextOffset)).getD 0
              appendsSinceFlush := 0 }) := by
  simp only [PartitionLog.open, get_bind_ok] at hrun
  split_ifs at hrun with hempty
  · simp only [bind_ok, pure_ok] at hrun
    obtain ⟨now, h1, hnow, g, _, hcreate, rfl, rfl⟩ := hrun
    exact .inl ⟨isEmpty_iff.mp hempty, now, h1, g, hnow, hcreate, rfl⟩
  · obtain ⟨segs, _, hsegs, hrun⟩ := bind_ok.mp hrun
    rcases hover : firstOverlap segs with _ | pair <;> rw [hover] at hrun
    · obtain ⟨rfl, rfl⟩ := pure_ok.mp hrun
      exact .inr ⟨fun hc => hempty (isEmpty_iff.mpr hc), segs, hsegs, hover, rfl⟩
    · exact absurd hrun throw_ok

/-- Changing only the clock keeps the invariant. -/
theorem congr_logs (hi : LogInv P s start rs) {h' : Host}
    (hl : h'.logs = s.host.logs) : LogInv P { s with host := h' } start rs where
  chain := hi.chain.congr_host fun g _ => by rw [hl]
  next := hi.next
  files base := by
    simp only [hl]
    exact hi.files base
  mmap := hi.mmap

end PartitionLog

end Volant.Storage
