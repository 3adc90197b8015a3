-- SUMMARY: What is on disk when a log is closed, and that opening it again restores the same records.
import Volant.Storage.LogSpec

/-!
# Closing and reopening

`Files P h start bases rs` describes the log files alone: each holds the bytes
of a run of records, possibly with padding behind them, and the runs continue
one another. A log all of whose pending bytes are on disk leaves such files,
and opening them gives back a log with the same records.
-/

namespace Volant.Storage

open List

/-- One log file holding a run of records. -/
structure FileHolds (P : Platform) (h : Host) (base : Nat) (rs : List Record) : Prop where
  file : ∃ created z, h.logs.lookup ⟨.data, base⟩ =
    some (segmentBytes P.crc base created rs ++ List.replicate z 0)
  storable : ∀ r ∈ rs, Storable r
  gapFree : GapFree base rs
  bound : base + rs.length ≤ u64Max

inductive Files (P : Platform) (h : Host) : Nat → List Nat → List Record → Prop where
  | last {base : Nat} {rs : List Record} (hfile : FileHolds P h base rs) : Files P h base [base] rs
  | cons {base : Nat} {bases : List Nat} {rs ts : List Record} (hfile : FileHolds P h base rs)
      (hne : rs ≠ []) (hrest : Files P h (base + rs.length) bases ts) :
      Files P h base (base :: bases) (rs ++ ts)

/-- The closed log on disk holds the records `rs` from `start` on; a directory without segments is
the empty log. -/
def DiskInv (P : Platform) (h : Host) (start : Nat) (rs : List Record) : Prop :=
  (start = 0 ∧ rs = [] ∧ ∀ base, h.logs.lookup ⟨.data, base⟩ = none) ∨
  ∃ bases, Files P h start bases rs ∧
    ∀ base, (h.logs.lookup ⟨.data, base⟩).isSome = true ↔ base ∈ bases

section

variable {P : Platform} {h h' : Host} {start : Nat} {rs : List Record} {bases : List Nat}

theorem FileHolds.congr_host {base : Nat} (hf : FileHolds P h base rs)
    (hl : h'.logs.lookup ⟨.data, base⟩ = h.logs.lookup ⟨.data, base⟩) : FileHolds P h' base rs where
  file := by
    rw [hl]
    exact hf.file
  storable := hf.storable
  gapFree := hf.gapFree
  bound := hf.bound

theorem Files.congr_host (hf : Files P h start bases rs)
    (hl : ∀ base ∈ bases, h'.logs.lookup ⟨.data, base⟩ = h.logs.lookup ⟨.data, base⟩) :
    Files P h' start bases rs := by
  induction hf with
  | last hfile => exact .last (hfile.congr_host (hl _ mem_cons_self))
  | cons hfile hne hrest ih =>
    exact .cons (hfile.congr_host (hl _ mem_cons_self)) hne
      (ih fun b hb => hl b (mem_cons_of_mem _ hb))

theorem Files.sorted (hf : Files P h start bases rs) :
    bases.Pairwise (· < ·) ∧ ∀ b ∈ bases, start ≤ b := by
  induction hf with
  | last => simp
  | @cons base bases rs ts hfile hne hrest ih =>
    obtain ⟨hpair, hmin⟩ := ih
    have hpos := length_pos_iff.mpr hne
    refine ⟨pairwise_cons.mpr ⟨fun b hb => ?_, hpair⟩, ?_⟩
    · have := hmin b hb
      omega
    · intro b hb
      rcases mem_cons.mp hb with rfl | hb
      · exact le_refl _
      · have := hmin b hb
        omega

/-- An open log with nothing left in memory only is on disk. -/
theorem Chain.files {gs : List Segment} (hc : Chain P h start gs rs)
    (hdisk : ∀ g ∈ gs, Segment.OnDisk ⟨h, g⟩) : Files P h start (gs.map (·.baseOffset)) rs := by
  have hholds : ∀ {g : Segment} {rs : List Record}, g.dir = .data → g.Inv P h rs →
      Segment.OnDisk ⟨h, g⟩ → FileHolds P h g.baseOffset rs := by
    intro g rs hdir hinv hd
    obtain ⟨z, hz⟩ := hinv.holds.file_of_onDisk hd
    rw [Segment.path_eq_data hdir] at hz
    exact ⟨⟨g.createdAtMs, z, hz⟩, hinv.storable, hinv.gapFree, hinv.next ▸ hinv.bound⟩
  induction hc with
  | last hdir hs hinv => exact .last (hholds hdir hinv (hdisk _ mem_cons_self))
  | cons hdir hs hne hinv hrest ih =>
    refine .cons (hholds hdir hinv (hdisk _ mem_cons_self)) hne ?_
    rw [← hinv.next]
    exact ih fun g hg => hdisk g (mem_cons_of_mem _ hg)

theorem LogInv.diskInv {s : LogState} (hi : LogInv P s start rs)
    (hdisk : ∀ g ∈ s.log.segments, Segment.OnDisk ⟨s.host, g⟩) : DiskInv P s.host start rs :=
  .inr ⟨_, hi.chain.files hdisk, hi.files⟩

/-! ## Listing the segments -/

theorem mem_listSegmentBases (h : Host) (base : Nat) :
    base ∈ listSegmentBases h ↔ (h.logs.lookup ⟨.data, base⟩).isSome = true := by
  rw [AList.lookup_isSome]
  simp only [listSegmentBases, mem_insertionSort, mem_map, mem_filter]
  constructor
  · rintro ⟨p, ⟨hp, hdir⟩, rfl⟩
    obtain ⟨d, b⟩ := p
    obtain rfl : d = .data := by simpa using hdir
    exact hp
  · intro hp
    exact ⟨_, ⟨hp, by simp⟩, rfl⟩

theorem nodup_listSegmentBases (h : Host) : (listSegmentBases h).Nodup := by
  have hkeys : (h.logs.keys.filter (·.dir = .data)).Nodup := h.logs.keys_nodup.filter _
  refine (perm_insertionSort _ _).nodup_iff.mpr ((nodup_map_iff_inj_on hkeys).mpr ?_)
  rintro ⟨d, b⟩ hp ⟨d', b'⟩ hq hb
  obtain ⟨-, hd⟩ := mem_filter.mp hp
  obtain ⟨-, hd'⟩ := mem_filter.mp hq
  obtain rfl : d = .data := by simpa using hd
  obtain rfl : d' = .data := by simpa using hd'
  rw [show b = b' from hb]

/-- The listing is in order, and no two files have the same name. -/
theorem sorted_listSegmentBases (h : Host) : (listSegmentBases h).Pairwise (· < ·) := by
  refine ((pairwise_insertionSort (· ≤ ·) _).and (nodup_listSegmentBases h)).imp ?_
  rintro a b ⟨hle, hne⟩
  exact lt_of_le_of_ne hle hne

/-- The directory listing is the chain's own list of bases. -/
theorem listSegmentBases_eq (hsorted : bases.Pairwise (· < ·))
    (hmem : ∀ base, (h.logs.lookup ⟨.data, base⟩).isSome = true ↔ base ∈ bases) :
    listSegmentBases h = bases := by
  have hnodup : bases.Nodup := hsorted.imp Nat.ne_of_lt
  have hperm : (listSegmentBases h).Perm bases :=
    (perm_ext_iff_of_nodup (nodup_listSegmentBases h) hnodup).mpr fun b => by
      rw [mem_listSegmentBases, hmem]
  refine @List.Perm.eq_of_pairwise Nat (· ≤ ·) _ _ ?_ ?_ (hsorted.imp Nat.le_of_lt) hperm
  · intro a b _ _ hab hba
    exact Nat.le_antisymm hab hba
  · exact pairwise_insertionSort _ _

/-! ## Opening -/

theorem openSegments_chain {config : StorageConfig} {gs : List Segment}
    (hf : Files P h start bases rs)
    (hmmap : applyDirectIoFlag P config.directIo = true → config.useMmap = true)
    (hrun : PartitionLog.openSegments P config bases h = .ok gs h') :
    Chain P h' start gs rs ∧ gs.map (·.baseOffset) = bases ∧
      ∀ q : Path, (∀ base ∈ bases, q ≠ ⟨.data, base⟩) → h'.logs.lookup q = h.logs.lookup q := by
  have hopts := PartitionLog.segmentOptions_mmap hmmap
  -- The host changes from one segment to the next, so the induction is on the bases.
  induction bases generalizing h start rs gs with
  | nil => cases hf
  | cons base bases ih =>
    cases hf with
    | last hfile =>
      simp only [PartitionLog.openSegments, Exec.bind_ok, Exec.pure_ok, isEmpty_nil,
        Bool.not_true] at hrun
      obtain ⟨g, h1, hopen, _, _, ⟨rfl, rfl⟩, rfl, rfl⟩ := hrun
      obtain ⟨created, z, hz⟩ := hfile.file
      obtain ⟨hinv, hs, hpath, hothers⟩ := Segment.openWithOptions_inv hz hfile.storable
        hfile.gapFree hfile.bound (hopts false) hopen
      have hdir : g.dir = .data := congrArg Path.dir hpath
      obtain rfl : g.baseOffset = base := congrArg Path.base hpath
      exact ⟨.last hdir hs hinv, rfl, fun q hq => hothers q (hq _ mem_cons_self)⟩
    | @cons _ _ rs ts hfile hne hrest =>
      simp only [PartitionLog.openSegments, Exec.bind_ok, Exec.pure_ok] at hrun
      obtain ⟨g, h1, hopen, gs', h2, hsegs, rfl, rfl⟩ := hrun
      have hmore : bases ≠ [] := by
        intro hnil
        rw [hnil] at hrest
        cases hrest
      have hflag : (!bases.isEmpty) = true := by simp [hmore]
      rw [hflag] at hopen
      obtain ⟨created, z, hz⟩ := hfile.file
      obtain ⟨hinv, hs, hpath, hothers⟩ := Segment.openWithOptions_inv hz hfile.storable
        hfile.gapFree hfile.bound (hopts true) hopen
      have hdir : g.dir = .data := congrArg Path.dir hpath
      obtain rfl : g.baseOffset = base := congrArg Path.base hpath
      -- The later segments have larger bases, so opening them leaves this one's file alone.
      have hlarger : ∀ b ∈ bases, b ≠ g.baseOffset := by
        intro b hb
        have := hrest.sorted.2 b hb
        have := length_pos_iff.mpr hne
        omega
      obtain ⟨hchain, hbases, hframe⟩ := ih (hrest.congr_host fun b hb =>
        hothers _ fun hp => hlarger b hb (congrArg Path.base hp)) hsegs
      have hkeep : h2.logs.lookup g.path = h1.logs.lookup g.path :=
        hframe _ fun b hb hp => hlarger b hb (congrArg Path.base hp).symm
      refine ⟨?_, by rw [map_cons, hbases], ?_⟩
      · rw [← hinv.next] at hchain
        exact .cons hdir hs hne (hinv.congr_host hkeep) hchain
      · intro q hq
        rw [hframe q fun b hb => hq b (mem_cons_of_mem _ hb),
          hothers q (hq _ mem_cons_self)]

/-- Opening gives back the log that is on disk. -/
theorem open_inv {config : StorageConfig} {log : PartitionLog} (hd : DiskInv P h start rs)
    (hmmap : applyDirectIoFlag P config.directIo = true → config.useMmap = true)
    (hrun : PartitionLog.open P config h = .ok log h') : LogInv P ⟨h', log⟩ start rs := by
  obtain ⟨hlist, now, h1, g, hnow, hcreate, rfl⟩ | ⟨hlist, gs, hsegs, -, rfl⟩ :=
    PartitionLog.open_cases hrun
  · -- No segments yet: the first one is created.
    obtain ⟨rfl, rfl, hnone⟩ | ⟨bases, hfiles, hmem⟩ := hd
    · obtain ⟨-, -, hadded, hbase, hnext, hchain⟩ :=
        PartitionLog.create_inv hmmap (Nat.zero_le _) hcreate
      refine ⟨hchain, hnext, fun base => ?_, hmmap⟩
      rw [hadded, PartitionLog.nowMs_ok hnow, hnone]
      simp [hbase]
    · rw [listSegmentBases_eq hfiles.sorted.1 hmem] at hlist
      subst hlist
      cases hfiles
  · obtain ⟨-, -, hnone⟩ | ⟨bases, hfiles, hmem⟩ := hd
    · obtain ⟨b, hb⟩ := exists_mem_of_ne_nil _ hlist
      rw [mem_listSegmentBases, hnone] at hb
      cases hb
    rw [listSegmentBases_eq hfiles.sorted.1 hmem] at hsegs
    obtain ⟨hchain, hbases, hframe⟩ := openSegments_chain hfiles hmmap hsegs
    obtain ⟨g, hlast, hnext, -⟩ := hchain.last_next
    refine ⟨hchain, ?_, fun base => ?_, hmmap⟩
    · simp [hlast, hnext]
    · simp only [hbases]
      by_cases hb : base ∈ bases
      · -- An opened segment's file is still there.
        exact iff_of_true (hchain.lookup_isSome (hbases ▸ hb)) hb
      · have hframe' : ∀ b ∈ bases, (⟨.data, base⟩ : Path) ≠ ⟨.data, b⟩ := by
          intro b hb' hp
          obtain rfl : base = b := congrArg Path.base hp
          exact hb hb'
        rw [hframe _ hframe', hmem]

end

end Volant.Storage
