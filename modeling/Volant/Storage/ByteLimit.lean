-- SUMMARY: How much a read with a byte limit returns, and that it returns something where there is something.
import Volant.Storage.Compaction
import Volant.Storage.RoundTrip

/-!
# Byte-bounded reads

A segment stops its read before the encoded size passes the limit, but never
before its first record. The log counts an approximate size, smaller than the
encoded one, and hands each segment what is left by that count.
-/

namespace Volant.Storage

open List Exec

variable {P : Platform} {h : Host} {g : Segment} {rs out : List Record} {start n maxBytes acc : Nat}

def storedSize (rs : List Record) : Nat := (rs.map fun r => encodedRecordSize r.toMessage).sum

def approxSizes (rs : List Record) : Nat := (rs.map PartitionLog.approxSize).sum

theorem saturatingAdd_eq (a b : Nat) : saturatingAdd a b = min (a + b) usizeMax := rfl

theorem Frame.size_le {crc : Bytes → UInt32} {bytes : Bytes} {r : Record}
    (hframe : Frame crc bytes r) : encodedRecordSize r.toMessage ≤ bytes.length := by
  obtain ⟨rest, hbody⟩ := hframe.body
  have hsize := (parseBody_consumes hbody).1
  have hlong := hframe.long
  rw [length_drop] at hsize
  rw [encodedRecordSize]
  omega

namespace Segment

/-! ## One segment -/

/-- More than one record only within the limit. -/
theorem readFrom_within (hlimit : maxBytes < usizeMax)
    (hread : readFrom P h g start n maxBytes = .ok rs) :
    rs.length ≤ 1 ∨ storedSize rs ≤ maxBytes := by
  obtain ⟨data, fuel, pos, hloop⟩ := readFrom_eq_loop hread
  obtain rfl := Except.ok.inj (hread.symm.trans (hloop maxBytes))
  refine (readLoop_induct (motive := fun acc out => min (storedSize out) usizeMax ≤ acc ∧
    (out.length ≤ 1 ∨ storedSize out ≤ maxBytes)) ?_ (show _ ∧ (length [] ≤ 1 ∨ _) from
      ⟨by simp [storedSize], .inl (by simp)⟩)).elim fun _ h => h.2
  · rintro acc out r bytes ⟨hacc, -⟩ - - hframe hroom
    have hsize := hframe.size_le
    have hsum : storedSize (out ++ [r]) = storedSize out + encodedRecordSize r.toMessage := by
      simp [storedSize]
    rw [saturatingAdd_eq] at hroom ⊢
    refine ⟨by omega, ?_⟩
    by_cases hout : out = []
    · exact .inl (by simp [hout])
    · have := hroom hout hlimit.ne
      exact .inr (by omega)

variable {nextOffset fuel pos : Nat} {crc : Bytes → UInt32}

theorem readLoop_ne_nil {data : Bytes}
    (hout : out ≠ []) : readLoop crc data start nextOffset n maxBytes fuel pos acc out ≠ [] :=
  (readLoop_induct (motive := fun _ out => out ≠ []) (fun _ _ _ _ _ => by simp) hout).elim
    fun _ hne => hne

/-- Where a read without a limit finds a record, one with a limit does too. -/
theorem readLoop_nil {data : Bytes}
    (hnil : readLoop crc data start nextOffset n maxBytes fuel pos acc [] = []) :
    readLoop crc data start nextOffset n usizeMax fuel pos acc [] = [] := by
  induction fuel generalizing pos with
  | zero => rfl
  | succ fuel ih =>
    unfold readLoop at hnil ⊢
    split
    swap
    · rfl
    rename_i hround
    cases hdecode : decodeRecordAt crc data pos with
    | incomplete => rfl
    | corrupt => rfl
    | ok r p next size =>
      simp only [hdecode, isEmpty_nil, Bool.not_true, Bool.false_and, Bool.false_eq_true,
        if_false] at hnil ⊢
      split_ifs at hnil ⊢ with hskip hend
      · exact ih hnil
      · rfl
      · exact absurd hnil (readLoop_ne_nil (by simp))

theorem readFrom_limit (hread : readFrom P h g start n usizeMax = .ok rs) (maxBytes : Nat) :
    ∃ rs', readFrom P h g start n maxBytes = .ok rs' ∧
      (rs' = [] → readFrom P h g start n usizeMax = .ok []) := by
  obtain ⟨data, fuel, pos, hloop⟩ := readFrom_eq_loop hread
  exact ⟨_, hloop maxBytes, fun hnil => readLoop_nil hnil ▸ hloop usizeMax⟩

end Segment

/-! ## The log -/

/-- What a read returns of one segment after another, from approximate size `acc` on: more than one
record only within what the limit leaves, and nothing behind an approximate size of the limit. -/
def Within (maxBytes : Nat) : Nat → List (List Record) → Prop
  | _, [] => True
  | acc, piece :: rest =>
    (piece.length ≤ 1 ∨ acc + storedSize piece ≤ maxBytes) ∧ (acc = 0 ∨ acc < maxBytes) ∧
      Within maxBytes (acc + approxSizes piece) rest

namespace PartitionLog

variable {gs : List Segment} {res : List Record}

theorem foldl_approxSize (rs : List Record) (acc : Nat) :
    rs.foldl (fun acc r => saturatingAdd acc (approxSize r)) (min acc usizeMax) =
      min (acc + approxSizes rs) usizeMax := by
  induction rs generalizing acc with
  | nil => simp [approxSizes]
  | cons r rs ih =>
    have hone : saturatingAdd (min acc usizeMax) (approxSize r) =
        min (acc + approxSize r) usizeMax := by
      rw [saturatingAdd_eq]
      omega
    rw [foldl_cons, hone, ih]
    simp [approxSizes, Nat.add_assoc]

theorem readSegments_within (hlimit : maxBytes < usizeMax)
    (hread : readSegments P h start n maxBytes gs (min (approxSizes out) usizeMax) out = .ok res) :
    ∃ used pieces, used.Sublist gs ∧ res = out ++ pieces.flatten ∧
      Forall₂ (fun g piece => ∀ r ∈ piece, max start g.baseOffset ≤ r.offset ∧
        r.offset < g.nextOffset) used pieces ∧ Within maxBytes (approxSizes out) pieces := by
  induction gs generalizing out with
  | nil => exact ⟨[], [], .slnil, by simpa using (Except.ok.inj hread).symm, .nil, trivial⟩
  | cons g gs ih =>
    unfold readSegments at hread
    simp only [if_neg hlimit.ne] at hread
    split_ifs at hread with hskip hfull hspent
    · obtain ⟨used, pieces, hused, hrest⟩ := ih hread
      exact ⟨used, pieces, hused.cons g, hrest⟩
    · exact ⟨[], [], nil_sublist _, by simpa using (Except.ok.inj hread).symm, .nil, trivial⟩
    · exact ⟨[], [], nil_sublist _, by simpa using (Except.ok.inj hread).symm, .nil, trivial⟩
    · obtain ⟨recs, hrecs, hread⟩ := except_bind_ok.mp hread
      have hsum : approxSizes out + approxSizes recs = approxSizes (out ++ recs) := by
        simp [approxSizes]
      rw [foldl_approxSize, hsum] at hread
      obtain ⟨used, pieces, hused, hres, hall, hwithin⟩ := ih hread
      have hleft : approxSizes out = 0 ∨ approxSizes out < maxBytes := by
        by_cases hout : out = []
        · exact .inl (by simp [hout, approxSizes])
        · simp [hout, hlimit.ne] at hspent
          omega
      refine ⟨g :: used, recs :: pieces, hused.cons_cons g, by simp [hres], .cons ?_ hall, ?_, hleft,
        hsum ▸ hwithin⟩
      · intro r hr
        obtain ⟨data, fuel, pos, hloop⟩ := Segment.readFrom_eq_loop hrecs
        obtain rfl := Except.ok.inj (hrecs.symm.trans (hloop _))
        obtain ⟨hstart, hlt, -⟩ := Segment.readLoop_framed hr
        exact ⟨hstart, hlt⟩
      · refine (Segment.readFrom_within (by omega) hrecs).imp_right fun hle => ?_
        rcases hleft with hzero | hlt <;> omega

/-- The segments hold a record from an offset on. -/
def HoldsFrom (P : Platform) (h : Host) (gs : List Segment) (start : Nat) : Prop :=
  ∃ g ∈ gs, ∃ rs, g.Holds P h rs ∧ ∃ r ∈ rs, start ≤ r.offset

theorem readSegments_ne_nil (hholds : ∀ g ∈ gs, ∃ rs, g.Holds P h rs) (hn : 0 < n) (acc : Nat)
    (out : List Record) : ∃ res, readSegments P h start n maxBytes gs acc out = .ok res ∧
      (out ≠ [] ∨ HoldsFrom P h gs start → res ≠ []) := by
  induction gs generalizing acc out with
  | nil => exact ⟨out, rfl, by simp [HoldsFrom]⟩
  | cons g gs ih =>
    have hrest := ih fun a ha => hholds a (mem_cons_of_mem g ha)
    unfold readSegments
    split
    · obtain ⟨res, hres, hne⟩ := hrest acc out
      refine ⟨res, hres, fun hsome => hne (hsome.imp_right ?_)⟩
      rintro ⟨a, ha, rs, hrs, r, hr, hle⟩
      rcases mem_cons.mp ha with rfl | ha
      · have := hrs.below r hr
        omega
      · exact ⟨a, ha, rs, hrs, r, hr, hle⟩
    split
    next hfull =>
      refine ⟨out, rfl, fun _ hnil => ?_⟩
      rw [hnil, length_nil] at hfull
      omega
    split
    next hspent =>
      refine ⟨out, rfl, fun _ hnil => ?_⟩
      simp [hnil] at hspent
    · obtain ⟨_, hg⟩ := hholds g mem_cons_self
      obtain ⟨recs, hrecs, hfirst⟩ := Segment.readFrom_limit
        (hg.readFrom (max start g.baseOffset) (n - out.length))
        (if maxBytes = usizeMax then usizeMax else maxBytes - acc)
      obtain ⟨res, hres, hne⟩ := hrest
        (recs.foldl (fun acc r => saturatingAdd acc (approxSize r)) acc) (out ++ recs)
      refine ⟨res, by simp only [hrecs, bind, Except.bind, hres], fun hsome => hne ?_⟩
      rcases hsome with hout | ⟨a, ha, rs, hrs, r, hr, hle⟩
      · exact .inl (by simp [hout])
      rcases mem_cons.mp ha with rfl | ha
      · -- the segment's first record from `start` on is returned, whatever its size
        refine .inl fun hnil => ?_
        obtain ⟨rfl, rfl⟩ := append_eq_nil_iff.mp hnil
        have hread := Except.ok.inj ((hfirst rfl).symm.trans (hrs.readFrom _ _))
        have hmem : r ∈ rs.filter (max start a.baseOffset ≤ ·.offset) := by
          simpa [hr] using And.intro hle (hrs.above r hr)
        rcases take_eq_nil_iff.mp hread.symm with hzero | hempty
        · omega
        · rw [hempty] at hmem
          cases hmem
      · exact .inr ⟨a, ha, rs, hrs, r, hr, hle⟩

/-- Every segment has the bytes of its records, and lies between the ends of the log. -/
structure Readable (P : Platform) (s : LogState) : Prop where
  holds : ∀ g ∈ s.log.segments, ∃ rs, g.Holds P s.host rs
  start_le : ∀ g ∈ s.log.segments, s.log.logStartOffset ≤ g.baseOffset
  next_le : ∀ g ∈ s.log.segments, g.nextOffset ≤ s.log.nextOffset

theorem chain_next_le {gs : List Segment} (hc : Chain P h start gs rs) :
    ∀ g ∈ gs, g.nextOffset ≤ start + rs.length := by
  induction hc with
  | last hdir hs hinv => simp [hinv.next]
  | cons hdir hs hne hinv hrest ih =>
    intro a ha
    have hnext := hinv.next
    rw [length_append]
    rcases mem_cons.mp ha with rfl | ha
    · omega
    · have := ih a ha
      omega

/-- The logs of the runs that refine the abstract log are readable. -/
theorem readable_of_run {clock : Nat → Int64} {ops : List Op} {trace : List (Op × Result)}
    {t : Store} {log : PartitionLog} (hfits : ∀ op ∈ ops, ∀ m ∈ op.messages, Message.Fits m)
    (hcount : (ops.flatMap Op.messages).length ≤ u64Max)
    (hrun : runWhen P (admissible P) ops (Store.fresh clock) = some (trace, t))
    (hlog : t.log = some log) : Readable P ⟨t.host, log⟩ := by
  have hzero : AbstractLog.empty.logEnd + (ops.flatMap Op.messages).length ≤ u64Max := by
    simpa [AbstractLog.logEnd, AbstractLog.empty] using hcount
  obtain ⟨a, -, hsim⟩ := runWhen_sim (fun _ hop => hop) (sim_fresh clock) hfits hzero hrun
  have hi := hsim.open hlog
  have hstart : log.logStartOffset = a.logStart := hi.chain.head_base
  exact {
    holds := hi.chain.forall_mem fun g rs _ hinv => ⟨rs, hinv.holds⟩
    start_le := fun g hg => hstart ▸ hi.chain.bases.2 _ (mem_map_of_mem hg)
    next_le := fun g hg => hi.next ▸ chain_next_le hi.chain g hg }

/-- What a limited read returns, segment by segment; and where a readable log holds a record from
`start` on, a read with any limit returns one. -/
theorem readBytes_within (P : Platform) (s : LogState) (start n maxBytes : Nat) :
    (maxBytes < usizeMax → ∀ res, readBytes P s start n maxBytes = .ok res →
      ∃ used pieces, used.Sublist s.log.segments ∧ res = pieces.flatten ∧
        Forall₂ (fun g piece => ∀ r ∈ piece, max start g.baseOffset ≤ r.offset ∧
          r.offset < g.nextOffset) used pieces ∧ Within maxBytes 0 pieces) ∧
    (Readable P s → 0 < n → HoldsFrom P s.host s.log.segments start →
      ∃ res, readBytes P s start n maxBytes = .ok res ∧ res ≠ []) := by
  unfold readBytes
  refine ⟨fun hlimit res hread => ?_, fun hsegs hn hfrom => ?_⟩
  · dsimp only at hread
    split at hread
    · obtain rfl := Except.ok.inj hread
      exact ⟨[], [], nil_sublist _, rfl, .nil, trivial⟩
    · obtain ⟨used, pieces, hused, hres, hall, hwithin⟩ :=
        @readSegments_within P _ [] _ n maxBytes _ res hlimit hread
      refine ⟨used, pieces, hused, hres, hall.imp fun g piece hpiece r hr => ?_, hwithin⟩
      have := hpiece r hr
      omega
  · obtain ⟨g, hg, rs, hrs, r, hr, hle⟩ := hfrom
    have habove := hrs.above r hr
    have hbelow := hrs.below r hr
    have hstart := hsegs.start_le g hg
    have hend := hsegs.next_le g hg
    have hopen : ¬ (s.log.highWatermark ≤ max start s.log.logStartOffset || n = 0) = true := by
      simp only [Bool.or_eq_true, decide_eq_true_eq]
      rw [highWatermark]
      omega
    obtain ⟨res, hres, hne⟩ := readSegments_ne_nil hsegs.holds hn 0 []
    exact ⟨res, (if_neg hopen).trans hres, hne (.inr ⟨g, hg, rs, hrs, r, hr, by omega⟩)⟩

/-- One record in each of two segments. -/
def twoAppends : List Op :=
  [.openLog { StorageConfig.default with segmentSize := 1 },
    .appendBatch [smallMessage, smallMessage]]

def twoSegments : LogState :=
  match runWhen plainPlatform (admissible plainPlatform) twoAppends (Store.fresh fun _ => 0) with
  | some (_, ⟨h, some log⟩) => ⟨h, log⟩
  | _ => newLog

/-- The second record begins a segment, so the limit does not stop it. -/
theorem readBytes_past_limit :
    ((readBytes plainPlatform twoSegments 0 10 40).toOption.map fun res =>
      (res.length, storedSize res)) = some (2, 74) := by
  decide +kernel

theorem twoSegments_readable : Readable plainPlatform twoSegments := by
  have hopen : (runWhen plainPlatform (admissible plainPlatform) twoAppends
      (Store.fresh fun _ => 0)).map (·.2.log.isSome) = some true := by decide +kernel
  obtain ⟨⟨trace, ⟨h, log⟩⟩, hrun, hlog⟩ := Option.map_eq_some_iff.mp hopen
  obtain ⟨log, rfl⟩ := Option.isSome_iff_exists.mp hlog
  rw [show twoSegments = ⟨h, log⟩ by simp only [twoSegments, hrun]]
  exact readable_of_run (by simp [twoAppends, Op.messages, smallMessage_fits]) (by decide) hrun rfl

/-- Both records under a limit of 40 bytes, and the second one without a limit. -/
theorem readBytes_within_two_segments :
    (∃ res, ∃ used : List Segment, ∃ pieces, readBytes plainPlatform twoSegments 0 10 40 = .ok res ∧
      res.length = 2 ∧ used.Sublist twoSegments.log.segments ∧ res = List.flatten pieces ∧
      Within 40 0 pieces) ∧
    ∃ res, readBytes plainPlatform twoSegments 1 1 usizeMax = .ok res ∧ res ≠ [] := by
  constructor
  · have hlength : (readBytes plainPlatform twoSegments 0 10 40).toOption.map length = some 2 := by
      decide +kernel
    cases hread : readBytes plainPlatform twoSegments 0 10 40 with
    | error e =>
      rw [hread] at hlength
      cases hlength
    | ok res =>
      rw [hread] at hlength
      obtain ⟨used, pieces, hused, hres, -, hwithin⟩ :=
        (readBytes_within plainPlatform twoSegments 0 10 40).1 (by decide) res hread
      exact ⟨res, used, pieces, rfl, Option.some.inj hlength, hused, hres, hwithin⟩
  · refine (readBytes_within plainPlatform twoSegments 1 1 usizeMax).2 twoSegments_readable
      (by decide) ?_
    have hactive : twoSegments.log.segments.getLast?.map (fun g =>
        ((Segment.readFrom plainPlatform twoSegments.host g 1 1 usizeMax).toOption.map length)) =
        some (some 1) := by decide +kernel
    obtain ⟨g, hlast, hread⟩ := Option.map_eq_some_iff.mp hactive
    obtain ⟨rs, hrs⟩ := twoSegments_readable.holds g (mem_of_getLast? hlast)
    refine ⟨g, mem_of_getLast? hlast, rs, hrs, ?_⟩
    rw [hrs.readFrom] at hread
    by_contra hnone
    push Not at hnone
    rw [filter_eq_nil_iff.mpr fun r hr => by simpa using hnone r hr] at hread
    cases hread

end PartitionLog

end Volant.Storage
