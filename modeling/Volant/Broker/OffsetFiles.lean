-- SUMMARY: The files of the offset store that stand for a map, and the changes of them one at a time.
import Volant.Broker.OffsetStore

/-!
# The files of the offset store

A plain name is one that the sanitiser leaves alone, that a file system takes
and that is not a directory of its own kind (`.`, `..` and the empty name). With
plain names the store's files stand for a map from keys to committed offsets:
below the root there are groups, topics, the entries of the map and temporary
files.
-/

namespace Volant.Broker

open FileTree List Function AList
open LittleEndian (decode_encode encode length_encode)

variable {name : String} {n : Nat} {c : Char} {root rest : Path} {t : Tree} {node : Node}

/-! ## Names -/

/-- A name that is its own file name. -/
structure Plain (name : String) : Prop where
  sanitized : sanitize name = name
  ne_empty : name ≠ ""
  ne_dot : name ≠ "."
  ne_up : name ≠ ".."
  short : name.utf8ByteSize ≤ nameMax

instance (name : String) : Decidable (Plain name) :=
  decidable_of_iff (sanitize name = name ∧ name ≠ "" ∧ name ≠ "." ∧ name ≠ ".." ∧
      name.utf8ByteSize ≤ nameMax)
    ⟨fun ⟨h₁, h₂, h₃, h₄, h₅⟩ => ⟨h₁, h₂, h₃, h₄, h₅⟩, fun h => ⟨h.1, h.2, h.3, h.4, h.5⟩⟩

theorem Plain.join (h : Plain name) (path : Path) :
    join path (sanitize name) = path ++ [name] := by
  rw [h.sanitized, FileTree.join, if_neg (not_or.mpr ⟨h.ne_empty, h.ne_dot⟩)]

theorem isDigit_of_mem_toString (h : c ∈ (toString n).toList) : c.isDigit = true := by
  rw [toList_toString] at h
  exact Nat.isDigit_of_mem_toDigits (by decide) (by decide) h

/-- A name with a character that is no digit is not a number's. -/
theorem toString_ne (hc : c ∈ name.toList) (hdigit : c.isDigit = false) : toString n ≠ name := by
  rintro rfl
  rw [isDigit_of_mem_toString hc] at hdigit
  cases hdigit

theorem toString_ne_tmp (n m : Nat) : toString n ≠ toString m ++ ".tmp" :=
  toString_ne (c := '.') (by simp) (by decide)

theorem join_toString (path : Path) (n : Nat) :
    join path (toString n) = path ++ [toString n] := by
  refine if_neg (not_or.mpr ⟨?_, toString_ne (c := '.') (by decide) (by decide)⟩)
  intro h
  have hlist := congrArg String.toList h
  rw [toList_toString] at hlist
  exact Nat.toDigits_ne_nil hlist

theorem parseU32_toString (h : n < 2 ^ 32) : parseU32 (toString n) = some n := by
  have hplus : ∀ rest, Nat.toDigits 10 n ≠ '+' :: rest := by
    intro rest hrest
    have hdigit : Char.isDigit '+' = true :=
      Nat.isDigit_of_mem_toDigits (n := n) (b := 10) (by decide) (by decide)
        (hrest ▸ mem_cons_self)
    exact absurd hdigit (by decide)
  have hdigits : (Nat.toDigits 10 n).all Char.isDigit = true :=
    all_eq_true.mpr fun c hc => Nat.isDigit_of_mem_toDigits (by decide) (by decide) hc
  have hne : (Nat.toDigits 10 n).isEmpty = false := by
    simp
  unfold parseU32
  rw [toList_toString]
  split
  next digits rest hrest => exact absurd hrest (hplus _)
  next =>
    simp only [hne, hdigits, Nat.ofDigitChars_ten_toDigits, Bool.not_true, Bool.or_self,
      Bool.false_eq_true, if_false]
    exact if_pos h

/-- A name with a character that is neither a digit nor the sign is no number. -/
theorem parseU32_eq_none (hc : c ∈ name.toList) (hdigit : c.isDigit = false) (hsign : c ≠ '+') :
    parseU32 name = none := by
  have hall {digits : List Char} (hmem : c ∈ digits) :
      (digits.isEmpty || !digits.all Char.isDigit) = true := by
    have hfalse : digits.all Char.isDigit = false := all_eq_false.mpr ⟨c, hmem, by simp [hdigit]⟩
    rw [hfalse, Bool.not_false, Bool.or_true]
  unfold parseU32
  split
  next rest hrest =>
    rw [hrest, mem_cons] at hc
    exact if_pos (hall (hc.resolve_left hsign))
  next => exact if_pos (hall hc)

theorem tmp_isSuffixOf (n : Nat) :
    ".tmp".toList.isSuffixOf (toString n ++ ".tmp").toList = true := by
  rw [isSuffixOf_iff_suffix, String.toList_append]
  exact suffix_append _ _

theorem tmp_not_isSuffixOf (n : Nat) : ".tmp".toList.isSuffixOf (toString n).toList = false := by
  rw [Bool.eq_false_iff]
  intro h
  have hdot : '.' ∈ (toString n).toList := (isSuffixOf_iff_suffix.mp h).mem (by decide)
  exact absurd (isDigit_of_mem_toString hdot) (by decide)

/-! ## Entries -/

/-- The entry's numbers are 64 and 32 bits wide. -/
structure CommittedOffset.Typed (e : CommittedOffset) : Prop where
  offset : e.offset < 2 ^ 64
  epoch_ge : -2 ^ 31 ≤ e.leaderEpoch
  epoch_lt : e.leaderEpoch < 2 ^ 31

/-- The metadata fits its length field. -/
def CommittedOffset.Fits (e : CommittedOffset) : Prop :=
  e.metadata.toUTF8.data.toList.length ≤ u16Max

instance (e : CommittedOffset) : Decidable e.Fits := inferInstanceAs (Decidable (_ ≤ _))

theorem fromUtf8Lossy_toUTF8 (s : String) : fromUtf8Lossy s.toUTF8.data.toList = s := by
  have hbytes : (⟨s.toUTF8.data.toList.toArray⟩ : ByteArray) = s.toByteArray := by simp
  rw [fromUtf8Lossy, hbytes, String.fromUTF8?, dif_pos s.isValidUTF8]
  rfl

theorem castSigned_emod {n : Int} (hge : -2 ^ 31 ≤ n) (hlt : n < 2 ^ 31) :
    castSigned 32 (n % 2 ^ 32).toNat = n := by
  unfold castSigned
  rw [Int.bmod_def]
  split_ifs <;> omega

/-- What a commit writes is what a fetch reads. -/
theorem OffsetStore.decodeEntry_encode {e : CommittedOffset} (htyped : e.Typed) (hfits : e.Fits)
    (path : Path) : decodeEntry path e.encode = .ok e := by
  have hlen : e.metadata.toUTF8.data.toList.length < 256 ^ 2 := by
    have : u16Max < 256 ^ 2 := by decide
    exact lt_of_le_of_lt hfits this
  have hoffset : e.offset < 256 ^ 8 := htyped.offset
  have hepoch : (e.leaderEpoch % 2 ^ 32).toNat < 256 ^ 4 := by omega
  have hutf8 := fromUtf8Lossy_toUTF8 e.metadata
  generalize hbytes : e.metadata.toUTF8.data.toList = metadata at hlen hutf8
  have hencode : e.encode = encode 8 e.offset ++
      (encode 2 metadata.length ++ (metadata ++
        encode 4 (e.leaderEpoch % 2 ^ 32).toNat)) := by
    simp only [CommittedOffset.encode, hbytes, append_assoc]
  have hlength : e.encode.length = 10 + metadata.length + 4 := by
    simp only [hencode, length_append, length_encode]
    omega
  have htake : e.encode.take 8 = encode 8 e.offset := by
    rw [hencode, take_left' (length_encode 8 _)]
  have hdrop : e.encode.drop 8 = encode 2 metadata.length ++ (metadata ++
      encode 4 (e.leaderEpoch % 2 ^ 32).toNat) := by
    rw [hencode, drop_left' (length_encode 8 _)]
  have hmeta : (e.encode.drop 8).take 2 = encode 2 metadata.length := by
    rw [hdrop, take_left' (length_encode 2 _)]
  have hrest : e.encode.drop 10 =
      metadata ++ encode 4 (e.leaderEpoch % 2 ^ 32).toNat := by
    rw [← drop_drop (i := 2) (j := 8), hdrop, drop_left' (length_encode 2 _)]
  have htrailer : e.encode.drop (10 + metadata.length) =
      encode 4 (e.leaderEpoch % 2 ^ 32).toNat := by
    rw [← drop_drop (i := metadata.length) (j := 10), hrest, drop_left]
  unfold decodeEntry
  rw [if_neg (by omega), hmeta, decode_encode hlen, if_neg (by omega),
    if_pos (by omega), htake, decode_encode hoffset, hrest, take_left, hutf8,
    htrailer, take_of_length_le (by simp), decode_encode hepoch,
    castSigned_emod htyped.epoch_ge htyped.epoch_lt]

instance : Std.Total fun a b : StoredOffset => a.le b = true := by
  refine ⟨fun a b => ?_⟩
  simp only [StoredOffset.le, decide_eq_true_eq]
  rcases lt_trichotomy a.topic b.topic with hlt | heq | hgt
  · exact .inl (.inl hlt)
  · rcases Nat.le_total a.partition b.partition with hle | hle
    · exact .inl (.inr ⟨heq, hle⟩)
    · exact .inr (.inr ⟨heq.symm, hle⟩)
  · exact .inr (.inl hgt)

instance : IsTrans StoredOffset fun a b => a.le b = true := by
  refine ⟨fun a b c hab hbc => ?_⟩
  simp only [StoredOffset.le, decide_eq_true_eq] at hab hbc ⊢
  rcases hab with hab | ⟨hab, hle⟩
  · rcases hbc with hbc | ⟨hbc, -⟩
    · exact .inl (hab.trans hbc)
    · exact .inl (hbc ▸ hab)
  · rcases hbc with hbc | ⟨hbc, hle'⟩
    · exact .inl (hab ▸ hbc)
    · exact .inr ⟨hab.trans hbc, hle.trans hle'⟩

/-! ## Files that stand for a map -/

/-- The map the store is for. -/
abbrev OffsetMap := OffsetKey → Option CommittedOffset

/-- The place of a key. -/
def OffsetKey.path (root : Path) (key : OffsetKey) : Path :=
  root ++ [key.group, key.topic, toString key.partition]

structure OffsetKey.Ok (key : OffsetKey) : Prop where
  group : Plain key.group
  topic : Plain key.topic
  partition : key.partition < 2 ^ 32

/-- What may be below the root: groups, topics, entries and temporary files. -/
inductive Shape (t : Tree) (root : Path) : Path → Node → Prop where
  | group (g : String) (hg : Plain g) : Shape t root [g] .dir
  | topic (g tp : String) (hg : Plain g) (htp : Plain tp)
      (hdir : t.lookup (root ++ [g]) = some .dir) : Shape t root [g, tp] .dir
  | entry (g tp : String) (p : Nat) (contents : Bytes) (hp : p < 2 ^ 32) (hg : Plain g)
      (htp : Plain tp) (hgroup : t.lookup (root ++ [g]) = some .dir)
      (htopic : t.lookup (root ++ [g, tp]) = some .dir) :
      Shape t root [g, tp, toString p] (.file contents)
  | tmp (g tp : String) (p : Nat) (contents : Bytes) (hg : Plain g) (htp : Plain tp)
      (hgroup : t.lookup (root ++ [g]) = some .dir)
      (htopic : t.lookup (root ++ [g, tp]) = some .dir) :
      Shape t root [g, tp, toString p ++ ".tmp"] (.file contents)

/-- The files below the root are those of the map. -/
structure Represents (root : Path) (t : Tree) (m : OffsetMap) : Prop where
  up : ".." ∉ root
  dirs : ∀ k ≤ root.length, t.lookup (root.take k) = some .dir
  shape : ∀ rest node, rest ≠ [] → t.lookup (root ++ rest) = some node → Shape t root rest node
  entries : ∀ key : OffsetKey, key.Ok →
    t.lookup (key.path root) = (m key).map fun e => .file e.encode
  keys : ∀ key e, m key = some e → key.Ok ∧ e.Typed ∧ e.Fits

/-- Everything that is not below the root is as it was. -/
def SameOutside (root : Path) (t t' : Tree) : Prop :=
  ∀ q, ¬ root <+: q → t'.lookup q = t.lookup q

theorem Shape.congr {t' : Tree} (h : Shape t root rest node)
    (hdirs : ∀ dir, dir.length < rest.length → dir ≠ [] → dir <+: rest →
      t.lookup (root ++ dir) = some .dir → t'.lookup (root ++ dir) = some .dir) :
    Shape t' root rest node := by
  have hg (g : String) (more : List String) : [g] <+: g :: more := prefix_append [g] more
  have htp (g tp : String) (more : List String) : [g, tp] <+: g :: tp :: more :=
    prefix_append [g, tp] more
  cases h with
  | group g hplain => exact .group g hplain
  | topic g tp hplain hplain' hdir =>
    exact .topic g tp hplain hplain' (hdirs [g] (by simp) (by simp) (hg g _) hdir)
  | entry g tp p contents hp hplain hplain' hgroup htopic =>
    exact .entry g tp p contents hp hplain hplain' (hdirs [g] (by simp) (by simp) (hg g _) hgroup)
      (hdirs [g, tp] (by simp) (by simp) (htp g tp _) htopic)
  | tmp g tp p contents hplain hplain' hgroup htopic =>
    exact .tmp g tp p contents hplain hplain' (hdirs [g] (by simp) (by simp) (hg g _) hgroup)
      (hdirs [g, tp] (by simp) (by simp) (htp g tp _) htopic)

/-- Only directories are at depths one and two, and only files below. -/
theorem Shape.dir_iff (h : Shape t root rest node) :
    rest.length ≤ 3 ∧ (node = .dir ↔ rest.length < 3) := by
  cases h <;> simp

/-- The directories of a path that is there. -/
theorem Shape.above {dir : Path} (h : Shape t root rest node) (hbegins : dir <+: rest)
    (hne : dir ≠ []) (hlen : dir.length < rest.length) : t.lookup (root ++ dir) = some .dir := by
  have hpos := length_pos_iff.mpr hne
  rw [prefix_iff_eq_take] at hbegins
  generalize dir.length = k at hbegins hlen hpos
  subst hbegins
  cases h with
  | group g hg =>
    rw [length_singleton] at hlen
    omega
  | topic g tp hg htp hdir =>
    obtain rfl : k = 1 := by simp at hlen; omega
    exact hdir
  | entry g tp p contents hp hg htp hgroup htopic =>
    obtain rfl | rfl : k = 1 ∨ k = 2 := by simp at hlen; omega
    · exact hgroup
    · exact htopic
  | tmp g tp p contents hg htp hgroup htopic =>
    obtain rfl | rfl : k = 1 ∨ k = 2 := by simp at hlen; omega
    · exact hgroup
    · exact htopic

theorem take_ne_below (hrest : rest ≠ []) (k : Nat) : root.take k ≠ root ++ rest := by
  intro h
  have hlen := congrArg length h
  have hpos := length_pos_iff.mpr hrest
  rw [length_take, length_append] at hlen
  omega

theorem OffsetKey.path_inj {key key' : OffsetKey} (h : key.path root = key'.path root) :
    key = key' := by
  have hrest := append_cancel_left h
  obtain ⟨group, topic, partition⟩ := key
  simp only [cons.injEq, and_true] at hrest
  obtain ⟨rfl, rfl, hpartition⟩ := hrest
  rw [toString_injective hpartition]

theorem OffsetKey.path_ne_short (key : OffsetKey) (hlen : rest.length < 3) :
    key.path root ≠ root ++ rest := by
  intro h
  have hlength := congrArg length (append_cancel_left h)
  simp only [length_cons, length_nil] at hlength
  omega

/-- The place of a key's temporary file. -/
def OffsetKey.tmpPath (root : Path) (key : OffsetKey) : Path :=
  root ++ [key.group, key.topic, toString key.partition ++ ".tmp"]

theorem OffsetKey.path_ne_tmpPath (root : Path) (key key' : OffsetKey) :
    key.path root ≠ key'.tmpPath root := by
  intro h
  have hrest := append_cancel_left h
  simp only [cons.injEq, and_true] at hrest
  exact toString_ne_tmp _ _ hrest.2.2

/-- A directory goes only when nothing is in it. -/
theorem OffsetStore.prune_cases (t : Tree) (path : Path) :
    OffsetStore.prune t path = t ∨ ∃ place, locate t path = some place ∧
      (∀ name, t.lookup (place ++ [name]) = none) ∧ OffsetStore.prune t path = t.erase place := by
  unfold OffsetStore.prune removeDir
  cases hplace : locate t path with
  | none => exact .inl rfl
  | some place =>
    dsimp only
    split
    next => exact .inl rfl
    next t' hok =>
      split at hok
      next =>
        split_ifs at hok with hempty
        cases hok
        exact .inr ⟨place, rfl, childrenAt_isEmpty.mp hempty, rfl⟩
      next => cases hok

namespace Represents

variable {root : Path} {t t' : Tree} {m : OffsetMap} {key : OffsetKey}

/-- The directories of a key exist. -/
structure HasDirs (root : Path) (t : Tree) (key : OffsetKey) : Prop where
  group : t.lookup (root ++ [key.group]) = some .dir
  topic : t.lookup (root ++ [key.group, key.topic]) = some .dir

section

variable (h : Represents root t m)

include h

/-- A path below the root is free of `..` if its names are. -/
theorem up_below {rest : Path} (hrest : ∀ name ∈ rest, name ≠ "..") : ".." ∉ root ++ rest := by
  rw [mem_append, not_or]
  exact ⟨h.up, fun hmem => hrest _ hmem rfl⟩

theorem up_notMem (hkey : key.Ok) {name : String} (hname : name ≠ "..") :
    ".." ∉ root ++ [key.group, key.topic, name] :=
  h.up_below (by simp [hkey.group.ne_up, hkey.topic.ne_up, hname])

/-- A path whose directories are there is followed to its end. -/
theorem leads_below {rest : Path}
    (hrest : ∀ dir, dir <+: rest → dir ≠ [] → dir.length < rest.length →
      t.lookup (root ++ dir) = some .dir) : Leads t [] (root ++ rest) := by
  intro k hk
  rcases Nat.lt_or_ge root.length k with hlt | hge
  · obtain ⟨j, rfl⟩ : ∃ j, k = root.length + j := ⟨k - root.length, by omega⟩
    rw [length_append] at hk
    rw [take_length_add_append]
    have hbegins : rest.take j <+: rest := take_prefix j rest
    refine hrest _ hbegins ?_ ?_
    · rw [Ne, take_eq_nil_iff, not_or]
      exact ⟨by omega, by rintro rfl; simp at hk⟩
    · rw [length_take]
      omega
  · rw [take_append_of_le_length hge]
    exact h.dirs k hge

/-- The directories lead to the files of a key. -/
theorem leads (hdirs : HasDirs root t key) (name : String) :
    Leads t [] (root ++ [key.group, key.topic, name]) := by
  refine h.leads_below fun dir hbegins hne hlen => ?_
  have hpos := length_pos_iff.mpr hne
  simp only [length_cons, length_nil] at hlen
  rw [prefix_iff_eq_take] at hbegins
  obtain hone | htwo : dir.length = 1 ∨ dir.length = 2 := by omega
  · rw [hbegins, hone]
    exact hdirs.group
  · rw [hbegins, htwo]
    exact hdirs.topic

theorem hasDirs_of_lookup {name : String} {node : Node}
    (hlookup : t.lookup (root ++ [key.group, key.topic, name]) = some node) :
    HasDirs root t key := by
  have hshape := h.shape _ node (by simp) hlookup
  generalize hrest : [key.group, key.topic, name] = rest at hshape
  cases hshape with
  | group g hg => cases hrest
  | topic g tp hg htp hdir => cases hrest
  | entry g tp p contents hp hg htp hgroup htopic =>
    cases hrest
    exact ⟨hgroup, htopic⟩
  | tmp g tp p contents hg htp hgroup htopic =>
    obtain ⟨rfl, rfl, -⟩ := hrest
    exact ⟨hgroup, htopic⟩

end

/-- The lookups along a key's directories. -/
theorem take_dirs (root : Path) (key : OffsetKey) {k : Nat}
    (hk : k ≤ (root ++ [key.group, key.topic]).length) :
    k ≤ root.length ∧ (root ++ [key.group, key.topic]).take k = root.take k ∨
      (root ++ [key.group, key.topic]).take k = root ++ [key.group] ∨
      (root ++ [key.group, key.topic]).take k = root ++ [key.group, key.topic] := by
  rcases Nat.lt_or_ge root.length k with hlt | hge
  · simp only [length_append, length_cons, length_nil] at hk
    obtain rfl | rfl : k = root.length + 1 ∨ k = root.length + 2 := by omega
    · exact .inr (.inl (take_length_add_append 1))
    · exact .inr (.inr (take_length_add_append 2))
  · exact .inl ⟨hge, take_append_of_le_length hge⟩

section

variable (h : Represents root t m)

include h

/-- There is no file where a directory belongs. -/
theorem not_file_of_short {rest : Path} (hrest : rest ≠ [])
    (hlen : rest.length < 3) (contents : Bytes) :
    t.lookup (root ++ rest) ≠ some (.file contents) := by
  intro hfile
  have hdir := (h.shape rest _ hrest hfile).dir_iff.2.mpr hlen
  cases hdir

/-- The directories of a key are made. -/
theorem createDirs (hkey : key.Ok) :
    ∃ t', createDirAll t (root ++ [key.group, key.topic]) = .ok t' ∧ Represents root t' m ∧
      HasDirs root t' key ∧ SameOutside root t t' := by
  have hup : ".." ∉ root ++ [key.group, key.topic] :=
    h.up_below (by simp [hkey.group.ne_up, hkey.topic.ne_up])
  obtain ⟨t', hok, hmade, hkept⟩ := createFrom_spec t [] hup (by
    intro k hk _ contents
    rw [nil_append]
    rcases take_dirs root key hk with ⟨hle, htake⟩ | htake | htake
    · rw [htake, h.dirs k hle]
      nofun
    · rw [htake]
      exact h.not_file_of_short (by simp) (by simp) contents
    · rw [htake]
      exact h.not_file_of_short (by simp) (by simp) contents)
  have hdirs : HasDirs root t' key := by
    have hgroup := hmade (root.length + 1) (by simp) (by omega)
    have htopic := hmade (root.length + 2) (by simp) (by omega)
    rw [take_length_add_append] at hgroup htopic
    exact ⟨hgroup, htopic⟩
  -- Apart from the two directories, nothing has changed.
  have hsame (q : Path) (hgroup : q ≠ root ++ [key.group])
      (htopic : q ≠ root ++ [key.group, key.topic]) : t'.lookup q = t.lookup q := by
    refine (hkept q).resolve_right ?_
    rintro ⟨hnone, k, hk, rfl⟩
    rcases take_dirs root key hk with ⟨hle, htake⟩ | htake | htake
    · rw [nil_append, htake, h.dirs k hle] at hnone
      cases hnone
    · exact hgroup htake
    · exact htopic htake
  have hmono (q : Path) (hdir : t.lookup q = some .dir) : t'.lookup q = some .dir := by
    refine ((hkept q).resolve_right fun hnew => ?_).trans hdir
    cases hdir.symm.trans hnew.1
  refine ⟨t', hok, ⟨h.up, fun k hk => hmono _ (h.dirs k hk), ?_, ?_, h.keys⟩, hdirs, ?_⟩
  · intro rest node hrest hlookup
    by_cases hgroup : rest = [key.group]
    · subst hgroup
      rw [hdirs.group] at hlookup
      cases hlookup
      exact .group _ hkey.group
    by_cases htopic : rest = [key.group, key.topic]
    · subst htopic
      rw [hdirs.topic] at hlookup
      cases hlookup
      exact .topic _ _ hkey.group hkey.topic hdirs.group
    rw [hsame _ (fun hq => hgroup (append_cancel_left hq))
      (fun hq => htopic (append_cancel_left hq))] at hlookup
    exact (h.shape rest node hrest hlookup).congr fun dir _ _ _ => hmono _
  · intro key' hkey'
    rw [← h.entries key' hkey']
    exact hsame _ (key'.path_ne_short (by simp)) (key'.path_ne_short (by simp))
  · intro q hq
    exact hsame q (fun heq => hq (heq ▸ prefix_append _ _))
      (fun heq => hq (heq ▸ prefix_append _ _))

/-- A change of files only, to the files of another map. -/
theorem of_files {m' : OffsetMap}
    (hsame : ∀ q, (∀ rest, rest.length = 3 → q ≠ root ++ rest) → t'.lookup q = t.lookup q)
    (hshape : ∀ rest node, rest.length = 3 → t'.lookup (root ++ rest) = some node →
      Shape t root rest node) (hentries : ∀ key : OffsetKey, key.Ok →
      t'.lookup (key.path root) = (m' key).map fun e => .file e.encode)
    (hkeys : ∀ key e, m' key = some e → key.Ok ∧ e.Typed ∧ e.Fits) :
    Represents root t' m' ∧ SameOutside root t t' := by
  have hshort (rest : Path) (hlen : rest.length < 3) :
      t'.lookup (root ++ rest) = t.lookup (root ++ rest) := by
    refine hsame _ fun rest' hlen' heq => ?_
    have hlength := congrArg length (append_cancel_left heq)
    omega
  refine ⟨⟨h.up, fun k hk => ?_, fun rest node hrest hlookup => ?_, hentries, hkeys⟩, ?_⟩
  · rw [hsame _ fun rest hlen => take_ne_below (by rintro rfl; cases hlen) k]
    exact h.dirs k hk
  · have hold : Shape t root rest node := by
      by_cases hlen : rest.length = 3
      · exact hshape rest node hlen hlookup
      · rw [hsame _ fun rest' hlen' heq => hlen (by rwa [append_cancel_left heq])] at hlookup
        exact h.shape rest node hrest hlookup
    refine hold.congr fun dir hlen _ _ hdir => ?_
    have hthree := hold.dir_iff.1
    rw [hshort dir (by omega), hdir]
  · exact fun q hq => hsame q fun rest _ heq => hq (heq ▸ prefix_append _ _)

/-- A temporary file is nothing to the map. -/
theorem insertTmp (hkey : key.Ok) (hdirs : HasDirs root t key) (contents : Bytes) :
    Represents root (t.insert (key.tmpPath root) (.file contents)) m ∧
      SameOutside root t (t.insert (key.tmpPath root) (.file contents)) := by
  refine h.of_files (fun q hq => ?_) (fun rest node hlen hlookup => ?_) (fun key' hkey' => ?_) h.keys
  · exact lookup_insert_ne (hq _ rfl)
  · by_cases hrest : root ++ rest = key.tmpPath root
    · rw [hrest, lookup_insert] at hlookup
      cases hlookup
      rw [append_cancel_left hrest]
      exact .tmp _ _ _ _ hkey.group hkey.topic hdirs.group hdirs.topic
    · rw [lookup_insert_ne hrest] at hlookup
      exact h.shape rest node (by rintro rfl; cases hlen) hlookup
  · rw [lookup_insert_ne (OffsetKey.path_ne_tmpPath root key' key)]
    exact h.entries key' hkey'

/-- The temporary file takes the place of the key's entry. -/
theorem place {e : CommittedOffset} (hkey : key.Ok)
    (hdirs : HasDirs root t key) (htyped : e.Typed) (hfits : e.Fits) :
    Represents root ((t.erase (key.tmpPath root)).insert (key.path root) (.file e.encode))
        (update m key (some e)) ∧ SameOutside root t
        ((t.erase (key.tmpPath root)).insert (key.path root) (.file e.encode)) := by
  refine h.of_files (fun q hq => ?_) (fun rest node hlen hlookup => ?_) (fun key' hkey' => ?_)
    (fun key' e' hkey' => ?_)
  · have hpath : q ≠ key.path root := hq _ rfl
    have htmp : q ≠ key.tmpPath root := hq _ rfl
    rw [lookup_insert_ne hpath, lookup_erase_ne htmp]
  · by_cases hrest : root ++ rest = key.path root
    · rw [hrest, lookup_insert] at hlookup
      cases hlookup
      rw [append_cancel_left hrest]
      exact .entry _ _ _ _ hkey.partition hkey.group hkey.topic hdirs.group hdirs.topic
    · rw [lookup_insert_ne hrest] at hlookup
      by_cases htmp : root ++ rest = key.tmpPath root
      · rw [htmp, lookup_erase] at hlookup
        cases hlookup
      · rw [lookup_erase_ne htmp] at hlookup
        exact h.shape rest node (by rintro rfl; cases hlen) hlookup
  · by_cases heq : key' = key
    · rw [heq, lookup_insert, update_self]
      rfl
    · rw [lookup_insert_ne fun hpath => heq (OffsetKey.path_inj hpath),
        lookup_erase_ne (OffsetKey.path_ne_tmpPath root key' key),
        update_of_ne heq]
      exact h.entries key' hkey'
  · rcases Assoc.of_update hkey' with ⟨rfl, ⟨⟩⟩ | ⟨-, hkey'⟩
    · exact ⟨hkey, htyped, hfits⟩
    · exact h.keys key' e' hkey'

/-- A key's entry is removed. -/
theorem removeEntry (key : OffsetKey) :
    Represents root (t.erase (key.path root)) (update m key none) ∧
      SameOutside root t (t.erase (key.path root)) := by
  refine h.of_files (fun q hq => ?_) (fun rest node hlen hlookup => ?_) (fun key' hkey' => ?_)
    (fun key' e' hkey' => ?_)
  · exact lookup_erase_ne (hq _ rfl)
  · by_cases hrest : root ++ rest = key.path root
    · rw [hrest, lookup_erase] at hlookup
      cases hlookup
    · rw [lookup_erase_ne hrest] at hlookup
      exact h.shape rest node (by rintro rfl; cases hlen) hlookup
  · by_cases heq : key' = key
    · rw [heq, lookup_erase, update_self]
      rfl
    · rw [lookup_erase_ne fun hpath => heq (OffsetKey.path_inj hpath),
        update_of_ne heq]
      exact h.entries key' hkey'
  · obtain ⟨-, ⟨⟩⟩ | ⟨-, hkey'⟩ := Assoc.of_update hkey'
    exact h.keys key' e' hkey'

/-- An empty directory is nothing to the map. -/
theorem prune (rest : Path) (hup : ∀ name ∈ rest, name ≠ "..") (hrest : rest ≠ []) (hlen : rest.length < 3) :
    Represents root (OffsetStore.prune t (root ++ rest)) m ∧
      SameOutside root t (OffsetStore.prune t (root ++ rest)) := by
  rcases OffsetStore.prune_cases t (root ++ rest) with heq | ⟨place, hplace, hempty, heq⟩
  · rw [heq]
    exact ⟨h, fun q _ => rfl⟩
  obtain rfl : place = root ++ rest := by
    rcases walk_eq_or_none t [] (h.up_below hup) with hwalk | hwalk
    · exact Option.some.inj (hplace.symm.trans hwalk)
    · cases hplace.symm.trans hwalk
  rw [heq]
  -- Whatever is further below has a child of the directory above it.
  have hnone (rest' : Path) (node : Node) (hlookup : t.lookup (root ++ rest') = some node)
      (hbegins : rest <+: rest') (hlen' : rest.length < rest'.length) : False := by
    obtain ⟨more, rfl⟩ := hbegins
    cases more with
    | nil => simp at hlen'
    | cons name more =>
      have hsplit : rest ++ name :: more = rest ++ [name] ++ more := by simp
      have hassoc : root ++ (rest ++ [name]) = root ++ rest ++ [name] := by simp
      cases more with
      | nil =>
        rw [hassoc, hempty] at hlookup
        cases hlookup
      | cons next more =>
        have habove := (h.shape _ node (by simp) hlookup).above
          (hsplit ▸ prefix_append (rest ++ [name]) (next :: more)) (by simp) (by simp)
        rw [hassoc, hempty] at habove
        cases habove
  refine ⟨⟨h.up, fun k hk => ?_, fun rest' node hrest' hlookup => ?_, ?_, h.keys⟩, ?_⟩
  · rw [lookup_erase_ne (take_ne_below hrest k)]
    exact h.dirs k hk
  · have hne : root ++ rest' ≠ root ++ rest := by
      intro hsame
      rw [hsame, lookup_erase] at hlookup
      cases hlookup
    rw [lookup_erase_ne hne] at hlookup
    refine (h.shape rest' node hrest' hlookup).congr fun dir hshort _ hbegins hdir' => ?_
    rw [lookup_erase_ne, hdir']
    intro hsame
    rw [append_cancel_left hsame] at hshort hbegins
    exact hnone rest' node hlookup hbegins hshort
  · intro key hkey
    rw [lookup_erase_ne (key.path_ne_short hlen)]
    exact h.entries key hkey
  · exact fun q hq => lookup_erase_ne fun hsame => hq (hsame ▸ prefix_append _ _)

end

end Represents

end Volant.Broker
