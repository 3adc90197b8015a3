-- SUMMARY: The offset store is a map from group, topic and partition to a committed offset, for plain names.
import Volant.Broker.OffsetFiles

/-!
# The offset store as a map

For plain names every operation does to the files what the operation on the
map says, and touches nothing outside the root. The sanitiser sends different
names to one, and it lets `..` through.
-/

namespace Volant.Broker

open FileTree List Function
open OffsetStore (rootIn)

variable {t : Tree} {dataDir : Path}

/-! ## The operations -/

theorem SameOutside.trans {root : Path} {t' t'' : Tree} (h : SameOutside root t t')
    (h' : SameOutside root t' t'') : SameOutside root t t'' :=
  fun q hq => (h' q hq).trans (h q hq)

theorem OffsetKey.Ok.entryPath {key : OffsetKey} (h : key.Ok) (root : Path) :
    OffsetStore.entryPath root key.group key.topic key.partition = key.path root := by
  rw [OffsetStore.entryPath, h.group.join, h.topic.join, join_toString, OffsetKey.path]
  simp

theorem OffsetKey.dropLast_path (root : Path) (key : OffsetKey) :
    (key.path root).dropLast = root ++ [key.group, key.topic] := by
  rw [OffsetKey.path, dropLast_append_of_ne_nil (by simp)]
  rfl

theorem OffsetKey.tmpPath_path (root : Path) (key : OffsetKey) :
    OffsetStore.tmpPath (key.path root) key.partition = key.tmpPath root := by
  rw [OffsetStore.tmpPath, OffsetKey.dropLast_path, append_assoc]
  rfl

namespace Represents

variable {root : Path} {t : Tree} {m : OffsetMap} {key : OffsetKey} {e : CommittedOffset}
  {g : String}

section

variable (h : Represents root t m)

include h

theorem locate_path (hkey : key.Ok) (hdirs : HasDirs root t key) :
    locate t (key.path root) = some (key.path root) :=
  locate_of_leads (h.up_notMem hkey (toString_ne (c := '.') (by decide) (by decide)))
    (h.leads hdirs _)

theorem locate_tmpPath (hkey : key.Ok) (hdirs : HasDirs root t key) :
    locate t (key.tmpPath root) = some (key.tmpPath root) := by
  refine locate_of_leads (h.up_notMem hkey ?_) (h.leads hdirs _)
  intro hname
  have hlen := congrArg (fun s => s.toList.length) hname
  simp [String.toList_append] at hlen

/-- There is no directory where a file belongs. -/
theorem not_dir_of_three {rest : Path} (hlen : rest.length = 3) :
    t.lookup (root ++ rest) ≠ some .dir := by
  intro hdir
  have hshort := (h.shape rest _ (by rintro rfl; cases hlen) hdir).dir_iff.2.mp rfl
  omega

theorem lookup_of_some (hm : m key = some e) :
    t.lookup (key.path root) = some (.file e.encode) := by
  rw [h.entries key (h.keys key e hm).1, hm, Option.map_some]

theorem writeFile_tmpPath (hkey : key.Ok) (hdirs : HasDirs root t key) (contents : Bytes) :
    writeFile t (key.tmpPath root) contents =
      .ok (t.insert (key.tmpPath root) (.file contents)) := by
  unfold writeFile
  rw [h.locate_tmpPath hkey hdirs]
  dsimp only
  split
  next hdir => exact absurd hdir (h.not_dir_of_three rfl)
  next => rfl

end

theorem HasDirs.insertTmp (hdirs : HasDirs root t key) (node : Node) :
    HasDirs root (t.insert (key.tmpPath root) node) key := by
  have hne (rest : Path) (hlen : rest.length < 3) : root ++ rest ≠ key.tmpPath root := by
    intro heq
    have hlength := congrArg length (append_cancel_left heq)
    simp only [length_cons, length_nil] at hlength
    omega
  exact ⟨by rw [AList.lookup_insert_ne (hne _ (by simp)), hdirs.group],
    by rw [AList.lookup_insert_ne (hne _ (by simp)), hdirs.topic]⟩

section

variable (h : Represents root t m)

include h

/-- A commit whose metadata fits sets its key; any other changes nothing. -/
theorem commit (hkey : key.Ok) (htyped : e.Typed) :
    ∃ t', OffsetStore.commitWithEpoch t root key.group key.topic key.partition e =
        (if e.Fits then .ok () else .error (.invalidArgument "offset metadata too long"), t') ∧
      Represents root t' (if e.Fits then update m key (some e) else m) ∧ SameOutside root t t' := by
  obtain ⟨t₁, hcreate, h₁, hdirs₁, hout₁⟩ := h.createDirs hkey
  obtain ⟨h₂, hout₂⟩ := h₁.insertTmp hkey hdirs₁ []
  have hdirs₂ := hdirs₁.insertTmp (.file [])
  have hwrite₂ := h₁.writeFile_tmpPath hkey hdirs₁ []
  unfold OffsetStore.commitWithEpoch
  rw [hkey.entryPath]
  dsimp only
  rw [OffsetKey.dropLast_path, OffsetKey.tmpPath_path, hcreate]
  dsimp only
  rw [hwrite₂]
  generalize t₁.insert (key.tmpPath root) (.file []) = t₂ at h₂ hdirs₂ hout₂ hwrite₂ ⊢
  dsimp only
  by_cases hfits : e.Fits
  · obtain ⟨h₃, hout₃⟩ := h₂.insertTmp hkey hdirs₂ e.encode
    have hdirs₃ := hdirs₂.insertTmp (.file e.encode)
    rw [if_neg (Nat.not_lt.mpr hfits), h₂.writeFile_tmpPath hkey hdirs₂]
    have htmp := AList.lookup_insert (a := key.tmpPath root) (b := Node.file e.encode) t₂
    generalize t₂.insert (key.tmpPath root) (.file e.encode) = t₃ at h₃ hdirs₃ hout₃ htmp ⊢
    obtain ⟨h₄, hout₄⟩ := h₃.place hkey hdirs₃ htyped hfits
    have hrename : rename t₃ (key.tmpPath root) (key.path root) =
        .ok ((t₃.erase (key.tmpPath root)).insert (key.path root) (.file e.encode)) := by
      unfold rename
      rw [h₃.locate_tmpPath hkey hdirs₃, h₃.locate_path hkey hdirs₃]
      dsimp only
      rw [htmp]
      dsimp only
      split
      next hdir => exact absurd hdir (h₃.not_dir_of_three rfl)
      next => rfl
    dsimp only
    rw [hrename, if_pos hfits, if_pos hfits]
    exact ⟨_, rfl, h₄, ((hout₁.trans hout₂).trans hout₃).trans hout₄⟩
  · rw [if_pos (Nat.lt_of_not_le hfits), if_neg hfits, if_neg hfits]
    exact ⟨_, rfl, h₂, hout₁.trans hout₂⟩

theorem find_of_some (hkey : key.Ok) (hm : m key = some e) :
    find t (key.path root) = some (.file e.encode) := by
  have hlookup := h.lookup_of_some hm
  rw [find, h.locate_path hkey (h.hasDirs_of_lookup hlookup), Option.bind_some, hlookup]

theorem find_of_none (hkey : key.Ok) (hm : m key = none) : find t (key.path root) = none := by
  have hlookup := h.entries key hkey
  rw [hm] at hlookup
  exact find_of_lookup_none (h.up_notMem hkey (toString_ne (c := '.') (by decide) (by decide)))
    hlookup

/-- A fetch reads the map. -/
theorem fetch (hkey : key.Ok) : OffsetStore.fetch t root key.group key.topic key.partition =
      .ok ((m key).getD OffsetStore.unknownOffset) := by
  unfold OffsetStore.fetch pathExists readFile
  rw [hkey.entryPath]
  dsimp only
  cases hm : m key with
  | none =>
    rw [h.find_of_none hkey hm]
    rfl
  | some e =>
    obtain ⟨-, htyped, hfits⟩ := h.keys key e hm
    rw [h.find_of_some hkey hm]
    exact OffsetStore.decodeEntry_encode htyped hfits _

/-- A delete says whether the key was there, and it is not there afterwards. -/
theorem delete (hkey : key.Ok) : ∃ t', OffsetStore.delete t root key.group key.topic key.partition =
        (.ok (m key).isSome, t') ∧
      Represents root t' (update m key none) ∧ SameOutside root t t' := by
  unfold OffsetStore.delete pathExists
  rw [hkey.entryPath]
  dsimp only
  rw [OffsetKey.dropLast_path]
  cases hm : m key with
  | none =>
    rw [h.find_of_none hkey hm]
    refine ⟨t, rfl, ?_, fun q _ => rfl⟩
    rw [← hm, update_eq_self]
    exact h
  | some e =>
    have hlookup := h.lookup_of_some hm
    have hremove : removeFile t (key.path root) = .ok (t.erase (key.path root)) := by
      unfold removeFile
      rw [h.locate_path hkey (h.hasDirs_of_lookup hlookup)]
      dsimp only
      rw [hlookup]
    obtain ⟨h₁, hout₁⟩ := h.removeEntry key
    obtain ⟨h₂, hout₂⟩ := h₁.prune [key.group, key.topic]
      (by simp [hkey.group.ne_up, hkey.topic.ne_up]) (by simp) (by simp)
    obtain ⟨h₃, hout₃⟩ := h₂.prune [key.group] (by simp [hkey.group.ne_up]) (by simp) (by simp)
    have hparent : (root ++ [key.group, key.topic]).dropLast = root ++ [key.group] := by
      rw [dropLast_append_of_ne_nil (by simp)]
      rfl
    rw [h.find_of_some hkey hm, hremove, hparent]
    exact ⟨_, rfl, h₃, (hout₁.trans hout₂).trans hout₃⟩

end

theorem mapM_eq_ok {α β ε : Type} {f : α → Except ε β} {g : α → β} {l : List α}
    (h : ∀ x ∈ l, f x = .ok (g x)) : l.mapM f = .ok (l.map g) := by
  induction l with
  | nil => rfl
  | cons x l ih =>
    rw [mapM_cons, h x mem_cons_self, ih fun y hy => h y (mem_cons_of_mem x hy)]
    rfl

/-- The listing of a topic's file, from the map. -/
def listing (m : OffsetMap) (g tp name : String) : List StoredOffset :=
  match parseU32 name with
  | none => []
  | some p => ((m ⟨g, tp, p⟩).map fun e => ⟨tp, p, e.offset, e.metadata, e.leaderEpoch⟩).toList

/-- No entry of the map has the offset that stands for none. -/
def Known (m : OffsetMap) : Prop := ∀ key e, m key = some e → e.offset ≠ offsetUnknown

section

variable (h : Represents root t m) (hknown : Known m)

include h hknown

variable {child : String × Node}

theorem fetchPart {tp : String} (hchild : child ∈ childrenAt t (root ++ [g, tp])) :
    OffsetStore.fetchPart t root g tp child = .ok (listing m g tp child.1) := by
  obtain ⟨name, node⟩ := child
  have hlookup := mem_childrenAt.mp hchild
  rw [append_assoc] at hlookup
  have hshape := h.shape _ node (by simp) hlookup
  generalize hrest : [g, tp] ++ [name] = rest at hshape
  cases hshape with
  | group g' hg => cases hrest
  | topic g' tp' hg htp hdir => cases hrest
  | entry g' tp' p contents hp hg htp hgroup htopic =>
    obtain ⟨rfl, rfl, rfl⟩ := hrest
    have hentry := h.entries ⟨g, tp, p⟩ ⟨hg, htp, hp⟩
    have hfetch := h.fetch (show OffsetKey.Ok ⟨g, tp, p⟩ from ⟨hg, htp, hp⟩)
    unfold OffsetStore.fetchPart listing
    rw [tmp_not_isSuffixOf, parseU32_toString hp]
    dsimp only
    rw [hfetch]
    cases hm : m ⟨g, tp, p⟩ with
    | none =>
      rw [hm] at hentry
      cases hentry.symm.trans hlookup
    | some e =>
      dsimp only [Option.getD_some, Except.bind, bind]
      rw [if_neg (hknown _ e hm)]
      rfl
  | tmp g' tp' p contents hg htp hgroup htopic =>
    obtain ⟨rfl, rfl, rfl⟩ := hrest
    unfold OffsetStore.fetchPart listing
    rw [tmp_isSuffixOf, parseU32_eq_none (c := '.') (by simp) (by decide) (by decide)]
    rfl

/-- The listing of a group, before it is sorted. -/
def groupListing (t : Tree) (m : OffsetMap) (root : Path) (g : String) : List StoredOffset :=
  (childrenAt t (root ++ [g])).flatMap fun topic =>
    (childrenAt t (root ++ [g, topic.1])).flatMap fun part => listing m g topic.1 part.1

theorem fetchTopic (hchild : child ∈ childrenAt t (root ++ [g])) :
    OffsetStore.fetchTopic t root g (root ++ [g]) child =
      .ok ((childrenAt t (root ++ [g, child.1])).flatMap fun part => listing m g child.1 part.1) := by
  obtain ⟨name, node⟩ := child
  have hlookup := mem_childrenAt.mp hchild
  rw [append_assoc] at hlookup
  have hshape := h.shape _ node (by simp) hlookup
  obtain rfl : node = .dir := hshape.dir_iff.2.mpr (by simp)
  have hup : ".." ∉ root ++ [g, name] := by
    cases hshape with
    | topic _ _ hg htp _ => exact h.up_below (by simp [hg.ne_up, htp.ne_up])
  have hlocate : locate t (root ++ [g, name]) = some (root ++ [g, name]) :=
    locate_of_leads hup (h.leads_below fun dir hbegins hne hlen => hshape.above hbegins hne hlen)
  have hread : readDir t (root ++ [g] ++ [name]) = .ok (childrenAt t (root ++ [g, name])) := by
    rw [append_assoc, singleton_append, readDir, hlocate]
    dsimp only
    rw [← singleton_append, hlookup]
  unfold OffsetStore.fetchTopic
  rw [hread]
  dsimp only
  rw [mapM_eq_ok fun part hpart => h.fetchPart hknown hpart]
  rfl

/-- The listing is that of the map. -/
theorem fetchAll_eq (hg : Plain g) : OffsetStore.fetchAll t root g =
      .ok ((groupListing t m root g).insertionSort (fun a b => a.le b = true)) := by
  have hup : ".." ∉ root ++ [g] := h.up_below (by simp [hg.ne_up])
  have hlocate : locate t (root ++ [g]) = some (root ++ [g]) :=
    locate_of_leads hup (h.leads_below fun dir _ hne hlen => by
      simp only [length_singleton, Nat.lt_one_iff, length_eq_zero_iff] at hlen
      exact absurd hlen hne)
  unfold OffsetStore.fetchAll pathExists find readDir
  rw [hg.join]
  dsimp only
  rw [hlocate, Option.bind_some]
  dsimp only
  cases hnode : t.lookup (root ++ [g]) with
  | none =>
    -- Without the group's directory nothing is below it.
    have hempty : childrenAt t (root ++ [g]) = [] := by
      rw [← List.isEmpty_iff, childrenAt_isEmpty]
      intro name
      cases hlookup : t.lookup (root ++ [g] ++ [name]) with
      | none => rfl
      | some node =>
        rw [append_assoc] at hlookup
        have habove := (h.shape _ node (by simp) hlookup).above (prefix_append [g] [name])
          (by simp) (by simp)
        cases hnode.symm.trans habove
    rw [groupListing, hempty]
    rfl
  | some node =>
    obtain rfl : node = .dir := (h.shape _ node (by simp) hnode).dir_iff.2.mpr (by simp)
    dsimp only
    rw [mapM_eq_ok fun child hchild => h.fetchTopic hknown hchild, groupListing]
    rfl

end

theorem mem_listing {tp name : String} {s : StoredOffset} :
    s ∈ listing m g tp name ↔ ∃ p e, parseU32 name = some p ∧ m ⟨g, tp, p⟩ = some e ∧
      s = ⟨tp, p, e.offset, e.metadata, e.leaderEpoch⟩ := by
  unfold listing
  cases parseU32 name with
  | none => simp
  | some p => simp [eq_comm]

theorem mem_groupListing (h : Represents root t m) {s : StoredOffset} :
    s ∈ groupListing t m root g ↔ ∃ tp p e, m ⟨g, tp, p⟩ = some e ∧
      s = ⟨tp, p, e.offset, e.metadata, e.leaderEpoch⟩ := by
  simp only [groupListing, mem_flatMap, mem_listing]
  constructor
  · rintro ⟨topic, -, part, -, p, e, -, hm, rfl⟩
    exact ⟨topic.1, p, e, hm, rfl⟩
  · rintro ⟨tp, p, e, hm, rfl⟩
    have hkey := (h.keys _ e hm).1
    have hlookup := h.lookup_of_some hm
    have hdirs := h.hasDirs_of_lookup hlookup
    have htopic : (tp, Node.dir) ∈ childrenAt t (root ++ [g]) := by
      rw [mem_childrenAt, append_assoc]
      exact hdirs.topic
    have hpart : (toString p, Node.file e.encode) ∈ childrenAt t (root ++ [g, tp]) := by
      rw [mem_childrenAt, append_assoc]
      exact hlookup
    exact ⟨_, htopic, _, hpart, p, e, parseU32_toString hkey.partition, hm, rfl⟩

theorem nodup_groupListing (h : Represents root t m) (g : String) :
    (groupListing t m root g).Nodup := by
  refine nodup_flatMap.mpr ⟨fun topic _ => nodup_flatMap.mpr ⟨fun part _ => ?_, ?_⟩, ?_⟩
  · unfold listing
    split
    next => exact nodup_nil
    next p _ =>
      cases m ⟨g, topic.1, p⟩ with
      | none => exact nodup_nil
      | some e => exact nodup_singleton _
  · -- Two files of a topic have different numbers.
    have hname {part : String × Node} (hpart : part ∈ childrenAt t (root ++ [g, topic.1])) {p : Nat}
        (hp : parseU32 part.1 = some p) : part.1 = toString p := by
      obtain ⟨name, node⟩ := part
      have hlookup := mem_childrenAt.mp hpart
      rw [append_assoc] at hlookup
      have hshape := h.shape _ node (by simp) hlookup
      cases hshape with
      | entry _ _ p' _ hp' _ _ _ _ =>
        rw [parseU32_toString hp'] at hp
        rw [Option.some.inj hp]
      | tmp _ _ p' _ _ _ _ _ =>
        rw [parseU32_eq_none (c := '.') (by simp) (by decide) (by decide)] at hp
        cases hp
    refine (pairwise_childrenAt (t := t)).imp_of_mem fun {part part'} hpart hpart' hne => ?_
    intro s hs hs'
    obtain ⟨p, e, hp, -, rfl⟩ := mem_listing.mp hs
    obtain ⟨p', e', hp', -, heq⟩ := mem_listing.mp hs'
    obtain rfl : p = p' := congrArg StoredOffset.partition heq
    exact hne ((hname hpart hp).trans (hname hpart' hp').symm)
  · refine (pairwise_childrenAt (t := t)).imp fun {topic topic'} hne => ?_
    intro s hs hs'
    obtain ⟨part, -, hpart⟩ := mem_flatMap.mp hs
    obtain ⟨part', -, hpart'⟩ := mem_flatMap.mp hs'
    obtain ⟨p, e, -, -, rfl⟩ := mem_listing.mp hpart
    obtain ⟨p', e', -, -, heq⟩ := mem_listing.mp hpart'
    exact hne (congrArg StoredOffset.topic heq)

/-- A group's listing is sorted and has exactly the group's entries. -/
theorem fetchAll (h : Represents root t m) (hknown : Known m) (hg : Plain g) :
    ∃ l, OffsetStore.fetchAll t root g = .ok l ∧ l.Nodup ∧ l.Pairwise (fun a b => a.le b = true) ∧
      ∀ s, s ∈ l ↔ ∃ tp p e, m ⟨g, tp, p⟩ = some e ∧
        s = ⟨tp, p, e.offset, e.metadata, e.leaderEpoch⟩ := by
  refine ⟨_, h.fetchAll_eq hknown hg, ?_, pairwise_insertionSort _ _, fun s => ?_⟩
  · exact (perm_insertionSort _ _).nodup_iff.mpr (h.nodup_groupListing g)
  · rw [mem_insertionSort, h.mem_groupListing]

/-- Opening the store again finds it as it was left. -/
theorem reopen {dataDir : Path} (h : Represents (rootIn dataDir) t m) :
    ∃ t', OffsetStore.new t dataDir = .ok t' ∧ Represents (rootIn dataDir) t' m ∧
      SameOutside (rootIn dataDir) t t' := by
  obtain ⟨t', hok, -, hkept⟩ := createFrom_spec t [] h.up (by
    intro k hk _ contents
    rw [nil_append, h.dirs k hk]
    nofun)
  have hsame (q : Path) : t'.lookup q = t.lookup q := by
    refine (hkept q).resolve_right ?_
    rintro ⟨hnone, k, hk, rfl⟩
    cases (h.dirs k hk).symm.trans hnone
  have hnew : OffsetStore.new t dataDir = .ok t' := by
    unfold OffsetStore.new createDirAll
    rw [hok]
  refine ⟨t', hnew, ⟨h.up, fun k hk => by rw [hsame, h.dirs k hk], fun rest node hrest hlookup => ?_,
    fun key hkey => by rw [hsame, h.entries key hkey], h.keys⟩, fun q _ => hsame q⟩
  rw [hsame] at hlookup
  exact (h.shape rest node hrest hlookup).congr fun dir _ _ _ hdir => by rw [hsame, hdir]

end Represents

/-! ## Runs -/

inductive StoreOp where
  | commit (key : OffsetKey) (entry : CommittedOffset)
  | delete (key : OffsetKey)
  | reopen
deriving DecidableEq

inductive StoreReply where
  | commit (result : Except Error Unit)
  | delete (result : Except Error Bool)
  | reopen (result : Except Error Unit)

/-- One operation on the files. -/
def StoreOp.exec (dataDir : Path) (t : Tree) : StoreOp → StoreReply × Tree
  | .commit key entry =>
    let r := OffsetStore.commitWithEpoch t (rootIn dataDir) key.group key.topic
      key.partition entry
    (.commit r.1, r.2)
  | .delete key =>
    let r := OffsetStore.delete t (rootIn dataDir) key.group key.topic key.partition
    (.delete r.1, r.2)
  | .reopen =>
    match OffsetStore.new t dataDir with
    | .error e => (.reopen (.error e), t)
    | .ok t => (.reopen (.ok ()), t)

/-- What the operation is for: one key of the map is set or removed. -/
def StoreOp.onMap (m : OffsetMap) : StoreOp → StoreReply × OffsetMap
  | .commit key entry =>
    if entry.Fits then (.commit (.ok ()), update m key (some entry))
    else (.commit (.error (.invalidArgument "offset metadata too long")), m)
  | .delete key => (.delete (.ok (m key).isSome), update m key none)
  | .reopen => (.reopen (.ok ()), m)

/-- Runs the operations in order. -/
def runOps {σ : Type} (step : σ → StoreOp → StoreReply × σ) (s : σ) :
    List StoreOp → List StoreReply × σ
  | [] => ([], s)
  | op :: ops =>
    let r := step s op
    let rest := runOps step r.2 ops
    (r.1 :: rest.1, rest.2)

/-- The names are their own file names, the numbers have their widths, and the offset is not the one
that stands for none. -/
def StoreOp.Clean : StoreOp → Prop
  | .commit key entry => key.Ok ∧ entry.Typed ∧ entry.offset ≠ offsetUnknown
  | .delete key => key.Ok
  | .reopen => True

/-- One operation does to the files what it does to the map. -/
theorem StoreOp.exec_refines {m : OffsetMap} {op : StoreOp}
    (h : Represents (rootIn dataDir) t m) (hknown : Represents.Known m)
    (hclean : op.Clean) : (op.exec dataDir t).1 = (op.onMap m).1 ∧
      Represents (rootIn dataDir) (op.exec dataDir t).2 (op.onMap m).2 ∧
      Represents.Known (op.onMap m).2 ∧ SameOutside (rootIn dataDir) t (op.exec dataDir t).2 := by
  cases op with
  | commit key entry =>
    obtain ⟨hkey, htyped, hoffset⟩ := hclean
    obtain ⟨t', hexec, hrep, hout⟩ := h.commit hkey htyped
    simp only [StoreOp.exec, StoreOp.onMap, hexec]
    by_cases hfits : entry.Fits
    · simp only [if_pos hfits] at hrep ⊢
      refine ⟨trivial, hrep, fun key' e' hm => ?_, hout⟩
      rcases Assoc.of_update hm with ⟨-, ⟨⟩⟩ | ⟨-, hm⟩
      · exact hoffset
      · exact hknown key' e' hm
    · simp only [if_neg hfits] at hrep ⊢
      exact ⟨trivial, hrep, hknown, hout⟩
  | delete key =>
    obtain ⟨t', hexec, hrep, hout⟩ := h.delete hclean
    simp only [StoreOp.exec, StoreOp.onMap, hexec]
    refine ⟨trivial, hrep, fun key' e' hm => ?_, hout⟩
    obtain ⟨-, ⟨⟩⟩ | ⟨-, hm⟩ := Assoc.of_update hm
    exact hknown key' e' hm
  | reopen =>
    obtain ⟨t', hexec, hrep, hout⟩ := h.reopen
    simp only [StoreOp.exec, StoreOp.onMap, hexec]
    exact ⟨trivial, hrep, hknown, hout⟩

/-- The data directory is there, and nothing is where the store goes. -/
structure Vacant (t : Tree) (dataDir : Path) : Prop where
  up : ".." ∉ dataDir
  dirs : ∀ k ≤ dataDir.length, t.lookup (dataDir.take k) = some .dir
  vacant : ∀ rest, t.lookup (rootIn dataDir ++ rest) = none

theorem OffsetStore.rootIn_take {k : Nat} (hk : k ≤ dataDir.length) :
    (rootIn dataDir).take k = dataDir.take k :=
  take_append_of_le_length hk

/-- A new store is empty. -/
theorem Vacant.represents_new (h : Vacant t dataDir) : ∃ t', OffsetStore.new t dataDir = .ok t' ∧
      Represents (rootIn dataDir) t' (fun _ => none) ∧ SameOutside (rootIn dataDir) t t' := by
  have hlength : (rootIn dataDir).length = dataDir.length + 1 := by
    simp [rootIn]
  have hup : ".." ∉ rootIn dataDir := by
    rw [rootIn, mem_append, not_or]
    exact ⟨h.up, by decide⟩
  -- A beginning of the root is a directory already, or the root itself.
  have hcases (k : Nat) (hk : k ≤ (rootIn dataDir).length) :
      t.lookup ((rootIn dataDir).take k) = some .dir ∨
        (rootIn dataDir).take k = rootIn dataDir := by
    rcases Nat.lt_or_ge dataDir.length k with hlt | hge
    · exact .inr (take_of_length_le (by omega))
    · exact .inl (by rw [OffsetStore.rootIn_take hge, h.dirs k hge])
  have hroot : t.lookup (rootIn dataDir) = none := by
    have hvacant := h.vacant []
    rwa [append_nil] at hvacant
  obtain ⟨t', hok, hmade, hkept⟩ := createFrom_spec t [] hup (by
    intro k hk _ contents
    rw [nil_append]
    rcases hcases k hk with hdir | heq
    · rw [hdir]
      nofun
    · rw [heq, hroot]
      nofun)
  have hsame (q : Path) (hq : q ≠ rootIn dataDir) : t'.lookup q = t.lookup q := by
    refine (hkept q).resolve_right ?_
    rintro ⟨hnone, k, hk, rfl⟩
    cases ((hcases k hk).resolve_right hq).symm.trans hnone
  have hbelow (rest : Path) (hrest : rest ≠ []) :
      t'.lookup (rootIn dataDir ++ rest) = none := by
    rw [hsame _ fun heq => hrest (by simpa using heq), h.vacant]
  refine ⟨t', by rw [OffsetStore.new, createDirAll, hok], ⟨hup, fun k hk => ?_, ?_, ?_, nofun⟩, ?_⟩
  · by_cases hroot' : (rootIn dataDir).take k = rootIn dataDir
    · have hdir := hmade (dataDir.length + 1) (by omega) (by omega)
      rw [nil_append, take_of_length_le (by omega)] at hdir
      rw [hroot', hdir]
    · rw [hsame _ hroot']
      exact (hcases k hk).resolve_right hroot'
  · intro rest node hrest hlookup
    rw [hbelow rest hrest] at hlookup
    cases hlookup
  · exact fun key _ => hbelow _ (by simp)
  · exact fun q hq => hsame q fun heq => hq (heq ▸ prefix_rfl)

/-- A run on the files is the run on the map. -/
theorem runOps_refines {m : OffsetMap} {ops : List StoreOp}
    (h : Represents (rootIn dataDir) t m) (hknown : Represents.Known m)
    (hclean : ∀ op ∈ ops, op.Clean) :
    (runOps (StoreOp.exec dataDir) t ops).1 = (runOps StoreOp.onMap m ops).1 ∧
      Represents (rootIn dataDir) (runOps (StoreOp.exec dataDir) t ops).2
        (runOps StoreOp.onMap m ops).2 ∧ Represents.Known (runOps StoreOp.onMap m ops).2 ∧
      SameOutside (rootIn dataDir) t (runOps (StoreOp.exec dataDir) t ops).2 := by
  induction ops generalizing t m with
  | nil => exact ⟨rfl, h, hknown, fun q _ => rfl⟩
  | cons op ops ih =>
    obtain ⟨hreply, hrep, hknown', hout⟩ :=
      StoreOp.exec_refines h hknown (hclean op mem_cons_self)
    obtain ⟨hreplies, hrest, hknown'', hout'⟩ :=
      ih hrep hknown' fun op' hop' => hclean op' (mem_cons_of_mem op hop')
    exact ⟨by rw [runOps, runOps, hreply, hreplies], hrest, hknown'', hout.trans hout'⟩

/-- In every run with plain names the store is the map: every operation answers as the map does, a
fetch reads the map, a group's listing has exactly the group's entries, and nothing outside the
store's directory changes. -/
theorem OffsetStore.refines_map {dataDir : Path} {t : Tree} {ops : List StoreOp}
    (hvacant : Vacant t dataDir) (hclean : ∀ op ∈ ops, op.Clean) :
    (runOps (StoreOp.exec dataDir) t (.reopen :: ops)).1 =
        (runOps StoreOp.onMap (fun _ => none) (.reopen :: ops)).1 ∧ (∀ key : OffsetKey, key.Ok →
        OffsetStore.fetch (runOps (StoreOp.exec dataDir) t (.reopen :: ops)).2 (rootIn dataDir)
            key.group key.topic key.partition =
          .ok (((runOps StoreOp.onMap (fun _ => none) (.reopen :: ops)).2 key).getD
            unknownOffset)) ∧ (∀ g, Plain g → ∃ l,
        OffsetStore.fetchAll (runOps (StoreOp.exec dataDir) t (.reopen :: ops)).2 (rootIn dataDir)
            g = .ok l ∧ l.Nodup ∧ l.Pairwise (fun a b => a.le b = true) ∧ ∀ s, s ∈ l ↔ ∃ tp p e,
            (runOps StoreOp.onMap (fun _ => none) (.reopen :: ops)).2 ⟨g, tp, p⟩ = some e ∧
              s = ⟨tp, p, e.offset, e.metadata, e.leaderEpoch⟩) ∧
      SameOutside (rootIn dataDir) t (runOps (StoreOp.exec dataDir) t (.reopen :: ops)).2 := by
  obtain ⟨t', hnew, hrep, hout⟩ := hvacant.represents_new
  have hfirst : StoreOp.exec dataDir t .reopen = (.reopen (.ok ()), t') := by
    simp [StoreOp.exec, hnew]
  obtain ⟨hreplies, hrest, hknown, hout'⟩ := runOps_refines hrep nofun hclean
  simp only [runOps, hfirst]
  refine ⟨by rw [hreplies]; rfl, fun key hkey => hrest.fetch hkey, fun g hg => hrest.fetchAll hknown hg,
    hout.trans hout'⟩

/-- A data directory and nothing else. -/
def dataOnly : Tree := ((∅ : Tree).insert [] .dir).insert ["data"] .dir

theorem dataOnly_vacant : Vacant dataOnly ["data"] where
  up := by decide
  dirs := by decide +kernel
  vacant := by
    intro rest
    rfl

/-- Two commits and a delete between them, on two keys. -/
theorem OffsetStore.refines_map_orders : OffsetStore.fetch (runOps (StoreOp.exec ["data"]) dataOnly
        [.reopen, .commit ⟨"audit", "orders", 0⟩ ⟨5, "m", 2⟩,
          .commit ⟨"audit", "orders", 1⟩ ⟨9, "", -1⟩, .delete ⟨"audit", "orders", 1⟩, .reopen]).2
      (rootIn ["data"]) "audit" "orders" 0 = .ok ⟨5, "m", 2⟩ := by
  have hclean : ∀ op ∈ ([.commit ⟨"audit", "orders", 0⟩ ⟨5, "m", 2⟩,
      .commit ⟨"audit", "orders", 1⟩ ⟨9, "", -1⟩, .delete ⟨"audit", "orders", 1⟩, .reopen] :
        List StoreOp), op.Clean := by
    have hgroup : Plain "audit" := by decide +kernel
    have htopic : Plain "orders" := by decide +kernel
    have hkey (p : Nat) (hp : p < 2 ^ 32) : OffsetKey.Ok ⟨"audit", "orders", p⟩ :=
      ⟨hgroup, htopic, hp⟩
    intro op hop
    simp only [mem_cons, not_mem_nil, or_false] at hop
    rcases hop with rfl | rfl | rfl | rfl
    · exact ⟨hkey 0 (by decide), ⟨by decide, by decide, by decide⟩, by decide⟩
    · exact ⟨hkey 1 (by decide), ⟨by decide, by decide, by decide⟩, by decide⟩
    · exact hkey 1 (by decide)
    · trivial
  have hrefines := OffsetStore.refines_map dataOnly_vacant hclean
  exact (hrefines.2.1 ⟨"audit", "orders", 0⟩ ⟨by decide +kernel, by decide +kernel, by decide⟩).trans
    (by decide +kernel)

/-- A commit for the group `a_b` is read back for the group `a/b`, and one for the group `..` is
written outside the store's directory. -/
theorem OffsetStore.slash_is_underscore :
    (OffsetStore.fetch (runOps (StoreOp.exec ["data"]) dataOnly
          [.reopen, .commit ⟨"a/b", "orders", 0⟩ ⟨5, "", -1⟩,
            .commit ⟨"a_b", "orders", 0⟩ ⟨7, "", -1⟩]).2
        (rootIn ["data"]) "a/b" "orders" 0 = .ok ⟨7, "", -1⟩ ∧
      (runOps StoreOp.onMap (fun _ => none) [.reopen, .commit ⟨"a/b", "orders", 0⟩ ⟨5, "", -1⟩,
          .commit ⟨"a_b", "orders", 0⟩ ⟨7, "", -1⟩]).2 ⟨"a/b", "orders", 0⟩ = some ⟨5, "", -1⟩) ∧
    dataOnly.lookup ["0"] = none ∧ (runOps (StoreOp.exec ["data"]) dataOnly
        [.reopen, .commit ⟨"..", "..", 0⟩ ⟨5, "", -1⟩]).2.lookup ["0"] ≠ none ∧
      ¬ rootIn ["data"] <+: ["0"] := by
  refine ⟨⟨by decide +kernel, by decide +kernel⟩, by decide +kernel, by decide +kernel, by decide⟩

end Volant.Broker
