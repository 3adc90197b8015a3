-- SUMMARY: A tree of directories and files, with the path operations a program uses on it.
import Volant.Base.Assoc
import Volant.Base.LittleEndian

/-!
# File trees

A tree maps a path, the names from the top down, to a directory or a file. A
path of a program is a list of names in which `..` stands for the directory
above; it is followed through directories that exist. There are no links. A
name may have any length here, where a file system refuses one over `nameMax`.
-/

namespace FileTree

open List

inductive Node where
  | dir
  | file (contents : Bytes)
deriving DecidableEq, Repr

abbrev Path := List String

/-- The bytes of the longest name that file systems take. -/
def nameMax : Nat := 255

abbrev Tree := AList fun _ : Path => Node

/-- A path and one more name. The names that stand for the directory itself vanish. -/
def join (path : Path) (name : String) : Path :=
  if name = "" ∨ name = "." then path else path ++ [name]

def display (path : Path) : String := "/" ++ String.intercalate "/" path

theorem toList_toString (n : Nat) : (toString n).toList = Nat.toDigits 10 n := by
  simp

/-- Different numbers are different names. -/
theorem toString_injective {n m : Nat} (h : toString n = toString m) : n = m := by
  have hdigits := congrArg String.toList h
  rw [toList_toString, toList_toString] at hdigits
  rw [← Nat.ofDigitChars_ten_toDigits (n := n), hdigits, Nat.ofDigitChars_ten_toDigits]

/-- Follows a path from the directory `at_`. -/
def walk (t : Tree) (at_ : Path) : Path → Option Path
  | [] => some at_
  | name :: rest =>
    if t.lookup at_ = some .dir then
      if name = ".." then walk t at_.dropLast rest else walk t (at_ ++ [name]) rest
    else none

/-- The place a path leads to. There may be nothing at it. -/
def locate (t : Tree) (path : Path) : Option Path := walk t [] path

/-- What a path leads to. -/
def find (t : Tree) (path : Path) : Option Node := (locate t path).bind t.lookup

def pathExists (t : Tree) (path : Path) : Bool := (find t path).isSome

/-- Makes the directories of a path that are missing, starting in `at_`. -/
def createFrom (t : Tree) (at_ : Path) : Path → Except String Tree
  | [] => .ok t
  | name :: rest =>
    if name = ".." then createFrom t at_.dropLast rest
    else
      match t.lookup (at_ ++ [name]) with
      | none => createFrom (t.insert (at_ ++ [name]) .dir) (at_ ++ [name]) rest
      | some .dir => createFrom t (at_ ++ [name]) rest
      | some (.file _) => .error "Not a directory (os error 20)"

def createDirAll (t : Tree) (path : Path) : Except String Tree := createFrom t [] path

/-- Opens a file for writing, and makes it empty. -/
def writeFile (t : Tree) (path : Path) (contents : Bytes) : Except String Tree :=
  match locate t path with
  | none => .error "No such file or directory (os error 2)"
  | some place =>
    match t.lookup place with
    | some .dir => .error "Is a directory (os error 21)"
    | _ => .ok (t.insert place (.file contents))

def readFile (t : Tree) (path : Path) : Except String Bytes :=
  match find t path with
  | none => .error "No such file or directory (os error 2)"
  | some .dir => .error "Is a directory (os error 21)"
  | some (.file contents) => .ok contents

/-- Moves a file, over another one if there is one. -/
def rename (t : Tree) (source target : Path) : Except String Tree :=
  match locate t source, locate t target with
  | some source, some target =>
    match t.lookup source with
    | some (.file contents) =>
      match t.lookup target with
      | some .dir => .error "Is a directory (os error 21)"
      | _ => .ok ((t.erase source).insert target (.file contents))
    | _ => .error "No such file or directory (os error 2)"
  | _, _ => .error "No such file or directory (os error 2)"

def removeFile (t : Tree) (path : Path) : Except String Tree :=
  match locate t path with
  | none => .error "No such file or directory (os error 2)"
  | some place =>
    match t.lookup place with
    | none => .error "No such file or directory (os error 2)"
    | some .dir => .error "Is a directory (os error 21)"
    | some (.file _) => .ok (t.erase place)

/-- The names in a directory, with what they stand for. -/
def childrenAt (t : Tree) (place : Path) : List (String × Node) :=
  t.entries.filterMap fun e =>
    match e.1.getLast? with
    | none => none
    | some name => if e.1.dropLast = place then some (name, e.2) else none

/-- Removes a directory that is empty. -/
def removeDir (t : Tree) (path : Path) : Except String Tree :=
  match locate t path with
  | none => .error "No such file or directory (os error 2)"
  | some place =>
    match t.lookup place with
    | some .dir =>
      if (childrenAt t place).isEmpty then .ok (t.erase place)
      else .error "Directory not empty (os error 39)"
    | _ => .error "Not a directory (os error 20)"

def readDir (t : Tree) (path : Path) : Except String (List (String × Node)) :=
  match locate t path with
  | none => .error "No such file or directory (os error 2)"
  | some place =>
    match t.lookup place with
    | some .dir => .ok (childrenAt t place)
    | _ => .error "Not a directory (os error 20)"

/-! ## Paths without `..` -/

variable {t : Tree} {at_ path : Path}

/-- Every proper beginning of the path, from `at_` on, is a directory. -/
def Leads (t : Tree) (at_ path : Path) : Prop :=
  ∀ k < path.length, t.lookup (at_ ++ path.take k) = some .dir

theorem walk_of_leads (hup : ".." ∉ path) (h : Leads t at_ path) :
    walk t at_ path = some (at_ ++ path) := by
  induction path generalizing at_ with
  | nil => simp [walk]
  | cons name rest ih =>
    obtain ⟨hname, hrest⟩ := not_or.mp (mt mem_cons.mpr hup)
    have hdir : t.lookup at_ = some .dir := by
      have hzero := h 0 (by simp)
      rwa [take_zero, append_nil] at hzero
    rw [walk, if_pos hdir, if_neg (Ne.symm hname), ih hrest, append_assoc, singleton_append]
    intro k hk
    have hnext := h (k + 1) (by simpa using hk)
    rwa [take_succ_cons, ← singleton_append, ← append_assoc] at hnext

/-- A path without `..` leads to its own place or nowhere. -/
theorem walk_eq_or_none (t : Tree) (at_ : Path) (hup : ".." ∉ path) :
    walk t at_ path = some (at_ ++ path) ∨ walk t at_ path = none := by
  induction path generalizing at_ with
  | nil => exact .inl (by simp [walk])
  | cons name rest ih =>
    obtain ⟨hname, hrest⟩ := not_or.mp (mt mem_cons.mpr hup)
    rw [walk]
    split_ifs with hdir heq
    · exact absurd heq.symm hname
    · have hnext := @ih (at_ ++ [name]) hrest
      rwa [append_assoc] at hnext
    · exact .inr rfl

theorem locate_of_leads (hup : ".." ∉ path) (h : Leads t [] path) : locate t path = some path :=
  walk_of_leads hup h

/-- Where nothing is, a path finds nothing, however far it gets. -/
theorem find_of_lookup_none (hup : ".." ∉ path) (h : t.lookup path = none) : find t path = none := by
  rw [find, locate]
  rcases walk_eq_or_none _ _ hup with heq | heq
  · rw [heq]
    exact h
  · rw [heq]
    rfl

/-- All directories of the path are there afterwards: those that were missing are made, and nothing
else changes. -/
theorem createFrom_spec (t : Tree) (at_ : Path) (hup : ".." ∉ path)
    (hfile : ∀ k ≤ path.length, 0 < k → ∀ contents,
      t.lookup (at_ ++ path.take k) ≠ some (.file contents)) :
    ∃ t', createFrom t at_ path = .ok t' ∧
      (∀ k ≤ path.length, 0 < k → t'.lookup (at_ ++ path.take k) = some .dir) ∧
      ∀ q, t'.lookup q = t.lookup q ∨
        (t.lookup q = none ∧ ∃ k ≤ path.length, q = at_ ++ path.take k) := by
  induction path generalizing at_ t with
  | nil => exact ⟨t, rfl, fun k hk hpos => absurd hk (by simpa using hpos.ne'), fun q => .inl rfl⟩
  | cons name rest ih =>
    obtain ⟨hname, hrest⟩ := not_or.mp (mt mem_cons.mpr hup)
    have hshift (k : Nat) : at_ ++ (name :: rest).take (k + 1) = at_ ++ [name] ++ rest.take k := by
      rw [take_succ_cons, append_assoc, singleton_append]
    have hhere := hfile 1 (by simp) (by omega)
    -- The directory is there or is made; either way it stays while the rest is made.
    obtain ⟨t₁, hcreate, hdir, hsame⟩ : ∃ t₁ : Tree,
        createFrom t at_ (name :: rest) = createFrom t₁ (at_ ++ [name]) rest ∧
        t₁.lookup (at_ ++ [name]) = some .dir ∧
        ∀ q, t₁.lookup q = t.lookup q ∨ (t.lookup q = none ∧ q = at_ ++ [name]) := by
      rw [createFrom, if_neg (Ne.symm hname)]
      split
      next hnone =>
        refine ⟨_, rfl, AList.lookup_insert _, fun q => ?_⟩
        by_cases hq : q = at_ ++ [name]
        · exact .inr ⟨hq ▸ hnone, hq⟩
        · exact .inl (AList.lookup_insert_ne hq)
      next hdir => exact ⟨t, rfl, hdir, fun q => .inl rfl⟩
      next contents hcontents => exact absurd hcontents (hhere contents)
    have hfree : ∀ k ≤ rest.length, 0 < k → ∀ contents,
        t₁.lookup (at_ ++ [name] ++ rest.take k) ≠ some (.file contents) := by
      intro k hk hpos contents hfound
      rcases hsame (at_ ++ [name] ++ rest.take k) with heq | ⟨-, heq⟩
      · rw [heq, ← hshift] at hfound
        exact hfile (k + 1) (by simpa using hk) (by omega) contents hfound
      · rw [heq, hdir] at hfound
        cases hfound
    obtain ⟨t', hok, hmade, hkept⟩ := ih _ _ hrest hfree
    refine ⟨t', hcreate.trans hok, fun k hk hpos => ?_, fun q => ?_⟩
    · obtain ⟨k, rfl⟩ : ∃ j, k = j + 1 := ⟨k - 1, by omega⟩
      rw [hshift]
      rcases Nat.eq_zero_or_pos k with rfl | hpos
      · rw [take_zero, append_nil]
        rcases hkept (at_ ++ [name]) with heq | ⟨hnone, -⟩
        · rw [heq, hdir]
        · cases hdir.symm.trans hnone
      · exact hmade k (by simpa using hk) hpos
    · rcases hkept q with heq | ⟨hnone, k, hk, rfl⟩
      · rcases hsame q with heq' | ⟨hnone, rfl⟩
        · exact .inl (heq.trans heq')
        · exact .inr ⟨hnone, 1, by simp, by simp⟩
      · refine .inr ⟨?_, k + 1, by simpa using hk, (hshift k).symm⟩
        rcases hsame _ with heq' | ⟨hnone', -⟩
        · exact heq'.symm.trans hnone
        · exact hnone'

/-- What a directory lists. -/
theorem mem_childrenAt {place : Path} {name : String} {node : Node} :
    (name, node) ∈ childrenAt t place ↔ t.lookup (place ++ [name]) = some node := by
  unfold childrenAt
  rw [mem_filterMap, ← Option.mem_def, AList.mem_lookup_iff]
  constructor
  · rintro ⟨⟨p, node'⟩, hmem, heq⟩
    split at heq
    next => cases heq
    next last hlast =>
      split_ifs at heq with hplace
      cases heq
      rw [← hplace, dropLast_append_getLast? name hlast]
      exact hmem
  · intro hmem
    exact ⟨_, hmem, by simp⟩

/-- A name is listed once. -/
theorem pairwise_childrenAt {place : Path} :
    (childrenAt t place).Pairwise fun a b => a.1 ≠ b.1 := by
  refine (nodupKeys_iff_pairwise.mp t.nodupKeys).filterMap _ fun e e' hne a ha b hb heq => ?_
  have hplace {e : Sigma fun _ : Path => Node} {a : String × Node}
      (ha : (match e.1.getLast? with
        | none => none
        | some name => if e.1.dropLast = place then some (name, e.2) else none) = some a) :
      e.1 = place ++ [a.1] := by
    split at ha
    next => cases ha
    next last hlast =>
      split_ifs at ha with hdir
      cases ha
      rw [← hdir, dropLast_append_getLast? last hlast]
  exact hne ((hplace ha).trans (heq ▸ (hplace hb).symm))

theorem childrenAt_isEmpty {place : Path} :
    (childrenAt t place).isEmpty = true ↔ ∀ name, t.lookup (place ++ [name]) = none := by
  rw [List.isEmpty_iff, eq_nil_iff_forall_not_mem]
  constructor
  · intro h name
    cases hlookup : t.lookup (place ++ [name]) with
    | none => rfl
    | some node => exact absurd (mem_childrenAt.mpr hlookup) (h (name, node))
  · rintro h ⟨name, node⟩ hmem
    have hlookup := mem_childrenAt.mp hmem
    rw [h name] at hlookup
    cases hlookup

end FileTree
