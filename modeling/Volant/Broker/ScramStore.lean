-- SUMMARY: The SCRAM credential store under concurrent calls, and what a reload finds.
import Mathlib.Logic.Function.Basic
import Mathlib.Tactic.SplitIfs

/-!
# SCRAM credentials

The credential store of `scram.rs`. A call changes the map under its lock and
then persists it: it takes a snapshot, writes the temporary file and renames it,
with nothing held in between. Nothing looks into a credential here, so its type
is left open, and a file is what it parses to.
-/

namespace Volant.Broker.Scram

open Function

inductive ScramHash where
  | sha256
  | sha512
deriving DecidableEq, Repr

structure UserCreds (C : Type) where
  sha256 : Option C
  sha512 : Option C
deriving DecidableEq, Repr

variable {C ι : Type}

namespace UserCreds

def get (creds : UserCreds C) : ScramHash → Option C
  | .sha256 => creds.sha256
  | .sha512 => creds.sha512

def set (creds : UserCreds C) (cred : Option C) : ScramHash → UserCreds C
  | .sha256 => { creds with sha256 := cred }
  | .sha512 => { creds with sha512 := cred }

def isEmpty (creds : UserCreds C) : Bool := creds.sha256.isNone && creds.sha512.isNone

end UserCreds

abbrev Users (C : Type) := String → Option (UserCreds C)

/-- A call, with the credentials it has derived. -/
inductive Call (C : Type) where
  | upsertUser (username : String) (sha256 sha512 : C)
  | deleteUser (username : String)
  | upsertFromSalted (username : String) (hash : ScramHash) (cred : C)
  | deleteMechanism (username : String) (hash : ScramHash)

/-- What a call does under the lock: the new map, if it has changed. -/
def Call.apply (users : Users C) : Call C → Option (Users C)
  | .upsertUser username sha256 sha512 =>
    some (update users username (some ⟨some sha256, some sha512⟩))
  | .deleteUser username => (users username).map fun _ => update users username none
  | .upsertFromSalted username hash cred =>
    some (update users username
      (some (((users username).getD ⟨none, none⟩).set (some cred) hash)))
  | .deleteMechanism username hash => do
    let creds ← users username
    let _ ← creds.get hash
    let creds := creds.set none hash
    return update users username (if creds.isEmpty then none else some creds)

/-- Where a call stands. -/
inductive Pc (C : Type) where
  | called (call : Call C)
  | changed
  | snapped (snap : Users C)
  | written (snap : Users C)
  | returned (ok : Bool)

/-- The call has not begun, or has returned with success. -/
def Pc.quiet : Pc C → Bool
  | .called _ => true
  | .returned ok => ok
  | _ => false

structure Store (C ι : Type) where
  users : Users C
  tmp : Option (Users C)
  file : Users C
  pcs : ι → Pc C

namespace Store

section

variable [DecidableEq ι]

def goto (s : Store C ι) (i : ι) (pc : Pc C) : Store C ι := { s with pcs := update s.pcs i pc }

/-- The next step of call `i`. A rename fails if another call has renamed the temporary file. Opening,
writing and syncing that file is one step, which calls that persist in turn cannot tell. -/
def step (s : Store C ι) (i : ι) : Store C ι :=
  match s.pcs i with
  | .called call =>
    match call.apply s.users with
    | none => s.goto i (.returned true)
    | some users => { s with users }.goto i .changed
  | .changed => s.goto i (.snapped s.users)
  | .snapped snap => { s with tmp := some snap }.goto i (.written snap)
  | .written _ =>
    match s.tmp with
    | none => s.goto i (.returned false)
    | some tmp => { s with file := tmp, tmp := none }.goto i (.returned true)
  | .returned _ => s

end

/-- A store that was opened, and calls that have not begun. -/
def opened (file : Users C) (tmp : Option (Users C)) (calls : ι → Call C) : Store C ι :=
  ⟨file, tmp, file, fun i => .called (calls i)⟩

/-- Every call that has begun has returned with success. -/
abbrev Quiet (s : Store C ι) : Prop := ∀ i, (s.pcs i).quiet = true

end Store

/-- The snapshot of a call that has not renamed it yet. -/
def Pc.snap? : Pc C → Option (Users C)
  | .snapped snap => some snap
  | .written snap => some snap
  | _ => none

namespace Store

/-- Call `i` does not take its snapshot while another call has one. -/
def Turn (s : Store C ι) (i : ι) : Prop := s.pcs i = .changed → ∀ j, (s.pcs j).snap? = none

/-- Each step is taken in turn. -/
def InTurn [DecidableEq ι] : Store C ι → List ι → Prop
  | _, [] => True
  | s, i :: is => s.Turn i ∧ InTurn (s.step i) is

structure Inv (s : Store C ι) : Prop where
  one : ∀ i j, (s.pcs i).snap? ≠ none → (s.pcs j).snap? ≠ none → i = j
  tmp : ∀ i snap, s.pcs i = .written snap → s.tmp = some snap
  snap : (∀ i, s.pcs i ≠ .changed) → ∀ i snap, (s.pcs i).snap? = some snap → snap = s.users
  file : (∀ i, s.pcs i ≠ .changed) → (∀ i, (s.pcs i).snap? = none) → s.file = s.users

variable {s : Store C ι} {i : ι}

theorem inv_opened (file : Users C) (tmp : Option (Users C)) (calls : ι → Call C) :
    Inv (opened file tmp calls) :=
  ⟨fun _ _ h => absurd rfl h, nofun, nofun, fun _ _ => rfl⟩

variable [DecidableEq ι]

theorem Inv.step (h : Inv s) (hturn : s.Turn i) : Inv (s.step i) := by
  obtain ⟨hone, htmp, hsnap, hfile⟩ := h
  unfold Store.step
  split
  next => split <;> constructor <;> simp only [goto, update_apply] <;> grind [Pc.snap?]
  -- the only snapshot is now that of the map
  next => constructor <;> simp only [goto, update_apply] <;> grind [Pc.snap?, Turn]
  next => constructor <;> simp only [goto, update_apply] <;> grind [Pc.snap?]
  -- the temporary file is the call's own
  next => split <;> constructor <;> simp only [goto, update_apply] <;> grind [Pc.snap?]
  next => exact ⟨hone, htmp, hsnap, hfile⟩

theorem Inv.run {is : List ι} (h : Inv s) (hturns : s.InTurn is) : Inv (is.foldl Store.step s) := by
  induction is generalizing s with
  | nil => exact h
  | cons i is ih => exact ih (h.step hturns.1) hturns.2

/-- When all calls have returned, a reload finds the map, if no two of them persisted at once. -/
theorem reload_eq_users (file : Users C) (tmp : Option (Users C)) (calls : ι → Call C)
    (is : List ι) (hturns : (opened file tmp calls).InTurn is)
    (hquiet : Quiet (is.foldl step (opened file tmp calls))) :
    (is.foldl step (opened file tmp calls)).file = (is.foldl step (opened file tmp calls)).users := by
  refine ((inv_opened file tmp calls).run hturns).file (fun i hpc => ?_) fun i => ?_
  · have hi := hquiet i
    rw [hpc] at hi
    cases hi
  · have hi := hquiet i
    revert hi
    cases (is.foldl step (opened file tmp calls)).pcs i <;> simp [Pc.quiet, Pc.snap?]

/-- One call adds a user and the other one deletes it. -/
def upsertDelete : Bool → Call Nat
  | false => .upsertUser "u" 1 2
  | true => .deleteUser "u"

theorem reload_eq_users_deleted :
    let s := [false, false, false, false, true, true, true, true].foldl step
      (opened (fun _ => none) none upsertDelete)
    s.file = s.users :=
  reload_eq_users _ _ _ _
    (by simp [InTurn, Turn, opened, step, goto, upsertDelete, Call.apply, Pc.snap?]) (by decide)

/-- A snapshot that was taken before the deletion is renamed after it. -/
theorem deleted_user_reloaded :
    let s := [false, false, true, true, true, true, false, false].foldl step
      (opened (fun _ => none) none upsertDelete)
    Quiet s ∧ s.users "u" = none ∧ s.file "u" = some ⟨some 1, some 2⟩ := by
  decide

end Store
end Volant.Broker.Scram
