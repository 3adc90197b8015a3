-- SUMMARY: The view that a list of keyed writes leaves when the last write to a key wins.
import Mathlib.Tactic

/-!
# Last write wins

A list of writes, read from the front, leaves a view of the keys. A write may
carry no key, and then it changes nothing; it may carry no value, and then it
removes its key. Two lists have the same view if their last writes to each key
agree; for a list in which all writes to a key agree, any of them will do.
-/

namespace LastWrite

variable {ρ κ ν : Type} [DecidableEq κ] (key : ρ → Option κ) (val : ρ → Option ν)

def write (view : κ → Option ν) (r : ρ) : κ → Option ν :=
  match key r with
  | none => view
  | some k => Function.update view k (val r)

def fold (rs : List ρ) : κ → Option ν := rs.foldl (write key val) fun _ => none

variable {key val}

theorem fold_concat (rs : List ρ) (r : ρ) :
    fold key val (rs ++ [r]) = write key val (fold key val rs) r := by
  simp [fold]

/-- What follows sees only the view of what comes before. -/
theorem fold_append_congr {rs rs' : List ρ} (h : fold key val rs = fold key val rs')
    (ts : List ρ) : fold key val (rs ++ ts) = fold key val (rs' ++ ts) := by
  unfold fold at h ⊢
  rw [List.foldl_append, List.foldl_append, h]

variable {k : κ} {view : κ → Option ν}

theorem write_of_key {r : ρ} (h : key r = some k) :
    write key val view r = Function.update view k (val r) := by
  rw [write, h]

theorem write_of_ne {r : ρ} (h : key r ≠ some k) : write key val view r k = view k := by
  cases hk : key r with
  | none => rw [write, hk]
  | some k' =>
    rw [write_of_key hk]
    exact Function.update_of_ne (fun hc => h (by rw [hk, hc])) _ _

theorem fold_of_absent {rs : List ρ} (h : ∀ r ∈ rs, key r ≠ some k) : fold key val rs k = none := by
  induction rs using List.reverseRecOn with
  | nil => rfl
  | append_singleton rs r ih =>
    rw [fold_concat, write_of_ne (h r (by simp))]
    exact ih fun t ht => h t (by simp [ht])

theorem fold_of_agree {rs : List ρ} {r : ρ} (hr : r ∈ rs) (hk : key r = some k)
    (h : ∀ t ∈ rs, key t = some k → val t = val r) : fold key val rs k = val r := by
  induction rs using List.reverseRecOn with
  | nil => cases hr
  | append_singleton rs t ih =>
    rw [fold_concat]
    by_cases ht : key t = some k
    · rw [write_of_key ht, Function.update_self]
      exact h t (by simp) ht
    · rw [write_of_ne ht]
      rcases List.mem_append.mp hr with hold | hnew
      · exact ih hold fun u hu => h u (by simp [hu])
      · rw [List.mem_singleton.mp hnew] at hk
        exact absurd hk ht

end LastWrite
