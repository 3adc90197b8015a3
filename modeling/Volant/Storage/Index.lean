-- SUMMARY: The sparse index of a segment and its binary search.
import Volant.Core

/-!
# Sparse index

A segment remembers the file position of some of its records. A reader asks
for the last entry at or before the offset it wants and scans on from there.
-/

namespace Volant.Storage

structure IndexEntry where
  /-- `record.offset - base_offset` -/
  offsetDelta : Nat
  /-- Byte offset in the log file where the record begins. -/
  position : Nat
deriving DecidableEq, Repr

abbrev SparseIndex := List IndexEntry

namespace SparseIndex

/-- The loop of `lookup`. The interval at least halves in each round, so its length is enough
fuel. -/
def search (entries : SparseIndex) (targetDelta : Nat) : Nat → Nat → Nat → Nat
  | 0, lo, _ => lo
  | fuel + 1, lo, hi =>
    if lo < hi then
      let mid := lo + (hi - lo) / 2
      match entries[mid]? with
      | some e =>
        if e.offsetDelta ≤ targetDelta then search entries targetDelta fuel (mid + 1) hi
        else search entries targetDelta fuel lo mid
      -- Out of bounds would panic; `mid < hi ≤ entries.length` excludes it.
      | none => lo
    else lo

/-- Find the position of the greatest entry at or before `targetDelta`. -/
def lookup (entries : SparseIndex) (targetDelta : Nat) : Option Nat :=
  let lo := search entries targetDelta entries.length 0 entries.length
  -- The code's further test of the first entry cannot fail here: `lo = 0` means it is above.
  if lo = 0 then none else entries[lo - 1]?.map (·.position)

theorem search_entry {entries : SparseIndex} {target : Nat} {fuel lo hi : Nat}
    (h : lo = 0 ∨ ∃ e, entries[lo - 1]? = some e ∧ e.offsetDelta ≤ target) :
    let r := search entries target fuel lo hi
    r = 0 ∨ ∃ e, entries[r - 1]? = some e ∧ e.offsetDelta ≤ target := by
  induction fuel generalizing lo hi with
  | zero => exact h
  | succ fuel ih =>
    simp only [search]
    split
    · split
      · rename_i e he
        split
        · rename_i hle
          exact ih (.inr ⟨e, by simpa using he, hle⟩)
        · exact ih h
      · exact h
    · exact h

/-- What a lookup returns is the position of some entry at or before the target. -/
theorem lookup_mem {entries : SparseIndex} {target pos : Nat}
    (h : lookup entries target = some pos) :
    ∃ e ∈ entries, e.offsetDelta ≤ target ∧ e.position = pos := by
  have hs := @search_entry entries target entries.length 0 entries.length (.inl rfl)
  unfold lookup at h
  simp only at h hs
  split at h
  · cases h
  · rename_i hne
    obtain hz | ⟨e, he, hle⟩ := hs
    · exact absurd hz hne
    · rw [he] at h
      exact ⟨e, List.mem_of_getElem? he, hle, by simpa using h⟩

end SparseIndex

end Volant.Storage
