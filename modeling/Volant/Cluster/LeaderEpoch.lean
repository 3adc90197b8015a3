-- SUMMARY: The leader-epoch history of a partition, and where an epoch ends.
import Mathlib

/-!
# Leader epochs

A partition remembers at which offset each leader epoch began. An epoch ends
where the next stored one begins, and the last one at the high watermark.
Epochs are `u32`, offsets `u64`; the answer has them as `i32` and `i64`.
-/

namespace Volant.Cluster

open List

structure EpochStart where
  epoch : Nat
  startOffset : Nat
deriving DecidableEq, Repr

namespace LeaderEpoch

def asI32 (n : Nat) : Int := Int.bmod n (2 ^ 32)

def asI64 (n : Nat) : Int := Int.bmod n (2 ^ 64)

/-- The entries, with one for the epoch: the first write of an epoch wins. -/
def ensureEntry (entries : List EpochStart) (epoch startOffset : Nat) : List EpochStart :=
  if entries.any (·.epoch = epoch) then entries
  else (entries ++ [EpochStart.mk epoch startOffset]).insertionSort fun x y => x.epoch ≤ y.epoch

/-- The last position that satisfies the predicate. -/
def rposition {α : Type} (p : α → Bool) : List α → Option Nat
  | [] => none
  | x :: l =>
    match rposition p l with
    | some i => some (i + 1)
    | none => if p x then some 0 else none

/-- The epoch found for a requested one, and where it ends. -/
def endOffsetFor (entries : List EpochStart) (currentEpoch currentHwm : Nat) (requested : Int) :
    Option (Int × Int) :=
  if requested = -1 then some (asI32 currentEpoch, asI64 currentHwm)
  else if requested < 0 then none
  else
    let req := requested.toNat
    if currentEpoch < req then none
    else if req = currentEpoch then some (asI32 currentEpoch, asI64 currentHwm)
    else
      match rposition (·.epoch ≤ req) entries with
      | none =>
        match entries with
        -- the sentinel: an empty history counts as epoch 0 at offset 0
        | [] => some (0, asI64 currentHwm)
        | first :: rest =>
          some (asI32 first.epoch, asI64 (rest.head?.elim currentHwm (·.startOffset)))
      | some i =>
        entries[i]?.map fun found =>
          let end_ :=
            if found.epoch = currentEpoch then currentHwm
            else entries[i + 1]?.elim currentHwm (·.startOffset)
          (asI32 found.epoch, asI64 end_)

/-- The history that a sequence of calls leaves. -/
def history (calls : List EpochStart) : List EpochStart :=
  calls.foldl (fun entries c => ensureEntry entries c.epoch c.startOffset) []

/-! ## What is looked up -/

/-- An epoch that the partition knows of. -/
def Known (entries : List EpochStart) (currentEpoch e : Nat) : Prop :=
  e = currentEpoch ∨ ∃ x ∈ entries, x.epoch = e

/-- `e` is the largest known epoch up to the requested one, and `end_` where it ends. -/
structure Ends (entries : List EpochStart) (currentEpoch currentHwm requested e end_ : Nat) :
    Prop where
  known : Known entries currentEpoch e
  le : e ≤ requested
  largest : ∀ k, Known entries currentEpoch k → k ≤ requested → k ≤ e
  ends : (∃ x ∈ entries, e < x.epoch ∧ (∀ y ∈ entries, e < y.epoch → x.epoch ≤ y.epoch) ∧
    end_ = x.startOffset) ∨ ((∀ y ∈ entries, y.epoch ≤ e) ∧ end_ = currentHwm)

variable {entries : List EpochStart} {currentEpoch currentHwm requested e e' end_ end' : Nat}

theorem bmod_of_lt {n m : Nat} (h : 2 * n < m) : Int.bmod n m = n :=
  Int.bmod_eq_of_le_mul_two (by omega) (by omega)

theorem sorted_ensureEntry (h : entries.Pairwise (·.epoch < ·.epoch)) (epoch startOffset : Nat) :
    (ensureEntry entries epoch startOffset).Pairwise (·.epoch < ·.epoch) := by
  unfold ensureEntry
  split_ifs with hany
  · exact h
  · have hne : (entries ++ [EpochStart.mk epoch startOffset]).Pairwise (·.epoch ≠ ·.epoch) := by
      refine pairwise_append.mpr ⟨h.imp ne_of_lt, pairwise_singleton _ _, fun x hx y hy => ?_⟩
      rw [mem_singleton.mp hy]
      simp only [any_eq_true, decide_eq_true_eq, not_exists, not_and] at hany
      exact hany x hx
    have hne' := (perm_insertionSort (fun x y => x.epoch ≤ y.epoch) _).symm.pairwise hne Ne.symm
    exact ((pairwise_insertionSort _ _).and hne').imp fun h => h.1.lt_of_ne h.2

theorem sorted_history (calls : List EpochStart) : (history calls).Pairwise (·.epoch < ·.epoch) := by
  unfold history
  induction calls using reverseRecOn with
  | nil => exact .nil
  | append_singleton calls c ih =>
    rw [foldl_append]
    exact sorted_ensureEntry ih _ _

theorem rposition_spec {α : Type} (p : α → Bool) (l : List α) :
    match rposition p l with
    | none => ∀ x ∈ l, p x = false
    | some i => ∃ lo x hi, l = lo ++ x :: hi ∧ lo.length = i ∧ p x = true ∧ ∀ y ∈ hi, p y = false := by
  induction l with
  | nil => exact fun _ => nofun
  | cons x l ih =>
    rw [rposition]
    cases hpos : rposition p l with
    | some i =>
      rw [hpos] at ih
      obtain ⟨lo, y, hi, rfl, rfl, hy, hhi⟩ := ih
      exact ⟨x :: lo, y, hi, rfl, rfl, hy, hhi⟩
    | none =>
      rw [hpos] at ih
      cases hx : p x with
      | true => exact ⟨[], x, l, rfl, rfl, hx, ih⟩
      | false => simpa [hx] using ih

/-- The lookup finds what it should, up to the casts. -/
theorem exists_ends (currentHwm : Nat) (hsorted : entries.Pairwise (·.epoch < ·.epoch))
    (hcurrent : ∀ x ∈ entries, x.epoch ≤ currentEpoch) (hbound : requested < 2 ^ 31)
    (hle : requested ≤ currentEpoch)
    (hfirst : requested = currentEpoch ∨ ∃ x ∈ entries, x.epoch ≤ requested) :
    ∃ e end_ : Nat, Ends entries currentEpoch currentHwm requested e end_ ∧
      endOffsetFor entries currentEpoch currentHwm requested = some (↑e, asI64 end_) := by
  have hcast {e : Nat} (he : e ≤ requested) : asI32 e = e := bmod_of_lt (by omega)
  have hneg : ¬ (requested : Int) = -1 ∧ ¬ (requested : Int) < 0 := by omega
  simp only [endOffsetFor, hneg, if_false, Int.toNat_natCast, not_lt.mpr hle]
  rcases eq_or_ne requested currentEpoch with rfl | hne
  · rw [if_pos rfl, hcast le_rfl]
    exact ⟨requested, currentHwm, ⟨.inl rfl, le_rfl, fun _ _ hk => hk, .inr ⟨hcurrent, rfl⟩⟩, rfl⟩
  · rw [if_neg hne]
    have hspec := rposition_spec (fun x : EpochStart => decide (x.epoch ≤ requested)) entries
    cases hpos : rposition (fun x : EpochStart => decide (x.epoch ≤ requested)) entries with
    | none =>
      rw [hpos] at hspec
      obtain ⟨x, hx, hxle⟩ := hfirst.resolve_left hne
      exact absurd hxle (of_decide_eq_false (hspec x hx))
    | some i =>
      rw [hpos] at hspec
      obtain ⟨lo, x, hi, rfl, rfl, hx, hhi⟩ := hspec
      simp only [decide_eq_true_eq, decide_eq_false_iff_not, not_le] at hx hhi
      obtain ⟨-, hsorted, hlo⟩ := pairwise_append.mp hsorted
      obtain ⟨hxhi, hhis⟩ := pairwise_cons.mp hsorted
      have hsplit (y : EpochStart) (hy : y ∈ lo ++ x :: hi) : y.epoch ≤ x.epoch ∨ y ∈ hi := by
        rcases mem_append.mp hy with hy | hy
        · exact .inl (hlo y hy x mem_cons_self).le
        · exact (mem_cons.mp hy).imp_left fun heq : y = x => heq ▸ le_rfl
      refine ⟨x.epoch, hi.head?.elim currentHwm (·.startOffset),
        ⟨.inr ⟨x, by simp, rfl⟩, hx, ?_, ?_⟩, ?_⟩
      · rintro k (rfl | ⟨y, hy, rfl⟩) hk
        · omega
        · exact (hsplit y hy).resolve_right fun hy => (hhi y hy).not_ge hk
      · cases hi with
        | nil => exact .inr ⟨fun y hy => (hsplit y hy).resolve_right not_mem_nil, rfl⟩
        | cons z hi =>
          refine .inl ⟨z, by simp, hxhi z mem_cons_self, fun y hy hlt => ?_, rfl⟩
          rcases mem_cons.mp ((hsplit y hy).resolve_left hlt.not_ge) with rfl | hy
          · exact le_rfl
          · exact ((pairwise_cons.mp hhis).1 y hy).le
      · have hlast : x.epoch ≠ currentEpoch := by omega
        have hnext : (lo ++ x :: hi)[lo.length + 1]? = hi[0]? := by
          simp [getElem?_append_right (Nat.le_succ _)]
        simp [hnext, hlast, hcast hx, head?_eq_getElem?]

theorem Ends.mono {requested' : Nat}
    (hstarts : ∀ x ∈ entries, ∀ y ∈ entries, x.epoch ≤ y.epoch → x.startOffset ≤ y.startOffset)
    (hhwm : ∀ x ∈ entries, x.startOffset ≤ currentHwm)
    (h : Ends entries currentEpoch currentHwm requested e end_)
    (h' : Ends entries currentEpoch currentHwm requested' e' end') (hle : requested ≤ requested') :
    e ≤ e' ∧ end_ ≤ end' := by
  have hee : e ≤ e' := h'.largest e h.known (h.le.trans hle)
  refine ⟨hee, ?_⟩
  rcases h'.ends with ⟨x', hx', hlt', -, rfl⟩ | ⟨-, rfl⟩
  · rcases h.ends with ⟨x, hx, -, hnext, rfl⟩ | ⟨hlast, -⟩
    · exact hstarts x hx x' hx' (hnext x' hx' (hee.trans_lt hlt'))
    · exact absurd (hlast x' hx') (hee.trans_lt hlt').not_ge
  · rcases h.ends with ⟨x, hx, -, -, rfl⟩ | ⟨-, rfl⟩
    · exact hhwm x hx
    · exact le_rfl

/-- On a history whose start offsets go up with the epochs, an answer is the largest known epoch up
to the requested one, with the start of the next one or the high watermark as its end; and a later
epoch does not get an earlier answer. -/
theorem end_offset_of_largest_known (calls : List EpochStart) (currentEpoch currentHwm : Nat)
    (hstarts : ∀ x ∈ history calls, ∀ y ∈ history calls, x.epoch ≤ y.epoch →
      x.startOffset ≤ y.startOffset)
    (hhwm : ∀ x ∈ history calls, x.startOffset ≤ currentHwm) (hbound : currentHwm < 2 ^ 63)
    (hcurrent : ∀ x ∈ history calls, x.epoch ≤ currentEpoch) (requested : Nat)
    (hi32 : requested < 2 ^ 31) (hle : requested ≤ currentEpoch)
    (hfirst : requested = currentEpoch ∨ ∃ x ∈ history calls, x.epoch ≤ requested) :
    ∃ e end_ : Nat, Ends (history calls) currentEpoch currentHwm requested e end_ ∧
      endOffsetFor (history calls) currentEpoch currentHwm requested = some (↑e, ↑end_) ∧
      ∀ requested' : Nat, requested ≤ requested' → requested' < 2 ^ 31 →
        requested' ≤ currentEpoch → ∃ e' end' : Nat,
          endOffsetFor (history calls) currentEpoch currentHwm requested' = some (↑e', ↑end') ∧
            e ≤ e' ∧ end_ ≤ end' := by
  have hcast {requested e end_ : Nat}
      (h : Ends (history calls) currentEpoch currentHwm requested e end_) : asI64 end_ = end_ := by
    refine bmod_of_lt ?_
    rcases h.ends with ⟨x, hx, -, -, rfl⟩ | ⟨-, rfl⟩
    · have := hhwm x hx
      omega
    · omega
  have hsorted := sorted_history calls
  obtain ⟨e, end_, hends, heq⟩ := exists_ends currentHwm hsorted hcurrent hi32 hle hfirst
  refine ⟨e, end_, hends, hcast hends ▸ heq, fun requested' hge hi32' hle' => ?_⟩
  have hfirst' : requested' = currentEpoch ∨ ∃ x ∈ history calls, x.epoch ≤ requested' :=
    hfirst.elim (fun h => .inl (by omega)) fun ⟨x, hx, h⟩ => .inr ⟨x, hx, h.trans hge⟩
  obtain ⟨e', end', hends', heq'⟩ := exists_ends currentHwm hsorted hcurrent hi32' hle' hfirst'
  exact ⟨e', end', hcast hends' ▸ heq', hends.mono hstarts hhwm hends' hge⟩

/-- Epochs 0 and 2 are stored, the second call for 2 is ignored, and 3 is the current one. -/
theorem end_offset_of_epoch_one : history [⟨2, 7⟩, ⟨0, 0⟩, ⟨2, 9⟩] = [⟨0, 0⟩, ⟨2, 7⟩] ∧
      ∃ e end_ : Nat, Ends [⟨0, 0⟩, ⟨2, 7⟩] 3 20 1 e end_ ∧
        endOffsetFor [⟨0, 0⟩, ⟨2, 7⟩] 3 20 1 = some (↑e, ↑end_) := by
  obtain ⟨e, end_, hends, heq, -⟩ := end_offset_of_largest_known [⟨2, 7⟩, ⟨0, 0⟩, ⟨2, 9⟩] 3 20
    (by decide) (by decide) (by decide) (by decide) 1 (by decide) (by decide) (.inr (by decide))
  exact ⟨rfl, e, end_, hends, heq⟩

/-- From `2 ^ 63` on, the high watermark is negative in the answer, and a later epoch ends earlier. -/
theorem end_offset_wraps : endOffsetFor (history [⟨0, 0⟩, ⟨1, 5⟩]) 2 (2 ^ 63) 0 = some (0, 5) ∧
      endOffsetFor (history [⟨0, 0⟩, ⟨1, 5⟩]) 2 (2 ^ 63) 1 = some (1, -2 ^ 63) := by
  decide +kernel

end LeaderEpoch
end Volant.Cluster
