-- SUMMARY: Counting threads by program counter, runs of interleaved threads, and liveness under strong fairness.
import Mathlib.Algebra.BigOperators.Ring.Finset
import Mathlib.Data.Fintype.BigOperators
import Mathlib.Tactic

/-!
# Threads

A system of threads assigns each thread a program counter. `census f p` adds
up a weight over all threads; with weights 0 and 1 it counts the threads at
some program counters. Invariants of the form "this counter equals that
census" are preserved step by step with `census_update`.

A `Run` interleaves the threads: at every moment one thread takes one action,
or the environment moves. `Run.invariant` proves safety; `Run.eventually_of_rank`
proves that something happens, from a rank that a helpful thread decreases.
-/

namespace Threads

variable {ι α : Type} [Fintype ι]

def census (f : α → Nat) (p : ι → α) : Nat := ∑ i, f (p i)

variable {f : α → Nat}

theorem census_congr {p q : ι → α} (h : ∀ i, f (p i) = f (q i)) : census f p = census f q :=
  Finset.sum_congr rfl fun i _ => h i

theorem le_census (f : α → Nat) (p : ι → α) (i : ι) : f (p i) ≤ census f p :=
  Finset.single_le_sum (f := fun j => f (p j)) (fun _ _ => Nat.zero_le _) (Finset.mem_univ i)

theorem exists_of_census_pos {p : ι → α} (h : 0 < census f p) : ∃ i, 0 < f (p i) := by
  by_contra hno
  push Not at hno
  have hzero : census f p = 0 := Finset.sum_eq_zero fun i _ => Nat.le_zero.mp (hno i)
  omega

variable [DecidableEq ι]

/-- Moving one thread changes the census by the difference of its weights. -/
theorem census_update (f : α → Nat) (p : ι → α) (i : ι) (x : α) :
    census f (Function.update p i x) + f (p i) = census f p + f x := by
  have hnew := Finset.add_sum_erase Finset.univ (fun j => f (Function.update p i x j))
    (Finset.mem_univ i)
  have hold := Finset.add_sum_erase Finset.univ (fun j => f (p j)) (Finset.mem_univ i)
  have hrest : ∑ j ∈ Finset.univ.erase i, f (Function.update p i x j) =
      ∑ j ∈ Finset.univ.erase i, f (p j) := by
    refine Finset.sum_congr rfl fun j hj => ?_
    rw [Function.update_of_ne (Finset.ne_of_mem_erase hj)]
  simp only [Function.update_self] at hnew
  unfold census
  omega

/-- Two threads of positive weight weigh at least two together. -/
theorem eq_of_census_le_one {p : ι → α} (h : census f p ≤ 1) {i j : ι}
    (hi : 0 < f (p i)) (hj : 0 < f (p j)) : i = j := by
  by_contra hne
  have hpair : ∑ k ∈ {i, j}, f (p k) ≤ census f p :=
    Finset.sum_le_sum_of_subset (Finset.subset_univ _)
  rw [Finset.sum_pair hne] at hpair
  omega

/-! ## Runs -/

section Runs

variable {σ ι α : Type}

/-- One moment of a run: thread `i` takes action `a`, or the environment moves. -/
def Moves (next : σ → ι → α → Option σ) (environment : σ → σ) (s : σ) : Option (ι × α) → σ → Prop
  | none, t => t = environment s
  | some (i, a), t => next s i a = some t

structure Run (next : σ → ι → α → Option σ) (environment : σ → σ) (init : σ) where
  state : Nat → σ
  act : Nat → Option (ι × α)
  start : state 0 = init
  step : ∀ k, Moves next environment (state k) (act k) (state (k + 1))

namespace Run

variable {next : σ → ι → α → Option σ} {environment : σ → σ} {init : σ}
variable (run : Run next environment init)

/-- What holds initially and survives every moment of the run holds at every moment. -/
theorem invariant {p : σ → Prop} (hinit : p init)
    (hstep : ∀ k, p (run.state k) → p (run.state (k + 1))) (k : Nat) : p (run.state k) := by
  induction k with
  | zero => rw [run.start]; exact hinit
  | succ k ih => exact hstep k ih

/-- Thread `i` takes a helpful action at moment `k`. -/
def Takes (helpful : σ → ι → α → Prop) (k : Nat) (i : ι) : Prop :=
  ∃ a, run.act k = some (i, a) ∧ helpful (run.state k) i a

/-- A thread that can take a helpful action again and again takes one again and again. -/
def StronglyFair (helpful : σ → ι → α → Prop) : Prop :=
  ∀ i, (∀ k, ∃ m, k ≤ m ∧ ∃ a, helpful (run.state m) i a ∧ (next (run.state m) i a).isSome) →
    ∀ k, ∃ m, k ≤ m ∧ run.Takes helpful m i

variable {run}

/-- A property that fails later fails in one step. -/
theorem exists_last {p : σ → Prop} {k m : Nat} (hk : p (run.state k)) (hm : k ≤ m)
    (hno : ¬ p (run.state m)) : ∃ l, k ≤ l ∧ p (run.state l) ∧ ¬ p (run.state (l + 1)) := by
  by_contra hnone
  push Not at hnone
  refine hno ?_
  induction m, hm using Nat.le_induction with
  | base => exact hk
  | succ m hm ih =>
    by_cases hp : p (run.state m)
    · exact hnone m hm hp
    · exact absurd (ih hp) hp

variable {helpful : σ → ι → α → Prop}

/-- A thread that stays enabled takes a helpful action. -/
theorem StronglyFair.takes (hfair : run.StronglyFair helpful) {i : ι} {k : Nat} (h : ∀ m, k ≤ m →
      ∃ a, helpful (run.state m) i a ∧ (next (run.state m) i a).isSome) :
    ∃ m, k ≤ m ∧ run.Takes helpful m i :=
  hfair i (fun l => ⟨max k l, le_max_right _ _, h _ (le_max_left _ _)⟩) k

/-- The liveness rule. Short of the goal the rank never rises, and some thread helps: until the
rank falls it stays the helper, it is enabled again and again, and its helpful action lowers
the rank. -/
theorem eventually_of_rank (goal : σ → Prop) (rank : σ → Nat) (helper : σ → ι → Prop) (hfair : run.StronglyFair helpful)
    (hexists : ∀ k, ¬ goal (run.state k) → ∃ h, helper (run.state k) h)
    (hstep : ∀ k h, ¬ goal (run.state k) → ¬ goal (run.state (k + 1)) →
      helper (run.state k) h → rank (run.state (k + 1)) < rank (run.state k) ∨
        (rank (run.state (k + 1)) = rank (run.state k) ∧ helper (run.state (k + 1)) h ∧
          ¬ run.Takes helpful k h))
    (henabled : ∀ k h, (∀ m, k ≤ m → ¬ goal (run.state m) ∧ helper (run.state m) h ∧
        rank (run.state m) = rank (run.state k)) →
      ∃ m, k ≤ m ∧ ∃ a, helpful (run.state m) h a ∧ (next (run.state m) h a).isSome)
    (k : Nat) : ∃ m, k ≤ m ∧ goal (run.state m) := by
  -- strong induction on the rank: it cannot stay constant, so it falls
  induction hr : rank (run.state k) using Nat.strong_induction_on generalizing k with
  | _ r ih =>
    by_contra hno
    have hshort : ∀ m, k ≤ m → ¬ goal (run.state m) := fun m hm hg => hno ⟨m, hm, hg⟩
    obtain ⟨h, hh⟩ := hexists k (hshort k le_rfl)
    have hstuck : ∀ m, k ≤ m → ¬ rank (run.state m) < r := by
      intro m hm hlt
      obtain ⟨m', hm', hgoal⟩ := ih _ hlt m rfl
      exact hno ⟨m', hm.trans hm', hgoal⟩
    have hstay : ∀ m, k ≤ m → rank (run.state m) = r ∧ helper (run.state m) h := by
      intro m hm
      induction m, hm using Nat.le_induction with
      | base => exact ⟨hr, hh⟩
      | succ m hm ihm =>
        rcases hstep m h (hshort m hm) (hshort _ (by omega)) ihm.2 with hlt | ⟨heq, hhelp, _⟩
        · exact absurd (ihm.1 ▸ hlt) (hstuck _ (by omega))
        · exact ⟨heq.trans ihm.1, hhelp⟩
    have hoften : ∀ l, ∃ m, l ≤ m ∧
        ∃ a, helpful (run.state m) h a ∧ (next (run.state m) h a).isSome := by
      intro l
      have hrank := (hstay (max k l) (le_max_left _ _)).1
      obtain ⟨m, hm, hen⟩ := henabled (max k l) h fun m hm =>
        have hstay := hstay m (le_of_max_le_left hm)
        ⟨hshort m (le_of_max_le_left hm), hstay.2, hstay.1.trans hrank.symm⟩
      exact ⟨m, le_of_max_le_right hm, hen⟩
    obtain ⟨m, hm, htakes⟩ := hfair h hoften k
    obtain ⟨hrank, hhelp⟩ := hstay m hm
    rcases hstep m h (hshort m hm) (hshort _ (by omega)) hhelp with hlt | ⟨_, _, hnot⟩
    · exact hstuck (m + 1) (by omega) (hrank ▸ hlt)
    · exact hnot htakes

/-- Replays a list of labels whose steps all satisfy `p`. -/
def replay (next : σ → ι → α → Option σ) (p : σ → ι → α → Bool) : List (ι × α) → σ → Option σ
  | [], s => some s
  | (i, a) :: rest, s => if p s i a then (next s i a).bind (replay next p rest) else none

variable {p : σ → ι → α → Bool}

theorem replay_append {first rest : List (ι × α)} {s : σ} :
    replay next p (first ++ rest) s = (replay next p first s).bind (replay next p rest) := by
  induction first generalizing s with
  | nil => rfl
  | cons label first ih =>
    obtain ⟨i, a⟩ := label
    simp only [List.cons_append, replay]
    split
    · cases next s i a with
      | none => rfl
      | some t => exact ih
    · rfl

/-- Labels that replay are the beginning of a run in which then only the environment moves. -/
theorem exists_of_replay (environment : σ → σ) {labels : List (ι × α)}
    {s t : σ} (h : replay next p labels s = some t) : ∃ run : Run next environment s,
      (∀ k, run.state (labels.length + k) = environment^[k] t) ∧
      (∀ k, labels.length ≤ k → run.act k = none) ∧
      (∀ k i a, run.act k = some (i, a) → p (run.state k) i a = true) := by
  induction labels generalizing s with
  | nil =>
    obtain rfl : s = t := Option.some.inj h
    refine ⟨⟨fun k => environment^[k] s, fun _ => none, rfl, fun k => ?_⟩, fun k => ?_,
      fun _ _ => rfl, nofun⟩
    · exact Function.iterate_succ_apply' ..
    · rw [List.length_nil, Nat.zero_add]
  | cons label labels ih =>
    obtain ⟨i, a⟩ := label
    simp only [replay] at h
    split at h
    · rename_i hp
      obtain ⟨u, hu, hrest⟩ := Option.bind_eq_some_iff.mp h
      obtain ⟨run, hstate, hquiet, hfit⟩ := ih hrest
      refine ⟨⟨fun k => k.casesOn s run.state, fun k => k.casesOn (some (i, a)) run.act, rfl, ?_⟩,
        fun k => ?_, ?_, ?_⟩
      · rintro (_ | k)
        · rw [← run.start] at hu
          exact hu
        · exact run.step k
      · rw [List.length_cons, Nat.succ_add_eq_add_succ]
        exact hstate k
      · rintro (_ | k) hk
        · simp at hk
        · exact hquiet k (Nat.le_of_succ_le_succ hk)
      · rintro (_ | k) j b hact
        · cases hact
          exact hp
        · exact hfit k j b hact
    · cases h

end Run
end Runs

end Threads
