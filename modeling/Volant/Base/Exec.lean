-- SUMMARY: Rules for state-and-error programs: inversion of successful runs, and what every run keeps.
import Mathlib.Tactic

/-!
# Runs of fallible programs

Fallible code that updates state in place is modelled in `EStateM ε σ`: a
failing program keeps the state it had reached, as code that returns early
with an error does. The first rules take a successful run apart into the
successful runs of its parts. `Keeps I x` is about every run, also one that
fails: it keeps `I`. `Runs x s Q` is total correctness: from `s` the program
succeeds, and `Q` holds of its result and the state it ends in. `attempts` is a
sequence of calls, some of which fail.
-/

namespace Exec

variable {ε σ α β : Type} {s s' t : σ} {u : PUnit} {x : EStateM ε σ α}

theorem bind_ok {f : α → EStateM ε σ β} {b : β} :
    (x >>= f) s = .ok b s' ↔ ∃ a t, x s = .ok a t ∧ f a t = .ok b s' := by
  constructor
  · intro h
    change (EStateM.bind x f) s = .ok b s' at h
    unfold EStateM.bind at h
    split at h
    next a t hx => exact ⟨a, t, hx, h⟩
    next => cases h
  · rintro ⟨a, t, hx, hf⟩
    change (EStateM.bind x f) s = .ok b s'
    unfold EStateM.bind
    rw [hx]
    exact hf

theorem except_bind_ok {x : Except ε α} {f : α → Except ε β} {b : β} :
    x >>= f = .ok b ↔ ∃ a, x = .ok a ∧ f a = .ok b := by
  cases x <;> simp [bind, Except.bind]

theorem bind_error {e : ε} (h : x s = .error e t) (f : α → EStateM ε σ β) :
    (x >>= f) s = .error e t := by
  change (EStateM.bind x f) s = .error e t
  unfold EStateM.bind
  rw [h]

@[simp] theorem pure_ok {a b : α} : (pure a : EStateM ε σ α) s = .ok b s' ↔ a = b ∧ s = s' :=
  Iff.of_eq (EStateM.Result.ok.injEq a s b s')

@[simp] theorem throw_ok {e : ε} {b : α} : ¬ (throw e : EStateM ε σ α) s = .ok b s' := by
  intro h
  cases h

/-- A check that fails before anything happens. -/
theorem check_ok {c : Prop} [Decidable c] {e : ε} {b : α} :
    (if c then throw e else x) s = .ok b s' ↔ ¬ c ∧ x s = .ok b s' := by
  split_ifs with hc <;> simp [hc]

@[simp] theorem get_ok : (get : EStateM ε σ σ) s = .ok t s' ↔ s = t ∧ s = s' :=
  Iff.of_eq (EStateM.Result.ok.injEq s s t s')

theorem get_bind_ok {f : σ → EStateM ε σ β} {b : β} :
    (get >>= f) s = .ok b s' ↔ f s s = .ok b s' := Iff.rfl

@[simp] theorem modify_ok {f : σ → σ} : (modify f : EStateM ε σ PUnit) s = .ok u s' ↔ f s = s' := by
  constructor
  · intro h
    cases h
    rfl
  · rintro rfl
    rfl

/-- Run a program only under a condition. -/
def when (c : Bool) (x : EStateM ε σ PUnit) : EStateM ε σ PUnit := if c then x else pure ⟨⟩

theorem when_ok {c : Bool} {x : EStateM ε σ PUnit} :
    when c x s = .ok u s' ↔ c = true ∧ x s = .ok u s' ∨ c = false ∧ s = s' := by
  cases c with
  | true => simp [when]
  | false => simp [when]

/-! ## What a run keeps, also when it fails -/

/-- The state in which a run stops. -/
def stop : EStateM.Result ε σ α → σ
  | .ok _ s => s
  | .error _ s => s

def succeeds : EStateM.Result ε σ α → Bool
  | .ok _ _ => true
  | .error _ _ => false

theorem succeeds_iff {r : EStateM.Result ε σ α} : succeeds r = true ↔ ∃ a s, r = .ok a s := by
  cases r with
  | ok a s => simp [succeeds]
  | error e s => simp [succeeds]

def Keeps (I : σ → Prop) (x : EStateM ε σ α) : Prop := ∀ s, I s → I (stop (x s))

section Keeps

variable {I : σ → Prop} {x : EStateM ε σ α} {f : α → EStateM ε σ β} {s : σ}

theorem stop_bind (hok : ∀ a t, x s = .ok a t → I (stop (f a t)))
    (herror : ∀ e t, x s = .error e t → I t) : I (stop ((x >>= f) s)) := by
  change I (stop (EStateM.bind x f s))
  unfold EStateM.bind
  cases hx : x s with
  | ok a t => exact hok a t hx
  | error e t => exact herror e t hx

/-- What holds where the first part stops is there for the second. -/
theorem stop_andThen {J : σ → Prop} (hx : J (stop (x s))) (himp : ∀ t, J t → I t)
    (hf : ∀ a t, J t → I (stop (f a t))) : I (stop ((x >>= f) s)) := by
  refine stop_bind (fun a t heq => ?_) fun e t heq => ?_
  · rw [heq] at hx
    exact hf a t hx
  · rw [heq] at hx
    exact himp t hx

theorem Keeps.andThen {J : σ → Prop} (hx : Keeps J x) (himp : ∀ t, J t → I t)
    (hf : ∀ a t, J t → I (stop (f a t))) (hs : J s) : I (stop ((x >>= f) s)) :=
  stop_andThen (hx s hs) himp hf

theorem Keeps.bind (hx : Keeps I x) (hf : ∀ a, Keeps I (f a)) : Keeps I (x >>= f) :=
  fun _ hs => hx.andThen (fun _ ht => ht) (hf) hs

theorem stop_get_bind {f : σ → EStateM ε σ β} (h : I (stop (f s s))) : I (stop ((get >>= f) s)) := h

theorem Keeps.pure (a : α) : Keeps I (pure a : EStateM ε σ α) := fun _ hs => hs

theorem Keeps.throw (e : ε) : Keeps I (throw e : EStateM ε σ α) := fun _ hs => hs

theorem Keeps.get : Keeps I (get : EStateM ε σ σ) := fun _ hs => hs

theorem Keeps.modify {g : σ → σ} (h : ∀ s, I s → I (g s)) :
    Keeps I (modify g : EStateM ε σ PUnit) := h

theorem Keeps.when {c : Bool} {x : EStateM ε σ PUnit} (hx : c = true → Keeps I x) :
    Keeps I (when c x) := by
  cases c with
  | true => exact hx rfl
  | false => exact .pure _

theorem Keeps.ite {c : Prop} [Decidable c] {y : EStateM ε σ α} (hx : c → Keeps I x)
    (hy : ¬ c → Keeps I y) : Keeps I (if c then x else y) := by
  split_ifs with hc
  · exact hx hc
  · exact hy hc

theorem Keeps.check {c : Prop} [Decidable c] {e : ε} (hx : ¬ c → Keeps I x) :
    Keeps I (if c then MonadExcept.throw e else x) := .ite (fun _ => .throw e) hx

end Keeps

/-! ## Runs that succeed -/

def Runs (x : EStateM ε σ α) (s : σ) (Q : α → σ → Prop) : Prop := ∃ a t, x s = .ok a t ∧ Q a t

namespace Runs

variable {x : EStateM ε σ α} {f : α → EStateM ε σ β} {s : σ} {Q R : α → σ → Prop}

theorem bind {Q : β → σ → Prop} (h : Runs x s fun a t => Runs (f a) t Q) : Runs (x >>= f) s Q := by
  obtain ⟨a, t, hx, b, u, hf, hq⟩ := h
  exact ⟨b, u, bind_ok.mpr ⟨a, t, hx, hf⟩, hq⟩

theorem pure {a : α} (h : Q a s) : Runs (pure a : EStateM ε σ α) s Q := ⟨a, s, rfl, h⟩

theorem get {Q : σ → σ → Prop} (h : Q s s) : Runs (get : EStateM ε σ σ) s Q := ⟨s, s, rfl, h⟩

theorem modify {g : σ → σ} {Q : PUnit → σ → Prop} (h : Q ⟨⟩ (g s)) :
    Runs (modify g : EStateM ε σ PUnit) s Q := ⟨⟨⟩, g s, rfl, h⟩

theorem when {c : Bool} {x : EStateM ε σ PUnit} {Q : PUnit → σ → Prop}
    (hx : c = true → Runs x s Q) (hno : c = false → Q ⟨⟩ s) : Runs (when c x) s Q := by
  cases c with
  | true => exact hx rfl
  | false => exact .pure (hno rfl)

theorem mono (h : Runs x s Q) (himp : ∀ a t, Q a t → R a t) : Runs x s R := by
  obtain ⟨a, t, hx, hq⟩ := h
  exact ⟨a, t, hx, himp a t hq⟩

/-- What holds of every successful run holds of this one. -/
theorem and_ok (h : Runs x s Q) (hok : ∀ a t, x s = .ok a t → R a t) :
    Runs x s fun a t => Q a t ∧ R a t := by
  obtain ⟨a, t, hx, hq⟩ := h
  exact ⟨a, t, hx, hq, hok a t hx⟩

end Runs

/-! ## Sequences of calls -/

section Attempts

variable {κ : Type} {ok : κ → σ → Prop} {run : κ → EStateM ε σ α}

/-- The results of the calls that succeed, and the state behind the last call. -/
def attempts (run : κ → EStateM ε σ α) : List κ → σ → List α × σ
  | [], s => ([], s)
  | c :: cs, s =>
    match run c s with
    | .ok a t => (a :: (attempts run cs t).1, (attempts run cs t).2)
    | .error _ t => attempts run cs t

/-- Every call meets the condition in the state it finds. -/
def AllMeet (ok : κ → σ → Prop) (run : κ → EStateM ε σ α) : List κ → σ → Prop
  | [], _ => True
  | c :: cs, s => ok c s ∧ AllMeet ok run cs (stop (run c s))

/-- If a call that fails leaves the state alone, the successful calls say what a run has done. -/
theorem attempts_inv {I : List α → σ → Prop}
    (hok : ∀ {c s as a t}, ok c s → I as s → run c s = .ok a t → I (as ++ [a]) t)
    (herror : ∀ {c s as e t}, ok c s → I as s → run c s = .error e t → t = s)
    {cs : List κ} {s : σ} {as : List α} (hall : AllMeet ok run cs s) (hs : I as s) :
    I (as ++ (attempts run cs s).1) (attempts run cs s).2 := by
  induction cs generalizing s as with
  | nil => simpa [attempts] using hs
  | cons c cs ih =>
    obtain ⟨hc, hrest⟩ := hall
    unfold attempts
    cases hrun : run c s with
    | ok a t =>
      rw [hrun] at hrest
      have hnext := ih hrest (hok hc hs hrun)
      rwa [List.append_assoc] at hnext
    | error e t =>
      rw [hrun] at hrest
      obtain rfl := herror hc hs hrun
      exact ih hrest hs

end Attempts

end Exec
