-- SUMMARY: Concurrent calls as programs of critical sections, with rely-guarantee reasoning about their interleavings.
import Mathlib.Logic.Function.Basic

/-!
# Critical sections

A call that takes and releases locks is a program of critical sections: each
section reads and writes the shared state at once, and other calls run between
two of them. Sections carry a label, so that a condition on when a section may
run can be stated apart from the program.

`wp` is the weakest precondition of a program among others: between two of its
sections the shared state moves as it relies on the others to move it, and each
of its own sections moves it as they rely on and keeps the invariant. `Reachable.safe` is the soundness of this for any number of
interleaved calls.
-/

namespace Sections

open Function

/-- A program of critical sections over the shared state `σ`. -/
inductive Prog (L σ α : Type) : Type 1
  | ret (a : α)
  | crit {β : Type} (label : L) (run : σ → β × σ) (next : β → Prog L σ α)

namespace Prog

variable {L σ α β : Type}

def bind : Prog L σ α → (α → Prog L σ β) → Prog L σ β
  | .ret a, f => f a
  | .crit label run next, f => .crit label run fun b => (next b).bind f

instance : Monad (Prog L σ) where
  pure := .ret
  bind := bind

/-- One section. -/
def section_ (label : L) (run : σ → α × σ) : Prog L σ α := .crit label run .ret

/-- A section that only reads. -/
def look (label : L) (read : σ → α) : Prog L σ α := section_ label fun s => (read s, s)

/-- A section that only writes. -/
def write (label : L) (update : σ → σ) : Prog L σ Unit := section_ label fun s => ((), update s)

/-- The program for each element, in order. -/
def forEach (body : β → Prog L σ Unit) : List β → Prog L σ Unit
  | [] => .ret ()
  | b :: bs => (body b).bind fun _ => forEach body bs

/-- The elements for which the program answers yes, in order. -/
def filter (keep : β → Prog L σ Bool) : List β → Prog L σ (List β)
  | [] => .ret []
  | b :: bs => (keep b).bind fun kept => (filter keep bs).bind fun rest =>
    .ret (if kept then b :: rest else rest)

/-- The program with nothing between its sections. -/
def alone : Prog L σ α → σ → α × σ
  | .ret a, s => (a, s)
  | .crit _ run next, s => (next (run s).1).alone (run s).2

@[simp] theorem alone_bind (x : Prog L σ α) (f : α → Prog L σ β) (s : σ) :
    alone (x >>= f) s = (f (x.alone s).1).alone (x.alone s).2 := by
  induction x generalizing s with
  | ret a => rfl
  | crit label run next ih => exact ih (run s).1 (run s).2

@[simp] theorem alone_section (label : L) (run : σ → α × σ) (s : σ) :
    (section_ label run).alone s = run s := rfl

end Prog

/-! ## Weakest preconditions -/

/-- What calls may assume of each other. A call owes every other one what that one relies on. -/
structure Contract (L σ : Type) where
  inv : σ → Prop
  /-- When a section with this label may run. -/
  allowed : L → σ → Prop
  /-- What the call with this number relies on between two of its sections. -/
  rely : Nat → σ → σ → Prop
  refl : ∀ t s, rely t s s
  trans : ∀ t s s' s'', rely t s s' → rely t s' s'' → rely t s s''

section wp

variable {L σ α β : Type} {C : Contract L σ} {t : Nat} {s : σ}

/-- From the state its last section left, the program keeps the contract and ends with `post`. -/
def wp (C : Contract L σ) (t : Nat) : Prog L σ α → (α → σ → Prop) → σ → Prop
  | .ret a, post, s => post a s
  | .crit label run next, post, s => ∀ s', C.rely t s s' → C.inv s' → C.allowed label s' →
    (∀ u, u ≠ t → C.rely u s' (run s').2) ∧ C.inv (run s').2 ∧
      wp C t (next (run s').1) post (run s').2

theorem wp_mono {post post' : α → σ → Prop} (h : ∀ a s, post a s → post' a s) {x : Prog L σ α}
    (hx : wp C t x post s) : wp C t x post' s := by
  induction x generalizing s with
  | ret a => exact h a s hx
  | crit label run next ih =>
    intro s' hrely hinv hallowed
    obtain ⟨hguar, hinv', hnext⟩ := hx s' hrely hinv hallowed
    exact ⟨hguar, hinv', ih _ hnext⟩

theorem wp_bind {x : Prog L σ α} {f : α → Prog L σ β} {post : β → σ → Prop}
    (h : wp C t x (fun a s => wp C t (f a) post s) s) : wp C t (x >>= f) post s := by
  induction x generalizing s with
  | ret a => exact h
  | crit label run next ih =>
    intro s' hrely hinv hallowed
    obtain ⟨hguar, hinv', hnext⟩ := h s' hrely hinv hallowed
    exact ⟨hguar, hinv', ih _ hnext⟩

theorem wp_section {label : L} {run : σ → α × σ} {post : α → σ → Prop}
    (h : ∀ s', C.rely t s s' → C.inv s' → C.allowed label s' →
      (∀ u, u ≠ t → C.rely u s' (run s').2) ∧ C.inv (run s').2 ∧ post (run s').1 (run s').2) :
    wp C t (.section_ label run) post s := h

/-- The loop rule: an assertion about the rest of the list that every round re-establishes. -/
theorem wp_forEach {body : β → Prog L σ Unit} (assertion : List β → σ → Prop)
    (hbody : ∀ b bs s, assertion (b :: bs) s → wp C t (body b) (fun _ => assertion bs) s)
    {bs : List β} (h : assertion bs s) : wp C t (.forEach body bs) (fun _ => assertion []) s := by
  induction bs generalizing s with
  | nil => exact h
  | cons b bs ih => exact wp_bind (wp_mono (fun _ _ => ih) (hbody b bs s h))

/-- The filter rule: what is kept has the property, if it is stable and holds of each element the
program keeps. -/
theorem wp_filter {keep : β → Prog L σ Bool} (assertion : σ → Prop) (kept : β → σ → Prop)
    {bs : List β} (hkeep : ∀ b ∈ bs, ∀ s, assertion s →
      wp C t (keep b) (fun yes s' => assertion s' ∧ (yes = true → kept b s') ∧
        ∀ b', kept b' s → kept b' s') s) (h : assertion s) :
    wp C t (.filter keep bs) (fun l s' => assertion s' ∧ (∀ b ∈ l, b ∈ bs ∧ kept b s') ∧
      ∀ b', kept b' s → kept b' s') s := by
  induction bs generalizing s with
  | nil => exact ⟨h, by simp, fun _ hb => hb⟩
  | cons b bs ih =>
    refine wp_bind (wp_mono ?_ (hkeep b List.mem_cons_self s h))
    rintro yes s₁ ⟨h₁, hyes, hstable₁⟩
    refine wp_bind (wp_mono ?_ (ih (fun b hb => hkeep b (List.mem_cons_of_mem _ hb)) h₁))
    rintro rest s₂ ⟨h₂, hrest, hstable₂⟩
    refine ⟨h₂, ?_, fun b' hb' => hstable₂ b' (hstable₁ b' hb')⟩
    intro b' hb'
    cases yes with
    | false => exact ⟨List.mem_cons_of_mem _ (hrest b' hb').1, (hrest b' hb').2⟩
    | true =>
      rcases List.mem_cons.mp hb' with rfl | hin
      · exact ⟨List.mem_cons_self, hstable₂ b' (hyes rfl)⟩
      · exact ⟨List.mem_cons_of_mem _ (hrest b' hin).1, (hrest b' hin).2⟩

end wp

/-! ## Interleavings -/

/-- Calls of kind `K` in any number, each with the rest of its program. -/
structure System (K L σ α : Type) where
  shared : σ
  calls : Nat → Option (K × Prog L σ α)

/-- A new call, or one section of a running one. -/
inductive Event (K : Type) where
  | call (t : Nat) (k : K)
  | run (t : Nat)

namespace System

variable {K L σ α : Type} (body : Nat → K → Prog L σ α)

def step (sys : System K L σ α) : Event K → System K L σ α
  | .call t k => { sys with calls := update sys.calls t (some (k, body t k)) }
  | .run t =>
    match sys.calls t with
    | some (k, .crit _ run next) =>
      { shared := (run sys.shared).2
        calls := update sys.calls t (some (k, next (run sys.shared).1)) }
    | _ => sys

/-- A new call has a new number; a section runs when its label allows it. -/
def Enabled (allowed : L → σ → Prop) (sys : System K L σ α) : Event K → Prop
  | .call t _ => (sys.calls t).isNone
  | .run t =>
    match sys.calls t with
    | some (_, .crit label _ _) => allowed label sys.shared
    | _ => False

/-- Runs from a shared state on which no call is under way. -/
inductive Reachable (allowed : L → σ → Prop) (start : σ → Prop) : System K L σ α → Prop
  | start {s : σ} (h : start s) : Reachable allowed start ⟨s, fun _ => none⟩
  | step {sys : System K L σ α} (h : Reachable allowed start sys) (e : Event K)
      (henabled : sys.Enabled allowed e) : Reachable allowed start (sys.step body e)

end System

namespace System

variable {K L σ α : Type} {body : Nat → K → Prog L σ α} {C : Contract L σ}
  {post : Nat → K → α → σ → Prop} {idle : Nat → σ → Prop} {start : σ → Prop} {sys : System K L σ α}

/-- The invariant holds, each call keeps its contract from here on, and a number with no call
has no part in the shared state. -/
structure Safe (C : Contract L σ) (post : Nat → K → α → σ → Prop) (idle : Nat → σ → Prop)
    (sys : System K L σ α) : Prop where
  inv : C.inv sys.shared
  calls : ∀ t k x, sys.calls t = some (k, x) →
    ∃ s, C.rely t s sys.shared ∧ wp C t x (post t k) s
  idle : ∀ t, sys.calls t = none → idle t sys.shared

theorem Safe.call (hbody : ∀ t k s, idle t s → wp C t (body t k) (post t k) s)
    (h : Safe C post idle sys) {t : Nat} (hnew : sys.calls t = none) (k : K) :
    Safe C post idle (sys.step body (.call t k)) where
  inv := h.inv
  calls := by
    intro u k' x hx
    rcases eq_or_ne u t with rfl | hne
    · simp only [step, update_self, Option.some.injEq, Prod.mk.injEq] at hx
      obtain ⟨rfl, rfl⟩ := hx
      exact ⟨sys.shared, C.refl u _, hbody u k sys.shared (h.idle u hnew)⟩
    · simp only [step, update_of_ne hne] at hx
      exact h.calls u k' x hx
  idle := by
    intro u hu
    rcases eq_or_ne u t with rfl | hne
    · simp [step] at hu
    · simp only [step, update_of_ne hne] at hu
      exact h.idle u hu

theorem Safe.run (hidle : ∀ t s s', C.rely t s s' → idle t s → idle t s') (h : Safe C post idle sys)
    {t : Nat} (henabled : sys.Enabled C.allowed (.run t)) :
    Safe C post idle (sys.step body (.run t)) := by
  simp only [Enabled] at henabled
  split at henabled
  next k β label run next hcall =>
    obtain ⟨s, hrely, hwp⟩ := h.calls t k _ hcall
    obtain ⟨hguar, hinv, hnext⟩ := hwp sys.shared hrely h.inv henabled
    have hstep : sys.step body (.run t) =
        { shared := (run sys.shared).2
          calls := update sys.calls t (some (k, next (run sys.shared).1)) } := by
      simp [step, hcall]
    rw [hstep]
    refine ⟨hinv, ?_, ?_⟩
    · intro u k' x hx
      rcases eq_or_ne u t with rfl | hne
      · simp only [update_self, Option.some.injEq, Prod.mk.injEq] at hx
        obtain ⟨rfl, rfl⟩ := hx
        exact ⟨_, C.refl u _, hnext⟩
      · simp only [update_of_ne hne] at hx
        obtain ⟨s', hrely', hwp'⟩ := h.calls u k' x hx
        exact ⟨s', C.trans u _ _ _ hrely' (hguar u hne), hwp'⟩
    · intro u hu
      rcases eq_or_ne u t with rfl | hne
      · simp at hu
      · simp only [update_of_ne hne] at hu
        exact hidle u _ _ (hguar u hne) (h.idle u hu)
  next => exact henabled.elim

/-- In every run whose sections are allowed, every call keeps its contract. -/
theorem Reachable.safe (hidle : ∀ t s s', C.rely t s s' → idle t s → idle t s')
    (hbody : ∀ t k s, idle t s → wp C t (body t k) (post t k) s)
    (hstart : ∀ s, start s → C.inv s ∧ ∀ t, idle t s) (h : Reachable body C.allowed start sys) :
    Safe C post idle sys := by
  induction h with
  | start h => exact ⟨(hstart _ h).1, by simp, fun t _ => (hstart _ h).2 t⟩
  | step h e henabled ih =>
    cases e with
    | call t k => exact ih.call hbody (Option.isNone_iff_eq_none.mp henabled) k
    | run t => exact ih.run hidle henabled

/-- The system after some events. -/
def follow (body : Nat → K → Prog L σ α) (sys : System K L σ α) (es : List (Event K)) :
    System K L σ α := es.foldl (step body) sys

/-- Every event of the list is enabled when it comes. -/
def Follows (body : Nat → K → Prog L σ α) (allowed : L → σ → Prop) :
    System K L σ α → List (Event K) → Prop
  | _, [] => True
  | sys, e :: es => sys.Enabled allowed e ∧ Follows body allowed (sys.step body e) es

theorem Reachable.follow {allowed : L → σ → Prop} {es : List (Event K)}
    (h : Reachable body allowed start sys) (hes : Follows body allowed sys es) :
    Reachable body allowed start (sys.follow body es) := by
  induction es generalizing sys with
  | nil => exact h
  | cons e es ih => exact ih (h.step e hes.1) hes.2

instance (allowed : L → σ → Prop) [∀ l s, Decidable (allowed l s)] (sys : System K L σ α) :
    ∀ e : Event K, Decidable (sys.Enabled allowed e)
  | .call _ _ => inferInstanceAs (Decidable (_ = true))
  | .run t =>
    match h : sys.calls t with
    | some (_, .crit label _ _) =>
      decidable_of_iff (allowed label sys.shared) (by simp only [Enabled, h])
    | some (_, .ret _) => .isFalse (by simp only [Enabled, h, not_false_eq_true])
    | none => .isFalse (by simp only [Enabled, h, not_false_eq_true])

instance decidableFollows (allowed : L → σ → Prop) [∀ l s, Decidable (allowed l s)] :
    ∀ (sys : System K L σ α) (es : List (Event K)), Decidable (Follows body allowed sys es)
  | _, [] => .isTrue trivial
  | sys, e :: es =>
    have := decidableFollows allowed (sys.step body e) es
    inferInstanceAs (Decidable (_ ∧ _))

end System

end Sections
