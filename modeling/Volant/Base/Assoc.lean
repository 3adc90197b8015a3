-- SUMMARY: Association lists: maps, filters, and values under insert and erase up to permutation.
import Mathlib.Data.List.AList
import Mathlib.Data.List.Induction

/-!
# Association lists

Maps and filters of an association list, and what `insert` and `erase` do to
its values. Statements about values are up to permutation, so that an invariant
over them need not know where a key stands.
-/

namespace Assoc

open List AList

variable {α β γ : Type*} {e : Sigma fun _ : α => β}

def values (m : AList fun _ : α => β) : List β := m.entries.map (·.2)

@[simp] theorem values_empty : values (∅ : AList fun _ : α => β) = [] := rfl

/-- The association list with every value replaced. -/
def mapValues (f : α → β → γ) (m : AList fun _ : α => β) : AList fun _ : α => γ :=
  ⟨m.entries.map fun e => ⟨e.1, f e.1 e.2⟩, by
    have hkeys : (m.entries.map fun e => (⟨e.1, f e.1 e.2⟩ : Sigma fun _ : α => γ)).keys =
        m.entries.keys := by simp [List.keys]
    rw [List.NodupKeys, hkeys]
    exact m.nodupKeys⟩

/-- `retain`: the entries that satisfy `p`. -/
def retain (p : α → β → Bool) (m : AList fun _ : α => β) : AList fun _ : α => β :=
  ⟨m.entries.filter fun e => p e.1 e.2, m.nodupKeys.sublist filter_sublist⟩

variable [DecidableEq α] {m : AList fun _ : α => β} {a : α} {b c : β}

@[simp] theorem lookup_mapValues (f : α → β → γ) (m : AList fun _ : α => β) (a : α) :
    (mapValues f m).lookup a = (m.lookup a).map (f a) := by
  ext c
  rw [← Option.mem_def, mem_lookup_iff, Option.map_eq_some_iff]
  simp only [mapValues, mem_map, Sigma.mk.injEq]
  constructor
  · rintro ⟨⟨a', b⟩, hmem, rfl, hc⟩
    exact ⟨b, mem_lookup_iff.mpr hmem, eq_of_heq hc⟩
  · rintro ⟨b, hb, rfl⟩
    exact ⟨⟨a, b⟩, mem_lookup_iff.mp hb, rfl, HEq.rfl⟩

@[simp] theorem lookup_retain (p : α → β → Bool) (m : AList fun _ : α => β) (a : α) :
    (retain p m).lookup a = (m.lookup a).filter (p a) := by
  ext b
  rw [← Option.mem_def, mem_lookup_iff, Option.filter_eq_some_iff]
  simp only [retain, mem_filter]
  rw [← Option.mem_def, mem_lookup_iff]

theorem entries_perm_of_lookup (h : m.lookup a = some b) :
    m.entries.Perm (⟨a, b⟩ :: (m.erase a).entries) := by
  have hmem : (⟨a, b⟩ : Sigma fun _ : α => β) ∈ m.entries :=
    mem_lookup_iff.mp h
  obtain ⟨b', l₁, l₂, hnot, heq, herase⟩ := exists_of_kerase (mem_keys_of_mem hmem)
  have hb : b' = b := by
    have hb' : (⟨a, b'⟩ : Sigma fun _ : α => β) ∈ m.entries := by simp [heq]
    have hlookup : m.lookup a = some b' := mem_lookup_iff.mpr hb'
    exact Option.some.inj (hlookup.symm.trans h)
  have hrest : (m.erase a).entries = l₁ ++ l₂ := herase
  rw [hrest, heq, hb]
  exact perm_middle

theorem values_perm_of_lookup (h : m.lookup a = some b) :
    (values m).Perm (b :: values (m.erase a)) :=
  (entries_perm_of_lookup h).map _

theorem values_insert (a : α) (b : β) (m : AList fun _ : α => β) :
    values (m.insert a b) = b :: values (m.erase a) := rfl

theorem values_erase_of_lookup_none (h : m.lookup a = none) : values (m.erase a) = values m := by
  have hnot : a ∉ m.entries.keys := lookup_eq_none.mp h
  exact congrArg (map (·.2)) (kerase_of_notMem_keys hnot)

theorem values_insert_of_none (h : m.lookup a = none) : values (m.insert a b) = b :: values m := by
  rw [values_insert, values_erase_of_lookup_none h]

theorem mem_values_of_lookup (h : m.lookup a = some b) : b ∈ values m :=
  (values_perm_of_lookup h).symm.subset mem_cons_self

/-- Erasing some entries one by one takes their values out. -/
theorem values_perm_foldl_erase (l : List (Sigma fun _ : α => β)) (m : AList fun _ : α => β)
    (hl : l.NodupKeys) (hmem : ∀ e ∈ l, e ∈ m.entries) :
    (values m).Perm (l.map (·.2) ++ values (l.foldl (fun m e => m.erase e.1) m)) := by
  induction l generalizing m with
  | nil => exact List.Perm.refl _
  | cons e l ih =>
    obtain ⟨hnot, hl⟩ := nodupKeys_cons.mp hl
    have hlookup : m.lookup e.1 = some e.2 := mem_lookup_iff.mpr (hmem e mem_cons_self)
    have hrest : ∀ e' ∈ l, e' ∈ (m.erase e.1).entries := by
      intro e' he'
      have hne : e'.1 ≠ e.1 := fun heq => hnot (heq ▸ mem_keys_of_mem he')
      have hold := mem_lookup_iff.mpr (hmem e' (mem_cons_of_mem _ he'))
      rw [← lookup_erase_ne hne] at hold
      exact mem_lookup_iff.mp hold
    exact (values_perm_of_lookup hlookup).trans ((ih (m.erase e.1) hl hrest).cons _)

/-- What a map that is a function has after an entry is set or taken out. -/
theorem of_update {f : α → Option β} {a a' : α} {new : Option β}
    (h : Function.update f a new a' = some b) : a' = a ∧ new = some b ∨ a' ≠ a ∧ f a' = some b := by
  rcases eq_or_ne a' a with rfl | hne
  · rw [Function.update_self] at h
    exact .inl ⟨rfl, h⟩
  · rw [Function.update_of_ne hne] at h
    exact .inr ⟨hne, h⟩

/-- Every entry that `m` has and whose key `m'` does not have is a `P`. -/
def Loses (P : α → β → Prop) (m m' : AList fun _ : α => β) : Prop :=
  ∀ a b, m.lookup a = some b → m'.lookup a = none → P a b

variable {P : α → β → Prop}

@[simp] theorem Loses.refl (m : AList fun _ : α => β) : Loses P m m :=
  fun a b h hnone => by cases h.symm.trans hnone

theorem loses_erase (h : m.lookup a = some b) : Loses P m (m.erase a) ↔ P a b := by
  refine ⟨fun hP => hP a b h (lookup_erase a m), fun hP a' b' h' hnone => ?_⟩
  rcases eq_or_ne a' a with rfl | hne
  · cases h.symm.trans h'
    exact hP
  · rw [lookup_erase_ne hne, h'] at hnone
    cases hnone

theorem mem_of_mem_erase (h : e ∈ (m.erase a).entries) : e ∈ m.entries :=
  (kerase_sublist a m.entries).subset h

theorem forall_mem_insert {P : (Sigma fun _ : α => β) → Prop} (hnew : P ⟨a, b⟩)
    (h : ∀ e ∈ m.entries, P e) : ∀ e ∈ (m.insert a b).entries, P e :=
  forall_mem_cons.mpr ⟨hnew, fun e he => h e (mem_of_mem_erase he)⟩

variable {δ : Type*}

theorem mem_of_mem_foldl_erase (key : δ → α) (l : List δ) (m : AList fun _ : α => β)
    (h : e ∈ (l.foldl (fun m x => m.erase (key x)) m).entries) : e ∈ m.entries := by
  induction l generalizing m with
  | nil => exact h
  | cons x l ih => exact mem_of_mem_erase (ih (m.erase (key x)) h)

theorem key_notMem_of_mem_foldl_erase (key : δ → α) (l : List δ)
    (m : AList fun _ : α => β) (h : e ∈ (l.foldl (fun m x => m.erase (key x)) m).entries) :
    e.1 ∉ l.map key := by
  induction l generalizing m with
  | nil => exact not_mem_nil
  | cons x l ih =>
    rw [map_cons, mem_cons, not_or]
    refine ⟨fun heq => ?_, ih (m.erase (key x)) h⟩
    have hold : e ∈ (m.erase (key x)).entries := mem_of_mem_foldl_erase key l _ h
    have hlookup := Option.mem_def.mp (mem_lookup_iff.mpr hold)
    rw [heq, lookup_erase] at hlookup
    cases hlookup

theorem lookup_foldl_erase_of_ne (key : δ → α) (l : List δ) (m : AList fun _ : α => β)
    (h : ∀ x ∈ l, key x ≠ a) : (l.foldl (fun m x => m.erase (key x)) m).lookup a = m.lookup a := by
  induction l generalizing m with
  | nil => rfl
  | cons x l ih =>
    refine (ih _ fun y hy => h y (mem_cons_of_mem _ hy)).trans ?_
    exact lookup_erase_ne (h x mem_cons_self).symm

/-- Inserting values under distinct keys that are new. -/
theorem values_perm_foldl_insert (key : δ → α) (val : δ → β) (l : List δ)
    (m : AList fun _ : α => β) (hl : (l.map key).Nodup) (hm : ∀ x ∈ l, m.lookup (key x) = none) :
    (values (l.foldl (fun m x => m.insert (key x) (val x)) m)).Perm (l.map val ++ values m) := by
  induction l generalizing m with
  | nil => exact List.Perm.refl _
  | cons x l ih =>
    obtain ⟨hnot, hl⟩ := nodup_cons.mp hl
    have hrest : ∀ y ∈ l, (m.insert (key x) (val x)).lookup (key y) = none := by
      intro y hy
      have hne : key y ≠ key x := fun heq => hnot (heq ▸ mem_map_of_mem hy)
      rw [lookup_insert_ne hne]
      exact hm y (mem_cons_of_mem _ hy)
    refine (ih _ hl hrest).trans ?_
    rw [values_insert_of_none (hm x mem_cons_self)]
    exact perm_middle

theorem lookup_foldl_insert_of_ne (key : δ → α) (val : δ → β) (l : List δ)
    (m : AList fun _ : α => β) (h : ∀ x ∈ l, key x ≠ a) :
    (l.foldl (fun m x => m.insert (key x) (val x)) m).lookup a = m.lookup a := by
  induction l generalizing m with
  | nil => rfl
  | cons x l ih =>
    refine (ih _ fun y hy => h y (mem_cons_of_mem _ hy)).trans ?_
    exact lookup_insert_ne (h x mem_cons_self).symm

/-- A key that is inserted with one value only has that value. -/
theorem lookup_foldl_insert_of_mem (key : δ → α) (val : δ → β) {l : List δ}
    (m : AList fun _ : α => β) {x : δ} (hx : x ∈ l)
    (hval : ∀ y ∈ l, key y = key x → val y = val x) :
    (l.foldl (fun m x => m.insert (key x) (val x)) m).lookup (key x) = some (val x) := by
  induction l using reverseRecOn with
  | nil => cases hx
  | append_singleton l y ih =>
    rw [foldl_append]
    by_cases hkey : key y = key x
    · rw [← hval y (by simp) hkey, ← hkey]
      exact lookup_insert _
    · have hin : x ∈ l := by
        rcases mem_append.mp hx with hin | hin
        · exact hin
        · exact absurd (congrArg key (mem_singleton.mp hin).symm) hkey
      refine (lookup_insert_ne (Ne.symm hkey)).trans (ih hin fun z hz => ?_)
      exact hval z (mem_append_left _ hz)

theorem forall_mem_foldl_insert {P : (_ : α) × β → Prop} (key : δ → α) (val : δ → β) {l : List δ}
    {m : AList fun _ : α => β} (hm : ∀ e ∈ m.entries, P e) (hl : ∀ x ∈ l, P ⟨key x, val x⟩) :
    ∀ e ∈ (l.foldl (fun m x => m.insert (key x) (val x)) m).entries, P e := by
  induction l generalizing m with
  | nil => exact hm
  | cons x l ih =>
    exact ih (forall_mem_insert (hl x mem_cons_self) hm) fun y hy => hl y (mem_cons_of_mem x hy)

end Assoc
