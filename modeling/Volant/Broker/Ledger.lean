-- SUMMARY: What it means that every transactional record is accounted for, in memory or on disk.
import Volant.Broker.State

/-!
# Ledgers

A ledger says that every transactional record on the logs is accounted for:
its transaction is committed, its offset is aborted, or its transaction is one
of the listed ones, whose written ranges are exactly its records. The same
notion is used of the broker's memory, where the listed transactions are the
open and prepared ones, and of a disk image, where they are the prepared ones
and the ranges stored as open count as aborted.

The lemmas are the moves a broker makes: begin, write, commit, abort, and the
append of other records.
-/

namespace Volant.Broker

open List

/-- The offset lies in one of the ranges. -/
def Covered (ranges : List WrittenRange) (tp : TopicPartition) (o : Nat) : Prop :=
  ∃ r ∈ ranges, r.tp = tp ∧ r.firstOffset ≤ o ∧ o < r.endOffset

variable {tp : TopicPartition}

theorem covered_append {a b : List WrittenRange} {o : Nat} :
    Covered (a ++ b) tp o ↔ Covered a tp o ∨ Covered b tp o := by
  simp [Covered, or_and_right, exists_or]

theorem covered_singleton {r : WrittenRange} {o : Nat} :
    Covered [r] tp o ↔ r.tp = tp ∧ r.firstOffset ≤ o ∧ o < r.endOffset := by
  simp [Covered]

/-- A record that an abort may hide: a control marker, or one of a transaction not committed. -/
def Origin.Discardable (committed : List Nat) (g : Origin) : Prop :=
  g = .control ∨ ∃ n, g = .txn n ∧ n ∉ committed

/-- Aborted offsets hold nothing but discardable records. -/
def Exact (origins : TopicPartition → List Origin) (aborted : TopicPartition → Nat → Prop)
    (committed : List Nat) : Prop :=
  ∀ tp (o : Nat), aborted tp o → ∃ g, (origins tp)[o]? = some g ∧ g.Discardable committed

/-- `exact` says whether the ledger also vouches that nothing else is aborted. -/
structure Ledger (exact : Prop) (origins : TopicPartition → List Origin)
    (aborted : TopicPartition → Nat → Prop) (nextSerial : Nat) (committed : List Nat)
    (txns : List OpenTxn) : Prop where
  distinct : (txns.map (·.serial)).Nodup
  own : ∀ t ∈ txns, ∀ tp (o : Nat), (origins tp)[o]? = some (Origin.txn t.serial) ↔
    Covered t.written tp o
  bound : ∀ tp (o n : Nat), (origins tp)[o]? = some (Origin.txn n) → n < nextSerial
  listed : ∀ t ∈ txns, t.serial < nextSerial ∧ t.serial ∉ committed
  old : ∀ n ∈ committed, n < nextSerial
  held : ∀ tp (o n : Nat), (origins tp)[o]? = some (Origin.txn n) →
    n ∈ committed ∨ aborted tp o ∨ ∃ t ∈ txns, t.serial = n
  exact : exact → Exact origins aborted committed

variable {exact : Prop} {origins : TopicPartition → List Origin}
  {aborted aborted' : TopicPartition → Nat → Prop}
  {nextSerial : Nat} {committed : List Nat} {txns txns' lost : List OpenTxn} {t t' : OpenTxn}

/-- The same serial numbers and written ranges. -/
theorem same_core (h : (txns'.map fun t => (t.serial, t.written)).Perm
      (txns.map fun t => (t.serial, t.written))) :
    (txns'.map (·.serial)).Perm (txns.map (·.serial)) ∧
      ∀ t' ∈ txns', ∃ t ∈ txns, t.serial = t'.serial ∧ t.written = t'.written := by
  refine ⟨by simpa [Function.comp_def] using h.map Prod.fst, fun t' ht' => ?_⟩
  have hin := h.subset (mem_map_of_mem (f := fun t => (t.serial, t.written)) ht')
  obtain ⟨t, ht, hcore⟩ := mem_map.mp hin
  exact ⟨t, ht, congrArg Prod.fst hcore, congrArg Prod.snd hcore⟩

namespace Ledger

theorem empty (h : ∀ tp, origins tp = []) (ha : ∀ tp o, ¬ aborted tp o) :
    Ledger exact origins aborted nextSerial [] [] := by
  constructor <;> simp [h, Exact, ha]

section

variable (h : Ledger exact origins aborted nextSerial committed txns)

include h

/-- Only the serial numbers and the written ranges of the listed transactions matter. -/
theorem congr (heq : (txns'.map fun t => (t.serial, t.written)).Perm
      (txns.map fun t => (t.serial, t.written))) :
    Ledger exact origins aborted nextSerial committed txns' := by
  obtain ⟨hserials, hmem⟩ := same_core heq
  refine ⟨hserials.nodup_iff.mpr h.distinct, ?_, h.bound, ?_, h.old, ?_, h.exact⟩
  · intro t' ht' tp o
    obtain ⟨t, ht, hserial, hwritten⟩ := hmem t' ht'
    rw [← hserial, ← hwritten]
    exact h.own t ht tp o
  · intro t' ht'
    obtain ⟨t, ht, hserial, _⟩ := hmem t' ht'
    rw [← hserial]
    exact h.listed t ht
  · intro tp o n ho
    rcases h.held tp o n ho with hc | ha | ⟨t, ht, rfl⟩
    · exact .inl hc
    · exact .inr (.inl ha)
    · obtain ⟨t', ht', hserial, -⟩ := (same_core heq.symm).2 t ht
      exact .inr (.inr ⟨t', ht', hserial⟩)

theorem perm (hp : txns'.Perm txns) : Ledger exact origins aborted nextSerial committed txns' :=
  h.congr (hp.map _)

/-- The records of a listed transaction are discardable. -/
theorem exact_covered (ht : t ∈ txns) : Exact origins (Covered t.written) committed := by
  intro tp o hcov
  exact ⟨.txn t.serial, (h.own t ht tp o).mpr hcov, .inr ⟨_, rfl, (h.listed t ht).2⟩⟩

end

/-- Transactions whose records are all aborted need not be listed. -/
theorem abort (h : Ledger exact origins aborted nextSerial committed (lost ++ txns))
    (hmono : ∀ tp o, aborted tp o → aborted' tp o)
    (hlost : ∀ t ∈ lost, ∀ tp o, Covered t.written tp o → aborted' tp o)
    (hexact : exact → Exact origins aborted' committed) :
    Ledger exact origins aborted' nextSerial committed txns := by
  refine ⟨?_, fun t ht => h.own t (mem_append_right _ ht), h.bound,
    fun t ht => h.listed t (mem_append_right _ ht), h.old, ?_, hexact⟩
  · have hnodup := h.distinct
    rw [map_append] at hnodup
    exact hnodup.of_append_right
  · intro tp o n ho
    rcases h.held tp o n ho with hc | ha | ⟨t, ht, rfl⟩
    · exact .inl hc
    · exact .inr (.inl (hmono tp o ha))
    · rcases mem_append.mp ht with hl | hr
      · exact .inr (.inl (hlost t hl tp o ((h.own t ht tp o).mp ho)))
      · exact .inr (.inr ⟨t, hr, rfl⟩)

theorem commit (h : Ledger exact origins aborted nextSerial committed (t :: txns))
    (hclean : exact → ∀ tp o, Covered t.written tp o → ¬ aborted tp o) :
    Ledger exact origins aborted nextSerial (t.serial :: committed) txns := by
  have hnodup := h.distinct
  rw [map_cons, nodup_cons] at hnodup
  refine ⟨hnodup.2, fun u hu => h.own u (mem_cons_of_mem _ hu), h.bound, ?_, ?_, ?_, ?_⟩
  · intro u hu
    obtain ⟨hlt, hnot⟩ := h.listed u (mem_cons_of_mem _ hu)
    refine ⟨hlt, ?_⟩
    intro hmem
    rcases mem_cons.mp hmem with heq | hin
    · exact hnodup.1 (heq ▸ mem_map_of_mem (f := (·.serial)) hu)
    · exact hnot hin
  · intro n hn
    rcases mem_cons.mp hn with rfl | hin
    · exact (h.listed t mem_cons_self).1
    · exact h.old n hin
  · intro tp o n ho
    rcases h.held tp o n ho with hc | ha | ⟨u, hu, rfl⟩
    · exact .inl (mem_cons_of_mem _ hc)
    · exact .inr (.inl ha)
    · rcases mem_cons.mp hu with rfl | hin
      · exact .inl mem_cons_self
      · exact .inr (.inr ⟨u, hin, rfl⟩)
  · intro hex tp o ha
    obtain ⟨g, hg, hdisc⟩ := h.exact hex tp o ha
    refine ⟨g, hg, hdisc.imp_right ?_⟩
    rintro ⟨n, rfl, hn⟩
    refine ⟨n, rfl, fun hmem => ?_⟩
    rcases mem_cons.mp hmem with rfl | hin
    · exact hclean hex tp o ((h.own t mem_cons_self tp o).mp hg) ha
    · exact hn hin

theorem begin_ (h : Ledger exact origins aborted nextSerial committed txns)
    (hserial : t.serial = nextSerial) (hwritten : t.written = []) :
    Ledger exact origins aborted (nextSerial + 1) committed (t :: txns) := by
  have hnone : ∀ tp (o : Nat), (origins tp)[o]? ≠ some (Origin.txn nextSerial) :=
    fun tp o ho => lt_irrefl _ (h.bound tp o _ ho)
  refine ⟨?_, ?_, fun tp o n ho => Nat.lt_succ_of_lt (h.bound tp o n ho), ?_,
    fun n hn => Nat.lt_succ_of_lt (h.old n hn), ?_, h.exact⟩
  · rw [map_cons, nodup_cons]
    refine ⟨?_, h.distinct⟩
    intro hmem
    obtain ⟨u, hu, heq⟩ := mem_map.mp hmem
    exact absurd (h.listed u hu).1 (by omega)
  · intro u hu tp o
    rcases mem_cons.mp hu with rfl | hin
    · simp [hserial, hwritten, hnone, Covered]
    · exact h.own u hin tp o
  · intro u hu
    rcases mem_cons.mp hu with rfl | hin
    · exact ⟨by omega, fun hmem => absurd (h.old _ hmem) (by omega)⟩
    · exact ⟨Nat.lt_succ_of_lt (h.listed u hin).1, (h.listed u hin).2⟩
  · intro tp o n ho
    rcases h.held tp o n ho with hc | ha | ⟨u, hu, hserial⟩
    · exact .inl hc
    · exact .inr (.inl ha)
    · exact .inr (.inr ⟨u, mem_cons_of_mem _ hu, hserial⟩)

end Ledger

/-! ## Appends -/

/-- The origins of a log after `k` more records of one origin. -/
def appendOrigins (origins : TopicPartition → List Origin) (tp : TopicPartition) (k : Nat)
    (g : Origin) : TopicPartition → List Origin :=
  Function.update origins tp (origins tp ++ List.replicate k g)

theorem appendOrigins_getElem? {tp tp' : TopicPartition} {k o : Nat} {g h : Origin} :
    (appendOrigins origins tp k g tp')[o]? = some h ↔ (origins tp')[o]? = some h ∨
      (tp = tp' ∧ (origins tp).length ≤ o ∧ o < (origins tp).length + k ∧ h = g) := by
  unfold appendOrigins
  rcases eq_or_ne tp' tp with rfl | hne
  · rw [Function.update_self]
    rcases Nat.lt_or_ge o (origins tp').length with hlt | hge
    · rw [getElem?_append_left hlt]
      exact ⟨.inl, fun h => h.resolve_right fun hr => absurd hr.2.1 (by omega)⟩
    · rw [getElem?_append_right hge, getElem?_replicate, getElem?_eq_none hge]
      by_cases hk : o - (origins tp').length < k
      · simp only [hk, if_true, Option.some.injEq, reduceCtorEq, false_or, true_and]
        exact ⟨fun heq => ⟨hge, by omega, heq.symm⟩, fun hr => hr.2.2.symm⟩
      · simp only [hk, if_false, reduceCtorEq, false_or, true_and, false_iff]
        exact fun hr => hk (by omega)
  · rw [Function.update_of_ne hne]
    exact ⟨.inl, fun h => h.resolve_right fun hr => hne hr.1.symm⟩

theorem Exact.append (h : Exact origins aborted committed) (tp : TopicPartition) (k : Nat)
    (g : Origin) : Exact (appendOrigins origins tp k g) aborted committed := by
  intro tp' o ha
  obtain ⟨g', hg', hdisc⟩ := h tp' o ha
  exact ⟨g', appendOrigins_getElem?.mpr (.inl hg'), hdisc⟩

/-- A record that belongs to no transaction. -/
theorem Ledger.append (h : Ledger exact origins aborted nextSerial committed txns) (tp : TopicPartition)
    (k : Nat) {g : Origin} (hg : ∀ n, g ≠ .txn n) :
    Ledger exact (appendOrigins origins tp k g) aborted nextSerial committed txns := by
  have hsame : ∀ tp' (o n : Nat), (appendOrigins origins tp k g tp')[o]? = some (Origin.txn n) ↔
      (origins tp')[o]? = some (Origin.txn n) := by
    intro tp' o n
    rw [appendOrigins_getElem?]
    exact ⟨fun h => h.resolve_right fun hr => hg n hr.2.2.2.symm, .inl⟩
  refine ⟨h.distinct, ?_, ?_, h.listed, h.old, ?_, fun hex => (h.exact hex).append tp k g⟩
  · intro t ht tp' o
    rw [hsame]
    exact h.own t ht tp' o
  · intro tp' o n ho
    exact h.bound tp' o n ((hsame tp' o n).mp ho)
  · intro tp' o n ho
    exact h.held tp' o n ((hsame tp' o n).mp ho)

/-- A listed transaction writes, and lists what it wrote. -/
theorem Ledger.write (h : Ledger exact origins aborted nextSerial committed (t :: txns)) {k : Nat} {r : WrittenRange} (hserial : t'.serial = t.serial)
    (hwritten : t'.written = t.written ++ [r]) (hr : r.tp = tp ∧
      r.firstOffset = (origins tp).length ∧ r.endOffset = (origins tp).length + k) :
    Ledger exact (appendOrigins origins tp k (.txn t.serial)) aborted nextSerial committed
      (t' :: txns) := by
  obtain ⟨hlt, hnot⟩ := h.listed t mem_cons_self
  have hnodup := h.distinct
  rw [map_cons, nodup_cons] at hnodup
  refine ⟨?_, ?_, ?_, ?_, h.old, ?_, fun hex => (h.exact hex).append tp k _⟩
  · rw [map_cons, hserial]
    exact h.distinct
  · intro u hu tp' o
    rw [appendOrigins_getElem?]
    rcases mem_cons.mp hu with rfl | hin
    · rw [hserial, hwritten, covered_append, covered_singleton, h.own t mem_cons_self, hr.1,
        hr.2.1, hr.2.2]
      simp
    · -- the new records are of another transaction
      have hne : t.serial ≠ u.serial :=
        fun heq => hnodup.1 (heq ▸ mem_map_of_mem (f := (·.serial)) hin)
      rw [← h.own u (mem_cons_of_mem _ hin)]
      exact ⟨fun hor => hor.resolve_right fun hnew =>
        hne (Origin.txn.inj hnew.2.2.2).symm, .inl⟩
  · intro tp' o n ho
    rcases appendOrigins_getElem?.mp ho with hold | ⟨-, -, -, hg⟩
    · exact h.bound tp' o n hold
    · rw [Origin.txn.inj hg]
      exact hlt
  · intro u hu
    rcases mem_cons.mp hu with rfl | hin
    · rw [hserial]
      exact ⟨hlt, hnot⟩
    · exact h.listed u (mem_cons_of_mem _ hin)
  · intro tp' o n ho
    have hlisted : ∀ u ∈ t :: txns, ∃ v ∈ t' :: txns, v.serial = u.serial := by
      intro u hu
      rcases mem_cons.mp hu with rfl | hin
      · exact ⟨t', mem_cons_self, hserial⟩
      · exact ⟨u, mem_cons_of_mem _ hin, rfl⟩
    rcases appendOrigins_getElem?.mp ho with hold | ⟨-, -, -, hg⟩
    · rcases h.held tp' o n hold with hc | ha | ⟨u, hu, rfl⟩
      · exact .inl hc
      · exact .inr (.inl ha)
      · exact .inr (.inr (hlisted u hu))
    · rw [Origin.txn.inj hg]
      exact .inr (.inr (hlisted t mem_cons_self))

end Volant.Broker
