import Mathlib.Data.Finset.Card

/-!
# Sets that are emptied when they are full

Items of a fixed finite set come in any order and any number of times.  They
are collected until all are there, and then the collection starts again.
-/

namespace Collector

variable {α : Type} [DecidableEq α] (full : Finset α)

def step (pending : Finset α) (item : α) : Finset α :=
  if insert item pending = full then ∅ else insert item pending

/-- What has been collected since the set was full the last time. -/
def pending (items : List α) : Finset α := items.foldl (step full) ∅

theorem pending_concat (items : List α) (item : α) :
    pending full (items ++ [item]) = step full (pending full items) item := by
  simp [pending]

variable {full}

theorem pending_ssubset (nonempty : full.Nonempty) {items : List α}
    (known : ∀ item ∈ items, item ∈ full) : pending full items ⊂ full := by
  induction items using List.reverseRecOn with
  | nil => exact Finset.empty_ssubset.mpr nonempty
  | append_singleton items item ih =>
    have before := ih fun other member =>
      known other (List.mem_append_left _ member)
    rw [pending_concat, step]
    split
    · exact Finset.empty_ssubset.mpr nonempty
    · next unfilled =>
      refine Finset.ssubset_iff_subset_ne.mpr ⟨?_, unfilled⟩
      exact Finset.insert_subset (known item (by simp)) before.subset

/-- Nothing is dropped while an item is still missing. -/
theorem pending_eq_toFinset {items : List α} {absent : α} (member : absent ∈ full)
    (missing : absent ∉ items) : pending full items = items.toFinset := by
  induction items using List.reverseRecOn with
  | nil => rfl
  | append_singleton items item ih =>
    simp only [List.mem_append, List.mem_singleton, not_or] at missing
    have before := ih missing.1
    have unfilled : insert item (pending full items) ≠ full := by
      intro filled
      rw [← filled, before] at member
      simp only [Finset.mem_insert, List.mem_toFinset] at member
      exact member.elim missing.2 missing.1
    rw [pending_concat, step, if_neg unfilled, before]
    simp

end Collector
