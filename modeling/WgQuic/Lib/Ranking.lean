import Mathlib.Data.List.Sort
import Mathlib.Data.Prod.Lex

/-!
# Sorting by a rank

A comparison that follows a rank sorts a list of items with different ranks in
only one way.
-/

namespace Ranking

variable {α β : Type} [LinearOrder β] {le : α → α → Bool} {rank : α → β} {left right : List α}

/-- The comparison is that of the ranks. -/
def Follows (le : α → α → Bool) (rank : α → β) : Prop :=
  ∀ first second, le first second = true ↔ rank first ≤ rank second

theorem Follows.sorted (follows : Follows le rank) (items : List α) :
    (items.mergeSort le).Pairwise fun first second => le first second = true := by
  refine List.pairwise_mergeSort ?_ ?_ items
  · intro first second third early late
    exact (follows _ _).mpr (((follows _ _).mp early).trans ((follows _ _).mp late))
  · intro first second
    rw [Bool.or_eq_true, follows, follows]
    exact le_total _ _

/-- Items with different ranks are sorted in one way. -/
theorem Follows.eq_of_perm (follows : Follows le rank) (perm : left.Perm right)
    (different : ∀ first ∈ left, ∀ second ∈ left, rank first = rank second → first = second) :
    left.mergeSort le = right.mergeSort le := by
  have leftPerm := List.mergeSort_perm left le
  have rightPerm := List.mergeSort_perm right le
  refine List.Perm.eq_of_pairwise ?_ (follows.sorted left) (follows.sorted right)
    (leftPerm.trans (perm.trans rightPerm.symm))
  intro first second inLeft inRight early late
  refine different first (leftPerm.mem_iff.mp inLeft) second
    (perm.mem_iff.mpr (rightPerm.mem_iff.mp inRight)) ?_
  exact le_antisymm ((follows _ _).mp early) ((follows _ _).mp late)

theorem Follows.mergeSort_mergeSort (follows : Follows le rank) (items : List α) :
    (items.mergeSort le).mergeSort le = items.mergeSort le :=
  List.mergeSort_of_pairwise (follows.sorted items)

end Ranking
