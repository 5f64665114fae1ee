import Mathlib.Algebra.Group.Nat.Defs
import Mathlib.Data.List.Rotate

/-!
# Ring buffers and binary search
-/

namespace Ring

/-- The oldest item of a full ring is overwritten and becomes the newest. -/
theorem rotate_set {α : Type} {items : List α} {first : Nat} {oldest : α}
    (found : items[first]? = some oldest) (new : α) :
    ∃ rest, items.rotate first = oldest :: rest ∧
      (items.set first new).rotate ((first + 1) % items.length) = rest ++ [new] := by
  obtain ⟨bound, rfl⟩ := List.getElem?_eq_some_iff.mp found
  refine ⟨items.drop (first + 1) ++ items.take first, ?_, ?_⟩
  · rw [List.rotate_eq_drop_append_take (Nat.le_of_lt bound), List.drop_eq_getElem_cons bound]
    rfl
  · have length : (items.set first new).length = items.length := by simp
    rw [← length, List.rotate_mod, List.rotate_eq_drop_append_take (by simpa),
      List.drop_set_of_lt (Nat.lt_succ_self first), List.take_add_one,
      List.take_set_of_le (Nat.le_refl _), List.getElem?_set_self bound]
    simp

/-- The loop of `sort.Search` on the interval from `i` to `j`. -/
def searchLoop (f : Nat → Bool) : Nat → Nat → Nat → Nat
  | 0, i, _ => i
  | fuel + 1, i, j =>
    if i < j then
      let h := (i + j) / 2
      if f h = false then searchLoop f fuel (h + 1) j else searchLoop f fuel i h
    else i

/-- The first index from which on `f` holds, or `n`. -/
def search (n : Nat) (f : Nat → Bool) : Nat :=
  searchLoop f n 0 n

theorem search_eq {n k : Nat} {f : Nat → Bool} (bound : k ≤ n) (below : ∀ i < k, f i = false)
    (above : ∀ i, k ≤ i → i < n → f i = true) : search n f = k := by
  have loop : ∀ fuel i j, i ≤ k → k ≤ j → j ≤ n → j ≤ i + fuel → searchLoop f fuel i j = k := by
    intro fuel
    induction fuel with
    | zero =>
      intro i j least most _ enough
      exact Nat.le_antisymm least (most.trans enough)
    | succ fuel ih =>
      intro i j least most inside enough
      rw [searchLoop]
      split
      · next room =>
        dsimp only
        split
        · next fails =>
          have later : (i + j) / 2 < k := by
            by_contra beyond
            rw [above _ (Nat.not_lt.mp beyond) (by omega)] at fails
            cases fails
          exact ih _ _ later most inside (by omega)
        · next holds =>
          have earlier : k ≤ (i + j) / 2 := by
            by_contra beyond
            exact holds (below _ (Nat.not_le.mp beyond))
          exact ih _ _ least earlier (by omega) (by omega)
      · omega
  exact loop n 0 n (Nat.zero_le _) bound (Nat.le_refl _) (by omega)

end Ring
