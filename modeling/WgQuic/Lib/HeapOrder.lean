import Mathlib.Data.List.Nodup
import Mathlib.Order.Lattice
import WgQuic.Lib.IndexedHeap

/-!
# The order of an array heap

When elements are compared by a rank, the sift loops restore the order of the
heap around one place, the hole.  The stored positions stay those of the
elements, so that an element can be removed by its position, and the first
element has the least rank.
-/

namespace IndexedHeap

open List

variable {α κ : Type} [LinearOrder κ]

def before (rank : α → κ) (left right : α) : Bool :=
  rank left < rank right

/-- The elements at two places, if there are any, are in order. -/
def InOrder (rank : α → κ) (heap : IndexedHeap α) (upper lower : Nat) : Prop :=
  ∀ left right, heap.items[upper]? = some left → heap.items[lower]? = some right →
    rank left ≤ rank right

/-- No element among the first `n` comes before its parent. -/
def Ordered (rank : α → κ) (heap : IndexedHeap α) (n : Nat) : Prop :=
  ∀ child, 0 < child → child < n → heap.InOrder rank ((child - 1) / 2) child

/-- The first `n` elements are in order but for those next to the hole; its
children do not come before its parent. -/
structure Hole (rank : α → κ) (heap : IndexedHeap α) (n hole : Nat) : Prop where
  elsewhere : ∀ child, 0 < child → child < n → child ≠ hole → (child - 1) / 2 ≠ hole →
    heap.InOrder rank ((child - 1) / 2) child
  across : 0 < hole → ∀ child, 0 < child → child < n → (child - 1) / 2 = hole →
    heap.InOrder rank ((hole - 1) / 2) child

/-- The element in the hole does not come after its children. -/
structure Rising (rank : α → κ) (heap : IndexedHeap α) (n hole : Nat) : Prop extends
    heap.Hole rank n hole where
  children : ∀ child, 0 < child → child < n → (child - 1) / 2 = hole → heap.InOrder rank hole child

/-- The element in the hole does not come before its parent. -/
structure Sinking (rank : α → κ) (heap : IndexedHeap α) (n hole : Nat) : Prop extends
    heap.Hole rank n hole where
  parent : 0 < hole → heap.InOrder rank ((hole - 1) / 2) hole

section Order

variable {rank : α → κ} {heap : IndexedHeap α} {n i j k : Nat}

theorem InOrder.trans (first : heap.InOrder rank i j) (second : heap.InOrder rank j k)
    (bound : j < heap.size) : heap.InOrder rank i k := by
  intro left right atLeft atRight
  have atMid := getElem?_eq_getElem bound
  exact (first _ _ atLeft atMid).trans (second _ _ atMid atRight)

theorem InOrder.refl : heap.InOrder rank i i := by
  intro left right atLeft atRight
  rw [atLeft] at atRight
  cases atRight
  exact le_refl _

theorem inOrder_of_lessAt_false (less : heap.lessAt (before rank) i j = false) :
    heap.InOrder rank j i := by
  intro left right atLeft atRight
  simp only [lessAt, atLeft, atRight, before, decide_eq_false_iff_not, not_lt] at less
  exact less

theorem inOrder_of_lessAt (less : heap.lessAt (before rank) i j = true) :
    heap.InOrder rank i j := by
  intro left right atLeft atRight
  simp only [lessAt, atLeft, atRight, before, decide_eq_true_eq] at less
  exact less.le

theorem Rising.ordered (rising : heap.Rising rank n i)
    (stop : 0 < i → heap.InOrder rank ((i - 1) / 2) i) : heap.Ordered rank n := by
  intro child positive bound
  by_cases isHole : child = i
  · subst isHole
    exact stop positive
  · by_cases below : (child - 1) / 2 = i
    · rw [below]
      exact rising.children child positive bound below
    · exact rising.elsewhere child positive bound isHole below

/-- The child that sifting down looks at is a child, and the least of them. -/
theorem smallerChild_spec (rank : α → κ) (heap : IndexedHeap α) (bound : 2 * i + 1 < n) :
    0 < heap.smallerChild (before rank) i n ∧ heap.smallerChild (before rank) i n < n ∧
      (heap.smallerChild (before rank) i n - 1) / 2 = i ∧
      ∀ child, 0 < child → child < n → (child - 1) / 2 = i →
        heap.InOrder rank (heap.smallerChild (before rank) i n) child := by
  unfold smallerChild
  dsimp only
  split
  next right =>
    refine ⟨by omega, right.1, by omega, ?_⟩
    intro child positive childBound below
    have either : child = 2 * i + 1 ∨ child = 2 * i + 1 + 1 := by omega
    rcases either with rfl | rfl
    · exact inOrder_of_lessAt right.2
    · exact InOrder.refl
  next left =>
    refine ⟨by omega, bound, by omega, ?_⟩
    intro child positive childBound below
    have either : child = 2 * i + 1 ∨ child = 2 * i + 1 + 1 := by omega
    rcases either with rfl | rfl
    · exact InOrder.refl
    · rw [not_and, Bool.not_eq_true] at left
      exact inOrder_of_lessAt_false (left childBound)

variable [DecidableEq α]

@[simp]
theorem size_swap : (heap.swap i j).size = heap.size := (heap.swap_perm i j).length_eq

theorem getElem?_swap (iBound : i < heap.size) (jBound : j < heap.size) :
    (heap.swap i j).items[k]? = heap.items[if k = i then j else if k = j then i else k]? := by
  have atI : heap.items[i]? = some (heap.items.get ⟨i, iBound⟩) := getElem?_eq_getElem iBound
  have atJ : heap.items[j]? = some (heap.items.get ⟨j, jBound⟩) := getElem?_eq_getElem jBound
  unfold swap
  simp only [atI, atJ]
  by_cases isJ : k = j
  · subst isJ
    rw [getElem?_set_self (by rwa [length_set])]
    by_cases isI : k = i
    · subst isI
      rw [if_pos rfl]
      exact atI.symm
    · rw [if_neg isI, if_pos rfl]
      exact atI.symm
  · rw [getElem?_set_ne (Ne.symm isJ)]
    by_cases isI : k = i
    · subst isI
      rw [getElem?_set_self iBound, if_pos rfl]
      exact atJ.symm
    · rw [getElem?_set_ne (Ne.symm isI), if_neg isI, if_neg isJ]

theorem inOrder_swap (iBound : i < heap.size) (jBound : j < heap.size) {upper lower : Nat} :
    (heap.swap i j).InOrder rank upper lower ↔
      heap.InOrder rank (if upper = i then j else if upper = j then i else upper)
        (if lower = i then j else if lower = j then i else lower) := by
  unfold InOrder
  simp only [getElem?_swap iBound jBound]

theorem Rising.swap (rising : heap.Rising rank n i) (positive : 0 < i) (bound : i < n)
    (inside : n ≤ heap.size) (less : heap.InOrder rank i ((i - 1) / 2)) :
    (heap.swap ((i - 1) / 2) i).Rising rank n ((i - 1) / 2) := by
  have iBound : i < heap.size := by omega
  have parentBound : (i - 1) / 2 < heap.size := by omega
  have above : 0 < (i - 1) / 2 → heap.InOrder rank (((i - 1) / 2 - 1) / 2) ((i - 1) / 2) :=
    fun up => rising.elsewhere _ up (by omega) (by omega) (by omega)
  have beside : ∀ child, 0 < child → child < n → child ≠ i → (child - 1) / 2 = (i - 1) / 2 →
      heap.InOrder rank ((i - 1) / 2) child := by
    intro child childPositive childBound different sibling
    have kept := rising.elsewhere child childPositive childBound different (by omega)
    rwa [sibling] at kept
  refine ⟨⟨?_, ?_⟩, ?_⟩
  · intro child childPositive childBound notHole notBelow
    have different : child ≠ i := fun same => notBelow (by rw [same])
    rw [inOrder_swap parentBound iBound, if_neg notBelow]
    split
    next below => exact rising.across positive child childPositive childBound below
    next apart => exact rising.elsewhere child childPositive childBound different apart
  · intro up child childPositive childBound below
    rw [inOrder_swap parentBound iBound, if_neg (by omega), if_neg (by omega), if_neg (by omega)]
    split
    · exact above up
    next different =>
      exact (above up).trans (beside child childPositive childBound different below) parentBound
  · intro child childPositive childBound below
    rw [inOrder_swap parentBound iBound, if_pos rfl, if_neg (by omega)]
    split
    · exact less
    next different =>
      exact less.trans (beside child childPositive childBound different below) parentBound

variable {fuel : Nat}

theorem up_ordered (rising : heap.Rising rank n j) (bound : j < n) (inside : n ≤ heap.size)
    (enough : j < fuel) : (up (before rank) fuel heap j).Ordered rank n := by
  induction fuel generalizing heap j with
  | zero => omega
  | succ fuel ih =>
    rw [up]
    split
    next stop =>
      refine rising.ordered fun positive => ?_
      exact inOrder_of_lessAt_false (stop.resolve_left (by omega))
    next moves =>
      rw [not_or, Bool.not_eq_false] at moves
      have positive : 0 < j := by omega
      have moved := rising.swap positive bound inside (inOrder_of_lessAt moves.2)
      exact ih moved (by omega) (by rwa [size_swap]) (by omega)

theorem Hole.swap (hole : heap.Hole rank n i) (inside : n ≤ heap.size) (positive : 0 < j)
    (bound : j < n) (below : (j - 1) / 2 = i)
    (least : ∀ child, 0 < child → child < n → (child - 1) / 2 = i → heap.InOrder rank j child)
    (less : heap.InOrder rank j i) : (heap.swap i j).Sinking rank n j := by
  have iBound : i < heap.size := by omega
  have jBound : j < heap.size := by omega
  refine ⟨⟨?_, ?_⟩, ?_⟩
  · intro child childPositive childBound notHole notBelow
    rw [inOrder_swap iBound jBound, if_neg notBelow]
    by_cases isOld : child = i
    · -- the smaller child comes up below the parent of the hole
      subst isOld
      rw [if_pos rfl, if_neg (by omega)]
      exact hole.across childPositive j positive bound below
    · split
      next sibling => exact least child childPositive childBound sibling
      next apart => exact hole.elsewhere child childPositive childBound isOld apart
  · intro _ child childPositive childBound under
    rw [inOrder_swap iBound jBound, if_pos below, if_neg (by omega), if_neg (by omega)]
    have kept := hole.elsewhere child childPositive childBound (by omega) (by omega)
    rwa [under] at kept
  · intro _
    rw [inOrder_swap iBound jBound, if_pos below, if_neg (by omega), if_pos rfl]
    exact less

/-- The element in the hole stays and may have to go up, or the order is restored. -/
theorem down_hole (hole : heap.Hole rank n i) (inside : n ≤ heap.size) (enough : n ≤ fuel + i)
    (started : i < n) :
    (down (before rank) fuel heap i n = (heap, i) ∧ heap.Rising rank n i) ∨
      (i < (down (before rank) fuel heap i n).2 ∧
        (down (before rank) fuel heap i n).1.Ordered rank n) := by
  induction fuel generalizing heap i with
  | zero => omega
  | succ fuel ih =>
    rw [down]
    split
    next leaf => exact .inl ⟨rfl, hole, fun child _ _ _ => by omega⟩
    next inner =>
      obtain ⟨positive, bound, below, least⟩ := smallerChild_spec rank heap (Nat.lt_of_not_le inner)
      dsimp only
      split
      next stop =>
        refine .inl ⟨rfl, hole, fun child childPositive childBound under => ?_⟩
        exact (inOrder_of_lessAt_false stop).trans
          (least child childPositive childBound under) (by omega)
      next moves =>
        rw [Bool.not_eq_false] at moves
        have moved := hole.swap inside positive bound below least (inOrder_of_lessAt moves)
        right
        rcases ih moved.toHole (by rwa [size_swap]) (by omega) bound with
          ⟨stays, rising⟩ | ⟨further, restored⟩
        · rw [stays]
          exact ⟨by omega, rising.ordered moved.parent⟩
        · exact ⟨by omega, restored⟩

end Order

/-! ## Positions -/

/-- Every element knows its place. -/
structure Placed (heap : IndexedHeap α) : Prop where
  nodup : heap.items.Nodup
  position : ∀ (place : Nat) item, heap.items[place]? = some item → heap.position item = place

section Positions

variable {heap : IndexedHeap α} {less : α → α → Bool} {n i j k : Nat} {item : α}

theorem getElem?_pop_of_lt (bound : k < heap.pop.size) : heap.pop.items[k]? = heap.items[k]? := by
  change heap.items.dropLast[k]? = heap.items[k]?
  change k < heap.items.dropLast.length at bound
  rw [length_dropLast] at bound
  rw [getElem?_dropLast, if_pos bound]

theorem Placed.pop (placed : heap.Placed) : heap.pop.Placed := by
  refine ⟨placed.nodup.sublist (dropLast_sublist _), ?_⟩
  intro place item found
  refine placed.position place item ?_
  rwa [getElem?_pop_of_lt (List.getElem?_eq_some_iff.mp found).1] at found

theorem perm_pop (size : heap.size = n + 1) (last : heap.items[n]? = some item) :
    heap.items.Perm (item :: heap.pop.items) := by
  have nonempty : heap.items ≠ [] := by
    rintro empty
    rw [empty] at last
    cases last
  have isLast : heap.items.getLast nonempty = item := by
    rw [getLast_eq_getElem]
    have place : heap.items.length - 1 = n := by
      change heap.size - 1 = n
      omega
    rw [← place] at last
    exact (List.getElem?_eq_some_iff.mp last).2
  have whole := dropLast_append_getLast nonempty
  rw [isLast] at whole
  rw [← whole]
  exact perm_append_singleton item _

theorem smallerChild_lt (bound : 2 * i + 1 < n) : heap.smallerChild less i n < n := by
  unfold smallerChild
  dsimp only
  split
  next right => exact right.1
  · exact bound

variable [DecidableEq α]

theorem swap_eq_self (outside : heap.size ≤ i ∨ heap.size ≤ j) : heap.swap i j = heap := by
  unfold swap
  split
  next left right atI atJ =>
    have iBound := (List.getElem?_eq_some_iff.mp atI).1
    have jBound := (List.getElem?_eq_some_iff.mp atJ).1
    unfold size at outside
    omega
  · rfl

theorem Placed.swap (placed : heap.Placed) (i j : Nat) : (heap.swap i j).Placed := by
  refine ⟨(heap.swap_perm i j).nodup_iff.mpr placed.nodup, ?_⟩
  by_cases outside : heap.size ≤ i ∨ heap.size ≤ j
  · rw [swap_eq_self outside]
    exact placed.position
  rw [not_or, Nat.not_le, Nat.not_le] at outside
  obtain ⟨iBound, jBound⟩ := outside
  obtain ⟨left, atI⟩ : ∃ left, heap.items[i]? = some left := ⟨_, getElem?_eq_getElem iBound⟩
  obtain ⟨right, atJ⟩ : ∃ right, heap.items[j]? = some right := ⟨_, getElem?_eq_getElem jBound⟩
  have leftPlace := placed.position i left atI
  have rightPlace := placed.position j right atJ
  intro place item found
  rw [getElem?_swap iBound jBound] at found
  simp only [IndexedHeap.swap, atI, atJ, Function.update_apply]
  by_cases isI : place = i
  · rw [if_pos isI, atJ] at found
    cases found
    split
    next same =>
      rw [same] at rightPlace
      omega
    · rw [if_pos rfl, isI]
  · by_cases isJ : place = j
    · rw [if_neg isI, if_pos isJ, atI] at found
      cases found
      rw [if_pos rfl, isJ]
    · rw [if_neg isI, if_neg isJ] at found
      have itsPlace := placed.position place item found
      rw [if_neg, if_neg, itsPlace]
      · rintro rfl
        omega
      · rintro rfl
        omega

theorem Placed.up (placed : heap.Placed) (fuel j : Nat) : (up less fuel heap j).Placed := by
  induction fuel generalizing heap j with
  | zero => exact placed
  | succ fuel ih =>
    rw [IndexedHeap.up]
    split
    · exact placed
    · exact ih (placed.swap _ _) _

theorem Placed.down (placed : heap.Placed) (fuel i n : Nat) :
    (down less fuel heap i n).1.Placed := by
  induction fuel generalizing heap i with
  | zero => exact placed
  | succ fuel ih =>
    rw [IndexedHeap.down]
    split
    · exact placed
    · dsimp only
      split
      · exact placed
      · exact ih (placed.swap _ _) _

theorem getElem?_up_of_lt (fuel : Nat) (above : j < k) :
    (up less fuel heap j).items[k]? = heap.items[k]? := by
  induction fuel generalizing heap j with
  | zero => rfl
  | succ fuel ih =>
    rw [up]
    split
    · rfl
    next moves =>
      rw [ih (by omega)]
      by_cases bound : j < heap.size
      · rw [getElem?_swap (by omega) bound, if_neg (by omega), if_neg (by omega)]
      · rw [swap_eq_self (.inr (Nat.le_of_not_lt bound))]

theorem getElem?_down_of_le (fuel : Nat) (beyond : n ≤ k) (started : i < n) :
    (down less fuel heap i n).1.items[k]? = heap.items[k]? := by
  induction fuel generalizing heap i with
  | zero => rfl
  | succ fuel ih =>
    rw [down]
    split
    · rfl
    next inner =>
      have child : heap.smallerChild less i n < n := smallerChild_lt (Nat.lt_of_not_le inner)
      dsimp only
      split
      · rfl
      · rw [ih child]
        by_cases bound : i < heap.size ∧ heap.smallerChild less i n < heap.size
        · rw [getElem?_swap bound.1 bound.2, if_neg (by omega), if_neg (by omega)]
        · rw [swap_eq_self (by omega)]

end Positions

/-! ## Well-formed heaps -/

structure WellFormed (rank : α → κ) (heap : IndexedHeap α) : Prop extends heap.Placed where
  ordered : heap.Ordered rank heap.size

section WellFormed

variable {rank : α → κ} {heap : IndexedHeap α} {i : Nat} {item : α}

theorem wellFormed_empty (rank : α → κ) : WellFormed rank ({} : IndexedHeap α) where
  nodup := nodup_nil
  position place item found := by simp at found
  ordered child positive bound := absurd bound (Nat.not_lt_zero child)

theorem WellFormed.first_le (wellFormed : heap.WellFormed rank) {first : α}
    (start : heap.items[0]? = some first) (listed : item ∈ heap.items) :
    rank first ≤ rank item := by
  obtain ⟨place, found⟩ := mem_iff_getElem?.mp listed
  induction place using Nat.strong_induction_on generalizing item with
  | _ place ih =>
    by_cases isFirst : place = 0
    · rw [isFirst, start] at found
      cases found
      exact le_refl _
    · have bound := (List.getElem?_eq_some_iff.mp found).1
      obtain ⟨parent, above⟩ : ∃ parent, heap.items[(place - 1) / 2]? = some parent :=
        ⟨_, getElem?_eq_getElem (by omega)⟩
      have upper := ih ((place - 1) / 2) (by omega) (mem_of_getElem? above) above
      exact upper.trans
        (wellFormed.ordered place (Nat.pos_of_ne_zero isFirst) bound _ _ above found)

theorem Placed.wellFormed_pop (placed : heap.Placed) {n : Nat} (size : heap.size = n + 1)
    (ordered : heap.Ordered rank n) : heap.pop.WellFormed rank := by
  refine { placed.pop with ordered := ?_ }
  have smaller : heap.pop.size = n := by
    change heap.items.dropLast.length = n
    change heap.items.length = n + 1 at size
    rw [length_dropLast]
    omega
  intro child positive bound upper lower atUpper atLower
  rw [getElem?_pop_of_lt (by omega)] at atUpper
  rw [getElem?_pop_of_lt bound] at atLower
  exact ordered child positive (by omega) upper lower atUpper atLower

variable [DecidableEq α]

theorem WellFormed.push (wellFormed : heap.WellFormed rank) (fresh : item ∉ heap.items) :
    (heap.push (before rank) item).WellFormed rank := by
  let added : IndexedHeap α :=
    { items := heap.items ++ [item], position := Function.update heap.position item heap.size }
  have size : added.size = heap.size + 1 := by
    simp [added, IndexedHeap.size]
  have old : ∀ place < heap.size, added.items[place]? = heap.items[place]? :=
    fun place bound => getElem?_append_left bound
  have placed : added.Placed := by
    refine ⟨nodup_append.mpr ⟨wellFormed.nodup, nodup_singleton item, ?_⟩, ?_⟩
    · rintro other listed _ last rfl
      rw [mem_singleton.mp last] at listed
      exact fresh listed
    · intro place other found
      have bound := (List.getElem?_eq_some_iff.mp found).1
      by_cases last : place = heap.size
      · subst last
        have isItem : added.items[heap.size]? = some item := getElem?_concat_length
        rw [isItem] at found
        cases found
        simp [added]
      · have before : place < heap.size := by
          change place < added.size at bound
          omega
        rw [old place before] at found
        have different : other ≠ item := by
          rintro rfl
          exact fresh (mem_of_getElem? found)
        simp only [added, Function.update_of_ne different]
        exact wellFormed.position place other found
  have rising : added.Rising rank (heap.size + 1) heap.size := by
    refine ⟨⟨?_, ?_⟩, ?_⟩
    · intro child positive bound notHole _ upper lower atUpper atLower
      rw [old _ (by omega)] at atUpper
      rw [old _ (by omega)] at atLower
      exact wellFormed.ordered child positive (by omega) upper lower atUpper atLower
    · intro _ child positive bound below
      omega
    · intro child positive bound below
      omega
  have ordered : (up (before rank) (heap.size + 1) added heap.size).Ordered rank (heap.size + 1) :=
    up_ordered rising (Nat.lt_succ_self _) (Nat.le_of_eq size.symm) (Nat.lt_succ_self _)
  refine { placed.up _ _ with ordered := ?_ }
  have whole : (heap.push (before rank) item).size = heap.size + 1 :=
    (up_perm (before rank) _ added _).length_eq.trans size
  rw [whole]
  exact ordered

theorem WellFormed.remove (wellFormed : heap.WellFormed rank) (found : heap.items[i]? = some item) :
    (heap.remove (before rank) i).WellFormed rank ∧
      (heap.remove (before rank) i).items.Perm (heap.items.erase item) := by
  have iBound : i < heap.size := (List.getElem?_eq_some_iff.mp found).1
  -- a heap that differs by the order of its elements and has the item at its end
  have finish : ∀ sifted : IndexedHeap α, sifted.Placed → sifted.items.Perm heap.items →
      sifted.items[heap.size - 1]? = some item → sifted.Ordered rank (heap.size - 1) →
      sifted.pop.WellFormed rank ∧ sifted.pop.items.Perm (heap.items.erase item) := by
    intro sifted placed same last ordered
    have size : sifted.size = heap.size - 1 + 1 := by
      have equal : sifted.size = heap.size := same.length_eq
      omega
    refine ⟨placed.wellFormed_pop size ordered, ?_⟩
    have together := (same.symm.trans (perm_pop size last)).erase item
    rw [erase_cons_head] at together
    exact together.symm
  unfold IndexedHeap.remove
  dsimp only
  split
  next isLast =>
    refine finish heap wellFormed.toPlaced (List.Perm.refl _) (isLast ▸ found) ?_
    exact fun child positive bound => wellFormed.ordered child positive (by omega)
  next inner =>
    have nBound : heap.size - 1 < heap.size := by omega
    let swapped := heap.swap i (heap.size - 1)
    have placed : swapped.Placed := wellFormed.toPlaced.swap _ _
    have same : swapped.items.Perm heap.items := heap.swap_perm _ _
    have last : swapped.items[heap.size - 1]? = some item := by
      rw [getElem?_swap iBound nBound, if_neg inner, if_pos rfl]
      exact found
    have hole : swapped.Hole rank (heap.size - 1) i := by
      refine ⟨?_, ?_⟩
      · intro child positive bound notHole notBelow
        rw [inOrder_swap iBound nBound, if_neg notBelow, if_neg notHole, if_neg (by omega),
          if_neg (by omega)]
        exact wellFormed.ordered child positive (by omega)
      · intro up child positive bound below
        rw [inOrder_swap iBound nBound, if_neg (by omega), if_neg (by omega),
          if_neg (by omega), if_neg (by omega)]
        have lower := wellFormed.ordered child positive (by omega)
        rw [below] at lower
        exact (wellFormed.ordered i up iBound).trans lower iBound
    have inside : heap.size - 1 ≤ swapped.size := by
      have equal : swapped.size = heap.size := same.length_eq
      omega
    rcases down_hole hole inside (Nat.le_add_right _ i) (by omega) with
        ⟨stays, rising⟩ | ⟨moved, ordered⟩
    · rw [stays, if_neg (Nat.lt_irrefl i)]
      refine finish _ (placed.up _ _) ((up_perm _ _ _ _).trans same) ?_ ?_
      · rw [getElem?_up_of_lt _ (by omega)]
        exact last
      · exact up_ordered rising (by omega) inside (Nat.lt_succ_self i)
    · rw [if_pos moved]
      refine finish _ (placed.down _ _ _) ((down_perm _ _ _ _ _).trans same) ?_ ordered
      rw [getElem?_down_of_le _ (Nat.le_refl _) (by omega)]
      exact last

end WellFormed

end IndexedHeap
