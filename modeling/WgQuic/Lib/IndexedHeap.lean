import Mathlib.Data.List.Perm.Basic

/-!
# Array heaps with stored positions

The binary heap of a standard library: a slice ordered by a caller-supplied
comparison, with sift-up and sift-down loops and removal at an index.  The
caller's `Swap` and `Push` also record each element's index in the element,
which is kept here as the function `position`.
-/

structure IndexedHeap (α : Type) where
  items : List α := []
  position : α → Nat := fun _ => 0

namespace IndexedHeap

variable {α : Type}

def size (heap : IndexedHeap α) : Nat := heap.items.length

def pop (heap : IndexedHeap α) : IndexedHeap α :=
  { heap with items := heap.items.dropLast }

theorem pop_subset (heap : IndexedHeap α) : heap.pop.items ⊆ heap.items :=
  fun _ member => List.dropLast_subset _ member

variable [DecidableEq α] (less : α → α → Bool)

def swap (heap : IndexedHeap α) (i j : Nat) : IndexedHeap α :=
  match heap.items[i]?, heap.items[j]? with
  | some left, some right =>
    { items := (heap.items.set i right).set j left
      position := Function.update (Function.update heap.position right i)
        left j }
  | _, _ => heap

def lessAt (heap : IndexedHeap α) (i j : Nat) : Bool :=
  match heap.items[i]?, heap.items[j]? with
  | some left, some right => less left right
  | _, _ => false

/-- Sift up from `j`; every round halves `j`, so fuel `j + 1` is enough. -/
def up : Nat → IndexedHeap α → Nat → IndexedHeap α
  | 0, heap, _ => heap
  | fuel + 1, heap, j =>
    let i := (j - 1) / 2
    if i = j ∨ heap.lessAt less j i = false then heap
    else up fuel (heap.swap i j) i

/-- The smaller child of `i` among the first `n` elements. -/
def smallerChild (heap : IndexedHeap α) (i n : Nat) : Nat :=
  let left := 2 * i + 1
  let right := left + 1
  if right < n ∧ heap.lessAt less right left then right else left

/-- Sift down from `i` below `n`; the result carries the final index. -/
def down : Nat → IndexedHeap α → Nat → Nat → IndexedHeap α × Nat
  | 0, heap, i, _ => (heap, i)
  | fuel + 1, heap, i, n =>
    if 2 * i + 1 ≥ n then (heap, i)
    else
      let j := heap.smallerChild less i n
      if heap.lessAt less j i = false then (heap, i)
      else down fuel (heap.swap i j) j n

def push (heap : IndexedHeap α) (item : α) : IndexedHeap α :=
  let n := heap.size
  up less (n + 1)
    { items := heap.items ++ [item]
      position := Function.update heap.position item n } n

def remove (heap : IndexedHeap α) (i : Nat) : IndexedHeap α :=
  let n := heap.size - 1
  if n = i then heap.pop
  else
    let (sifted, final) := down less n (heap.swap i n) i n
    if final > i then sifted.pop else (up less (i + 1) sifted i).pop

theorem swap_perm (heap : IndexedHeap α) (i j : Nat) : (heap.swap i j).items.Perm heap.items := by
  unfold swap
  split
  · rename_i left right at_i at_j
    obtain ⟨iBound, rfl⟩ := List.getElem?_eq_some_iff.mp at_i
    obtain ⟨jBound, rfl⟩ := List.getElem?_eq_some_iff.mp at_j
    exact List.set_set_perm iBound jBound
  · exact List.Perm.refl _

theorem up_perm (fuel : Nat) (heap : IndexedHeap α) (j : Nat) :
    (up less fuel heap j).items.Perm heap.items := by
  induction fuel generalizing heap j with
  | zero => exact List.Perm.refl _
  | succ fuel induction =>
    rw [up]
    split
    · exact List.Perm.refl _
    · exact (induction _ _).trans (heap.swap_perm _ _)

theorem down_perm (fuel : Nat) (heap : IndexedHeap α) (i n : Nat) :
    (down less fuel heap i n).1.items.Perm heap.items := by
  induction fuel generalizing heap i with
  | zero => exact List.Perm.refl _
  | succ fuel induction =>
    rw [down]
    split
    · exact List.Perm.refl _
    · dsimp only
      split
      · exact List.Perm.refl _
      · exact (induction _ _).trans (heap.swap_perm _ _)

theorem push_perm (heap : IndexedHeap α) (item : α) :
    (heap.push less item).items.Perm (item :: heap.items) :=
  (up_perm less _ _ _).trans (List.perm_append_singleton item heap.items)

theorem remove_subset (heap : IndexedHeap α) (i : Nat) :
    (heap.remove less i).items ⊆ heap.items := by
  unfold remove
  simp only
  split
  · exact heap.pop_subset
  · have sifted := (down_perm less (heap.size - 1)
      (heap.swap i (heap.size - 1)) i (heap.size - 1)).trans (heap.swap_perm i (heap.size - 1))
    split
    · exact fun _ member => sifted.subset (pop_subset _ member)
    · exact fun _ member =>
        ((up_perm less _ _ _).trans sifted).subset (pop_subset _ member)

end IndexedHeap
