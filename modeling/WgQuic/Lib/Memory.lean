import Mathlib.Data.List.AList

/-!
# Cells that are shared by pointers

Values that several tables refer to.  A write through one of them is seen
through all, and a new cell is different from every cell there is.
-/

abbrev Pointer := Nat

structure Memory (α : Type) where
  cells : Pointer → α
  next : Pointer := 0

namespace Memory

variable {α : Type}

def set (memory : Memory α) (pointer : Pointer) (value : α) : Memory α :=
  { memory with
    cells := fun other => if other = pointer then value else memory.cells other }

def modify (memory : Memory α) (pointer : Pointer) (change : α → α) : Memory α :=
  memory.set pointer (change (memory.cells pointer))

def allocate (memory : Memory α) (value : α) : Memory α :=
  { memory.set memory.next value with next := memory.next + 1 }

section Cells

variable {memory : Memory α} {pointer other : Pointer} {value : α}

@[simp]
theorem cells_set_self : (memory.set pointer value).cells pointer = value := by
  simp [set]

@[simp]
theorem cells_set_ne (different : other ≠ pointer) :
    (memory.set pointer value).cells other = memory.cells other := by
  simp [set, different]

variable {change : α → α}

@[simp]
theorem cells_modify_self :
    (memory.modify pointer change).cells pointer = change (memory.cells pointer) :=
  cells_set_self

@[simp]
theorem cells_modify_ne (different : other ≠ pointer) :
    (memory.modify pointer change).cells other = memory.cells other :=
  cells_set_ne different

theorem cells_allocate_self : (memory.allocate value).cells memory.next = value := cells_set_self

theorem cells_allocate_of_lt (old : other < memory.next) :
    (memory.allocate value).cells other = memory.cells other :=
  cells_set_ne (Nat.ne_of_lt old)

end Cells

end Memory
