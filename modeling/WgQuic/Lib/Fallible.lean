import Mathlib.Data.List.Forall2

/-!
# Computations that may fail

When a sequence of computations that may fail succeeds.
-/

namespace Fallible

variable {ε ε' α β : Type}

@[simp]
theorem pure_eq_ok {value result : α} : (pure value : Except ε α) = .ok result ↔ value = result :=
  Except.ok.injEq value result ▸ Iff.rfl

variable {result : β} {first : Except ε α} {next : α → Except ε β}

/-- A check that stands before the rest of a computation. -/
@[simp]
theorem check_eq_ok {refused : Prop} [Decidable refused] {err : ε} {rest : Except ε β} :
    (if refused then throw err >>= next else rest) = .ok result ↔ ¬refused ∧ rest = .ok result := by
  split
  · next holds => exact ⟨nofun, fun found => absurd holds found.1⟩
  · next fails => exact ⟨fun found => ⟨fails, found⟩, And.right⟩

@[simp]
theorem bind_eq_ok :
    (first >>= next) = .ok result ↔ ∃ value, first = .ok value ∧ next value = .ok result := by
  cases first with
  | error err => exact ⟨nofun, nofun⟩
  | ok value =>
    constructor
    · exact fun found => ⟨value, rfl, found⟩
    · rintro ⟨other, same, found⟩
      cases same
      exact found

@[simp]
theorem mapError_eq_ok {change : ε → ε'} {result : α} :
    first.mapError change = .ok result ↔ first = .ok result := by
  cases first with
  | error err => exact ⟨nofun, nofun⟩
  | ok value =>
    rw [Except.mapError, Except.ok.injEq, Except.ok.injEq]

@[simp]
theorem map_eq_ok {change : α → β} :
    first.map change = .ok result ↔ ∃ value, first = .ok value ∧ change value = result := by
  cases first with
  | error err => exact ⟨nofun, nofun⟩
  | ok value =>
    constructor
    · rintro ⟨⟩
      exact ⟨value, rfl, rfl⟩
    · rintro ⟨-, ⟨⟩, rfl⟩
      rfl

theorem mapM_eq_ok {step : α → Except ε β} {items : List α} {results : List β} :
    items.mapM step = .ok results ↔
      List.Forall₂ (fun item result => step item = .ok result) items results := by
  induction items generalizing results with
  | nil =>
    constructor
    · rintro ⟨⟩
      exact .nil
    · rintro ⟨⟩
      rfl
  | cons item rest ih =>
    rw [List.mapM_cons]
    constructor
    · intro found
      obtain ⟨result, first, found⟩ := bind_eq_ok.mp found
      obtain ⟨others, later, found⟩ := bind_eq_ok.mp found
      cases found
      exact .cons first (ih.mp later)
    · rintro (_ | ⟨first, later⟩)
      rw [first, ih.mpr later]
      rfl

theorem mapM_error {check : α → Except ε β} {items : List α} {err : ε}
    (failed : items.mapM check = .error err) : ∃ item, check item = .error err := by
  induction items with
  | nil => cases failed
  | cons item rest ih =>
    rw [List.mapM_cons] at failed
    cases first : check item with
    | error cause =>
      rw [first] at failed
      cases failed
      exact ⟨item, first⟩
    | ok result =>
      rw [first] at failed
      cases later : rest.mapM check with
      | error cause =>
        rw [later] at failed
        cases failed
        exact ih later
      | ok results =>
        rw [later] at failed
        cases failed

theorem foldlM_error {step : β → α → Except ε β} {items : List α} {start : β}
    {err : ε} (failed : items.foldlM step start = .error err) :
    ∃ state item, step state item = .error err := by
  induction items generalizing start with
  | nil => cases failed
  | cons item rest ih =>
    rw [List.foldlM_cons] at failed
    cases first : step start item with
    | error cause =>
      rw [first] at failed
      cases failed
      exact ⟨start, item, first⟩
    | ok next =>
      rw [first] at failed
      exact ih failed

theorem exists_of_mem {relation : α → β → Prop} {items : List α} {results : List β}
    (related : List.Forall₂ relation items results) (member : result ∈ results) :
    ∃ item ∈ items, relation item result := by
  induction related with
  | nil => cases member
  | cons first _ ih =>
    rcases List.mem_cons.mp member with rfl | later
    · exact ⟨_, List.mem_cons_self, first⟩
    · obtain ⟨item, listed, found⟩ := ih later
      exact ⟨item, List.mem_cons_of_mem _ listed, found⟩

end Fallible
