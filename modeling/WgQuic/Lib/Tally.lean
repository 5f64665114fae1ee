import Mathlib.Algebra.BigOperators.Group.List.Basic
import Mathlib.Algebra.GroupWithZero.Nat
import Mathlib.Data.List.Perm.Lattice

/-!
# Counting over a list of keys

A quantity that is spread over keys, and how its total follows a change at one
of them.
-/

def tally {κ : Type} (keys : List κ) (amount : κ → Nat) : Nat :=
  (keys.map amount).sum

section Tally

variable {κ : Type} {keys : List κ} {key : κ} {amount other : κ → Nat}

@[simp]
theorem tally_cons : tally (key :: keys) amount = amount key + tally keys amount := by
  simp [tally]

theorem tally_congr (same : ∀ key ∈ keys, other key = amount key) :
    tally keys other = tally keys amount := by
  rw [tally, tally, List.map_congr_left same]

theorem tally_change (nodup : keys.Nodup) (listed : key ∈ keys)
    (others : ∀ next ∈ keys, next ≠ key → other next = amount next) :
    tally keys other + amount key = tally keys amount + other key := by
  induction keys with
  | nil => cases listed
  | cons first rest ih =>
    obtain ⟨new, nodupRest⟩ := List.nodup_cons.mp nodup
    rcases List.mem_cons.mp listed with rfl | listed
    · have same : tally rest other = tally rest amount :=
        tally_congr fun next listed => others next (List.mem_cons_of_mem _ listed)
          fun equal => new (equal ▸ listed)
      simp only [tally_cons, same]
      omega
    · have later := ih nodupRest listed fun next listed =>
        others next (List.mem_cons_of_mem _ listed)
      have here : other first = amount first :=
        others first List.mem_cons_self fun equal => new (equal ▸ listed)
      simp only [tally_cons, here]
      omega

theorem countP_eq_tally {test : κ → Bool} :
    keys.countP test = tally keys fun key => if test key then 1 else 0 := by
  induction keys with
  | nil => rfl
  | cons first rest ih =>
    rw [List.countP_cons, ih, tally_cons, Nat.add_comm]

/-- One key comes to pass the test, or passes it no longer. -/
theorem countP_change {test later : κ → Bool} (nodup : keys.Nodup)
    (listed : key ∈ keys) (others : ∀ next, next ≠ key → later next = test next) :
    keys.countP later + (if test key then 1 else 0) =
      keys.countP test + if later key then 1 else 0 := by
  rw [countP_eq_tally, countP_eq_tally]
  refine @tally_change κ keys key (fun key => if test key then 1 else 0)
    (fun key => if later key then 1 else 0) nodup listed ?_
  intro next _ different
  rw [others next different]

end Tally
