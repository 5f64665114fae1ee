import Mathlib.Data.List.Basic
import Mathlib.Data.Nat.ModEq

/-!
# A versioned register with one pending update

A value under a wrapping version number.  An update is prepared from the value
and version it will replace, and at most one update is pending.
-/

namespace VersionedRegister

/-- The value and version an update starts from, and its target. -/
structure Update (α : Type) where
  base : Nat
  source : α
  target : α

end VersionedRegister

structure VersionedRegister (α : Type) where
  version : Nat
  value : α
  pending : Option (VersionedRegister.Update α) := none

namespace VersionedRegister

variable {α : Type} (modulus : Nat)

def valueAfter (initial : α) (updates : List (Update α)) : α :=
  (updates.getLast?.map Update.target).getD initial

theorem valueAfter_append (initial : α) (updates : List (Update α)) (update : Update α) :
    valueAfter initial (updates ++ [update]) = update.target := by
  simp [valueAfter]

/-- Versions count commits, and every update starts from what the updates
before it left. -/
structure Consistent (start : VersionedRegister α)
    (committed : List (Update α)) (final : VersionedRegister α) : Prop where
  version : final.version = (start.version + committed.length) % modulus
  value : final.value = valueAfter start.value committed
  pending : ∀ update, final.pending = some update →
    update.base = final.version ∧ update.source = final.value
  bases : ∀ {i update}, committed[i]? = some update → update.base = (start.version + i) % modulus
  sources : ∀ {i update}, committed[i]? = some update →
    update.source = valueAfter start.value (committed.take i)

variable {modulus} {start middle final : VersionedRegister α} {committed : List (Update α)}

theorem Consistent.new (inRange : start.version < modulus) (free : start.pending = none) :
    Consistent modulus start [] start :=
  ⟨(Nat.mod_eq_of_lt inRange).symm, rfl, by simp [free], by simp, by simp⟩

/-- Whatever changes only the pending slot keeps the register consistent. -/
theorem Consistent.setPending (before : Consistent modulus start committed middle)
    {slot : Option (Update α)}
    (fits : ∀ update, slot = some update →
      update.base = middle.version ∧ update.source = middle.value) :
    Consistent modulus start committed { middle with pending := slot } :=
  ⟨before.version, before.value, fits, before.bases, before.sources⟩

theorem getElem?_append_singleton {updates : List (Update α)} {last update : Update α} {i : Nat}
    (found : (updates ++ [last])[i]? = some update) :
    (i < updates.length ∧ updates[i]? = some update) ∨ (i = updates.length ∧ update = last) := by
  by_cases earlier : i < updates.length
  · rw [List.getElem?_append_left earlier] at found
    exact .inl ⟨earlier, found⟩
  · have bound := (List.getElem?_eq_some_iff.mp found).1
    rw [List.length_append, List.length_singleton] at bound
    have isLast : i = updates.length := by omega
    subst isLast
    simpa using found.symm

theorem Consistent.commit (before : Consistent modulus start committed middle) {update : Update α}
    (pending : middle.pending = some update) :
    Consistent modulus start (committed ++ [update])
      { version := (update.base + 1) % modulus, value := update.target } := by
  obtain ⟨base, source⟩ := before.pending update pending
  refine ⟨?_, (valueAfter_append _ _ _).symm, by simp, ?_, ?_⟩
  · simp [base, before.version, Nat.add_assoc]
  · intro i other found
    rcases getElem?_append_singleton found with ⟨_, earlier⟩ | ⟨rfl, rfl⟩
    · exact before.bases earlier
    · rw [base, before.version]
  · intro i other found
    rcases getElem?_append_singleton found with ⟨bound, earlier⟩ | ⟨rfl, rfl⟩
    · rw [List.take_append_of_le_length (Nat.le_of_lt bound)]
      exact before.sources earlier
    · rw [List.take_left, source, before.value]

/-- Within one cycle of versions no two committed updates share a base. -/
theorem Consistent.bases_distinct (consistent : Consistent modulus start committed final)
    (short : committed.length ≤ modulus) {i j : Nat} {left right : Update α}
    (at_i : committed[i]? = some left) (at_j : committed[j]? = some right)
    (same : left.base = right.base) : i = j := by
  have iBound := (List.getElem?_eq_some_iff.mp at_i).1
  have jBound := (List.getElem?_eq_some_iff.mp at_j).1
  rw [consistent.bases at_i, consistent.bases at_j] at same
  have congruent : i ≡ j [MOD modulus] := Nat.ModEq.add_left_cancel' start.version same
  exact Nat.ModEq.eq_of_lt_of_lt congruent (by omega) (by omega)

end VersionedRegister
