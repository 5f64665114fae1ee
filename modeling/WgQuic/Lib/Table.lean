import Mathlib.Data.List.AList

/-!
# Tables

What a table holds after one of its entries was set or erased, and what its
values have to offer all together.
-/

namespace AList

variable {κ α β : Type} [DecidableEq κ] {table : AList (fun _ : κ => α)} {key other : κ}
  {value found : α}

theorem lookup_insert_cases (lookup : (table.insert key value).lookup other = some found) :
    (other = key ∧ found = value) ∨ (other ≠ key ∧ table.lookup other = some found) := by
  by_cases same : other = key
  · subst same
    rw [lookup_insert] at lookup
    exact .inl ⟨rfl, (Option.some.inj lookup).symm⟩
  · rw [lookup_insert_ne same] at lookup
    exact .inr ⟨same, lookup⟩

/-- What holds of the new entry and of the entries before holds of all of them. -/
theorem forall_insert {motive : κ → α → Prop} (new : motive key value)
    (old : ∀ other found, table.lookup other = some found → motive other found) :
    ∀ other found, (table.insert key value).lookup other = some found → motive other found := by
  intro other found lookup
  rcases lookup_insert_cases lookup with ⟨rfl, rfl⟩ | ⟨_, lookup⟩
  · exact new
  · exact old other found lookup

theorem lookup_erase_cases (lookup : (table.erase key).lookup other = some found) :
    other ≠ key ∧ table.lookup other = some found := by
  by_cases same : other = key
  · subst same
    rw [lookup_erase] at lookup
    cases lookup
  · rw [lookup_erase_ne same] at lookup
    exact ⟨same, lookup⟩

theorem lookup_erase_eq_some : (table.erase key).lookup other = some found ↔
      other ≠ key ∧ table.lookup other = some found := by
  refine ⟨lookup_erase_cases, ?_⟩
  rintro ⟨different, lookup⟩
  rw [lookup_erase_ne different]
  exact lookup

theorem length_erase_le : (table.erase key).entries.length ≤ table.entries.length :=
  (List.kerase_sublist _ _).length_le

theorem length_erase (known : table.lookup key ≠ none) :
    (table.erase key).entries.length + 1 = table.entries.length := by
  have listed : key ∈ table.entries.keys := by
    by_contra absent
    exact known (lookup_eq_none.mpr absent)
  obtain ⟨_, before, after, _, entries, erased⟩ := List.exists_of_kerase listed
  change (table.entries.kerase key).length + 1 = _
  rw [erased, entries]
  simp only [List.length_append, List.length_cons]
  omega

theorem length_insert_le : (table.insert key value).entries.length ≤ table.entries.length + 1 :=
  Nat.succ_le_succ length_erase_le

theorem length_insert (known : table.lookup key ≠ none) :
    (table.insert key value).entries.length = table.entries.length :=
  length_erase known

/-- What the values have to offer. -/
def gather (table : AList (fun _ : κ => α)) (offer : α → List β) : List β :=
  table.entries.flatMap fun entry => offer entry.2

variable {offer : α → List β}

theorem mem_gather {item : β} : item ∈ table.gather offer ↔
      ∃ key value, table.lookup key = some value ∧ item ∈ offer value := by
  rw [gather, List.mem_flatMap]
  constructor
  · rintro ⟨⟨key, value⟩, listed, offered⟩
    exact ⟨key, value, mem_lookup_iff.mpr listed, offered⟩
  · rintro ⟨key, value, lookup, offered⟩
    exact ⟨⟨key, value⟩, mem_lookup_iff.mp lookup, offered⟩

theorem gather_of_lookup (lookup : table.lookup key = some value) :
    (table.gather offer).Perm (offer value ++ (table.erase key).gather offer) := by
  have listed : key ∈ table.entries.keys := by
    rw [← AList.keys, ← mem_keys, ← lookup_isSome, lookup]
    rfl
  obtain ⟨same, before, after, _, entries, erased⟩ := List.exists_of_kerase listed
  have equal : same = value := by
    have mem : (⟨key, same⟩ : Sigma fun _ : κ => α) ∈ table.entries := by rw [entries]; simp
    have other := mem_lookup_iff.mpr mem
    rw [lookup] at other
    exact (Option.some.inj other).symm
  subst equal
  have rest : (table.erase key).entries = before ++ after := erased
  rw [gather, gather, rest, entries]
  simp only [List.flatMap_append, List.flatMap_cons]
  rw [← List.append_assoc, ← List.append_assoc]
  exact List.perm_append_comm.append_right _

theorem gather_insert :
    (table.insert key value).gather offer = offer value ++ (table.erase key).gather offer := by
  rfl

theorem gather_erase_of_none (absent : table.lookup key = none) :
    (table.erase key).gather offer = table.gather offer := by
  have entries : (table.erase key).entries = table.entries :=
    List.kerase_of_notMem_keys (lookup_eq_none.mp absent)
  rw [gather, gather, entries]

theorem countP_gather_congr {γ : Type} {offer' : α → List γ} {p : β → Bool} {q : γ → Bool}
    (each : ∀ key value, table.lookup key = some value →
      (offer value).countP p = (offer' value).countP q) :
    (table.gather offer).countP p = (table.gather offer').countP q := by
  rw [gather, gather, List.countP_flatMap, List.countP_flatMap]
  congr 1
  refine List.map_congr_left ?_
  rintro ⟨key, value⟩ listed
  exact each key value (mem_lookup_iff.mpr listed)

end AList
