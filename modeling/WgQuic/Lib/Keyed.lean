import Mathlib.Data.List.Nodup
import Mathlib.Data.List.Perm.Basic

/-!
# Lists of records with a key

A map that is filled from a list holds, for a key, the last record with it.
When no key occurs twice, the map and the list tell the same.
-/

namespace Keyed

open List

variable {κ α : Type} [DecidableEq κ] {key : α → κ} {items left right : List α} {item : α}
  {wanted : κ}

/-- The record that a map filled from the list holds for a key. -/
def last (key : α → κ) (items : List α) (wanted : κ) : Option α :=
  items.reverse.find? fun item => key item = wanted

theorem mem_of_last (found : last key items wanted = some item) :
    item ∈ items ∧ key item = wanted := by
  refine ⟨mem_reverse.mp (mem_of_find?_eq_some found), ?_⟩
  simpa using find?_some found

theorem last_eq_none : last key items wanted = none ↔ wanted ∉ items.map key := by
  rw [last, find?_eq_none, mem_map]
  constructor
  · rintro none ⟨item, member, same⟩
    exact none item (mem_reverse.mpr member) (decide_eq_true same)
  · intro absent item member same
    exact absent ⟨item, mem_reverse.mp member, of_decide_eq_true same⟩

theorem last_of_mem (keys : (items.map key).Nodup) (member : item ∈ items) :
    last key items (key item) = some item := by
  cases found : last key items (key item) with
  | none => exact absurd (mem_map_of_mem member) (last_eq_none.mp found)
  | some other =>
    obtain ⟨listed, same⟩ := mem_of_last found
    rw [inj_on_of_nodup_map keys listed member same]

theorem last_eq_some (keys : (items.map key).Nodup) :
    last key items wanted = some item ↔ item ∈ items ∧ key item = wanted := by
  refine ⟨mem_of_last, ?_⟩
  rintro ⟨member, rfl⟩
  exact last_of_mem keys member

/-- The map depends on the records only, not on their order. -/
theorem last_congr (leftKeys : (left.map key).Nodup) (rightKeys : (right.map key).Nodup)
    (same : ∀ item, item ∈ left ↔ item ∈ right) (wanted : κ) :
    last key left wanted = last key right wanted := by
  refine Option.ext fun item => ?_
  rw [last_eq_some leftKeys, last_eq_some rightKeys, same]

/-- `IndexFunc` and an assignment: the first record with the key of the new one is replaced. -/
def replace (key : α → κ) (items : List α) (item : α) : List α :=
  match items.findIdx? fun other => key other = key item with
  | some index => items.set index item
  | none => items

/-- `IndexFunc` and `Delete` -/
def remove (key : α → κ) (items : List α) (wanted : κ) : List α :=
  match items.findIdx? fun other => key other = wanted with
  | some index => items.eraseIdx index
  | none => items

theorem split_at_first {index : Nat}
    (found : (items.findIdx? fun other => key other = wanted) = some index) :
    ∃ before old after, items = before ++ old :: after ∧ key old = wanted ∧
      (∀ item, items.set index item = before ++ item :: after) ∧
        items.eraseIdx index = before ++ after := by
  obtain ⟨bound, holds, -⟩ := findIdx?_eq_some_iff_getElem.mp found
  refine ⟨items.take index, items[index], items.drop (index + 1), ?_, of_decide_eq_true holds, ?_,
    eraseIdx_eq_take_drop_succ items index⟩
  · rw [getElem_cons_drop, take_append_drop]
  · exact fun item => set_eq_take_append_cons_drop.trans (if_pos bound)

variable {other : α}

omit [DecidableEq κ] in
theorem mem_without {before after : List α} {old : α}
    (keys : ((before ++ old :: after).map key).Nodup) :
    other ∈ before ++ after ↔ other ∈ before ++ old :: after ∧ key other ≠ key old := by
  have perm : (before ++ old :: after).Perm (old :: (before ++ after)) := perm_middle
  have apart := (nodup_cons.mp ((perm.map key).nodup_iff.mp keys)).1
  rw [perm.mem_iff, mem_cons]
  constructor
  · exact fun member => ⟨.inr member, fun same => apart (same ▸ mem_map_of_mem member)⟩
  · rintro ⟨rfl | member, different⟩
    · exact absurd rfl different
    · exact member

theorem map_replace : (replace key items item).map key = items.map key := by
  unfold replace
  split
  · next index found =>
    obtain ⟨before, old, after, rfl, same, set, -⟩ := split_at_first found
    rw [set]
    simp [same]
  · rfl

theorem mem_replace (keys : (items.map key).Nodup) (known : key item ∈ items.map key) :
    other ∈ replace key items item ↔ other = item ∨ (other ∈ items ∧ key other ≠ key item) := by
  unfold replace
  split
  · next index found =>
    obtain ⟨before, old, after, rfl, same, set, -⟩ := split_at_first found
    rw [set, ← same, ← mem_without keys]
    simp only [mem_append, mem_cons]
    exact or_left_comm
  · next absent =>
    obtain ⟨listed, member, same⟩ := mem_map.mp known
    exact absurd (findIdx?_eq_none_iff.mp absent listed member) (by simp [same])

theorem mem_remove (keys : (items.map key).Nodup) :
    other ∈ remove key items wanted ↔ other ∈ items ∧ key other ≠ wanted := by
  unfold remove
  split
  · next index found =>
    obtain ⟨before, old, after, rfl, rfl, -, erased⟩ := split_at_first found
    rw [erased, mem_without keys]
  · next absent =>
    refine (and_iff_left_of_imp fun member same => ?_).symm
    exact absurd (findIdx?_eq_none_iff.mp absent other member) (by simp [same])

theorem nodup_remove (keys : (items.map key).Nodup) :
    ((remove key items wanted).map key).Nodup := by
  unfold remove
  split
  · exact keys.sublist ((eraseIdx_sublist _ _).map key)
  · exact keys

theorem map_foldl_replace (changes : List α) :
    (changes.foldl (replace key) items).map key = items.map key := by
  induction changes generalizing items with
  | nil => rfl
  | cons first rest ih => rw [foldl_cons, ih, map_replace]

theorem mem_foldl_replace {changes : List α} (keys : (items.map key).Nodup)
    (once : (changes.map key).Nodup) (known : ∀ item ∈ changes, key item ∈ items.map key) :
    other ∈ changes.foldl (replace key) items ↔
      other ∈ changes ∨ (other ∈ items ∧ key other ∉ changes.map key) := by
  induction changes generalizing items with
  | nil => simp
  | cons first rest ih =>
    obtain ⟨apart, later⟩ := nodup_cons.mp once
    have others : ∀ item ∈ rest, key item ∈ (replace key items first).map key := by
      intro item member
      rw [map_replace]
      exact known item (mem_cons_of_mem _ member)
    rw [foldl_cons, ih (by rwa [map_replace]) later others,
      mem_replace keys (known first mem_cons_self), map_cons, mem_cons,
      mem_cons, not_or]
    constructor
    · rintro (changed | ⟨rfl | ⟨kept, different⟩, untouched⟩)
      · exact .inl (.inr changed)
      · exact .inl (.inl rfl)
      · exact .inr ⟨kept, different, untouched⟩
    · rintro ((rfl | changed) | ⟨kept, different, untouched⟩)
      · exact .inr ⟨.inl rfl, apart⟩
      · exact .inl changed
      · exact .inr ⟨.inr ⟨kept, different⟩, untouched⟩

theorem foldl_remove {wanted : List κ} (keys : (items.map key).Nodup) :
    ((wanted.foldl (remove key) items).map key).Nodup ∧
      ∀ other, other ∈ wanted.foldl (remove key) items ↔ other ∈ items ∧ key other ∉ wanted := by
  induction wanted generalizing items with
  | nil => exact ⟨keys, by simp⟩
  | cons first rest ih =>
    obtain ⟨nodup, members⟩ := ih (nodup_remove keys)
    refine ⟨nodup, fun other => ?_⟩
    rw [foldl_cons, members, mem_remove keys, mem_cons, not_or, and_assoc]

/-- The order of removals does not matter. -/
theorem foldl_remove_perm {wanted others : List κ} (perm : wanted.Perm others) :
    wanted.foldl (remove key) items = others.foldl (remove key) items := by
  have erases : ∀ items wanted, remove key items wanted =
      items.eraseP fun other => key other = wanted := by
    intro items wanted
    rw [remove, eraseP_eq_eraseIdx]
    cases items.findIdx? fun other => key other = wanted <;> rfl
  refine perm.foldl_eq' (fun first _ second _ items => ?_) items
  by_cases same : first = second
  · rw [same]
  · simp only [erases]
    exact eraseP_comm fun item _ => by grind

end Keyed
