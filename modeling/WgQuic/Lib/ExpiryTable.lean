import WgQuic.Lib.HeapOrder
import WgQuic.Lib.Table

/-!
# Tables with an expiry heap

The values of a table also stand in a heap, each as the entry that the heap is
ordered by.  An entry tells the key of its value.
-/

/-- The heap holds the entries of the values of the table. -/
structure ExpiryTable {κ ε β ρ : Type} [DecidableEq κ] [LinearOrder ρ] (rank : ε → ρ)
    (key : ε → κ) (entry : β → ε) (table : AList fun _ : κ => β) (heap : IndexedHeap ε) :
    Prop where
  wellFormed : heap.WellFormed rank
  keyed : ∀ k value, table.lookup k = some value → key (entry value) = k
  tracked : ∀ item, item ∈ heap.items ↔
    ∃ value, table.lookup (key item) = some value ∧ entry value = item

namespace ExpiryTable

open IndexedHeap (before)

variable {κ ε β ρ : Type} [DecidableEq κ] [LinearOrder ρ] {rank : ε → ρ} {key : ε → κ}
  {entry : β → ε} {table : AList fun _ : κ => β} {heap : IndexedHeap ε}
  {k : κ} {item : ε} {value later : β}

theorem empty : ExpiryTable rank key entry ∅ {} where
  wellFormed := IndexedHeap.wellFormed_empty rank
  keyed k value found := by
    cases found
  tracked item := by
    exact ⟨nofun, nofun⟩

section

variable (tracks : ExpiryTable rank key entry table heap) (known : table.lookup k = some value)

include tracks known

theorem listed : entry value ∈ heap.items := by
  refine (tracks.tracked (entry value)).mpr ⟨value, ?_, rfl⟩
  rw [tracks.keyed k value known]
  exact known

theorem replace (same : entry later = entry value) :
    ExpiryTable rank key entry (table.insert k later) heap := by
  have isKey := tracks.keyed k value known
  refine ⟨tracks.wellFormed, ?_, ?_⟩
  · exact AList.forall_insert (by rw [same, isKey]) tracks.keyed
  · intro item
    rw [tracks.tracked]
    by_cases here : key item = k
    · rw [here, AList.lookup_insert, known]
      constructor
      · rintro ⟨_, ⟨⟩, isItem⟩
        exact ⟨later, rfl, same.trans isItem⟩
      · rintro ⟨_, ⟨⟩, isItem⟩
        exact ⟨value, rfl, same.symm.trans isItem⟩
    · rw [AList.lookup_insert_ne here]

end

variable [DecidableEq ε]

section

variable (tracks : ExpiryTable rank key entry table heap)

include tracks

theorem remove (member : item ∈ heap.items) : ExpiryTable rank key entry (table.erase (key item))
        (heap.remove (before rank) (heap.position item)) ∧
      (heap.remove (before rank) (heap.position item)).items.Perm (heap.items.erase item) := by
  obtain ⟨place, found⟩ := List.mem_iff_getElem?.mp member
  obtain ⟨removed, same⟩ := tracks.wellFormed.remove found
  rw [← tracks.wellFormed.position place item found] at removed same
  refine ⟨⟨removed, ?_, ?_⟩, same⟩
  · intro other value lookup
    exact tracks.keyed other value (AList.lookup_erase_cases lookup).2
  · intro other
    rw [same.mem_iff, tracks.wellFormed.nodup.mem_erase_iff, tracks.tracked]
    by_cases here : key other = key item
    · rw [here, AList.lookup_erase]
      refine ⟨?_, by rintro ⟨value, ⟨⟩, -⟩⟩
      rintro ⟨different, value, known, isOther⟩
      obtain ⟨owner, owned, isItem⟩ := (tracks.tracked item).mp member
      rw [known] at owned
      cases owned
      exact (different (isOther.symm.trans isItem)).elim
    · rw [AList.lookup_erase_ne here]
      refine ⟨fun both => both.2, fun value => ⟨?_, value⟩⟩
      rintro rfl
      exact here rfl

theorem length_remove (member : item ∈ heap.items) :
    (heap.remove (before rank) (heap.position item)).size + 1 = heap.size := by
  unfold IndexedHeap.size
  rw [(tracks.remove member).2.length_eq, List.length_erase_of_mem member]
  have positive := List.length_pos_of_mem member
  omega

theorem insert (unknown : table.lookup (key (entry value)) = none) :
    ExpiryTable rank key entry (table.insert (key (entry value)) value)
      (heap.push (before rank) (entry value)) := by
  have fresh : entry value ∉ heap.items := by
    intro member
    obtain ⟨owner, known, -⟩ := (tracks.tracked (entry value)).mp member
    rw [unknown] at known
    cases known
  refine ⟨tracks.wellFormed.push fresh, ?_, ?_⟩
  · exact AList.forall_insert rfl tracks.keyed
  · intro item
    rw [(heap.push_perm _ _).mem_iff, List.mem_cons, tracks.tracked]
    by_cases here : key item = key (entry value)
    · rw [here, AList.lookup_insert, unknown]
      constructor
      · rintro (rfl | ⟨_, ⟨⟩, -⟩)
        exact ⟨value, rfl, rfl⟩
      · rintro ⟨_, ⟨⟩, isItem⟩
        exact .inl isItem.symm
    · rw [AList.lookup_insert_ne here]
      refine ⟨fun either => either.resolve_left ?_, .inr⟩
      rintro rfl
      exact here rfl

end

end ExpiryTable
