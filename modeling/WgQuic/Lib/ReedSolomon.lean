import Mathlib.LinearAlgebra.Lagrange
import Mathlib.FieldTheory.Finite.GaloisField

/-!
# Systematic Reed-Solomon shards by interpolation

A block of `k` equally long data shards is read column by column.  Each
column is the value table of the polynomial of degree below `k` through the
data positions, and a parity shard evaluates it at a further position.  Any
`k` positions of one block determine every column, so they determine the
data.
-/

namespace ReedSolomon

open Polynomial

section Columns

variable {F : Type} [Field F] (points : ℕ → F)

noncomputable def column (positions : Finset ℕ) (values : ℕ → F) : F[X] :=
  Lagrange.interpolate positions points values

variable {positions : Finset ℕ}

theorem column_eval (distinct : Set.InjOn points positions) (values : ℕ → F)
    {position : ℕ} (member : position ∈ positions) :
    (column points positions values).eval (points position) = values position :=
  Lagrange.eval_interpolate_at_node values distinct member

/-- A table taken from the data column at enough positions interpolates back
to the data column. -/
theorem column_recovers
    {k : ℕ} {data values : ℕ → F}
    (dataDistinct : Set.InjOn points (Finset.range k))
    (distinct : Set.InjOn points positions)
    (enough : k ≤ positions.card)
    (agrees : ∀ position ∈ positions, values position =
      (column points (Finset.range k) data).eval (points position)) :
    column points positions values = column points (Finset.range k) data := by
  symm
  apply Lagrange.eq_interpolate_of_eval_eq values distinct
  · have degree := Lagrange.degree_interpolate_lt data dataDistinct
    rw [Finset.card_range] at degree
    exact lt_of_lt_of_le degree (by exact_mod_cast enough)
  · intro position member
    exact (agrees position member).symm

end Columns

section Shards

variable {F : Type} [Field F] (points : ℕ → F)

def symbol (shards : List (List F)) (position offset : ℕ) : F :=
  (shards.getD position []).getD offset 0

noncomputable def parityShard (k width : ℕ) (data : List (List F)) (position : ℕ) : List F :=
  (List.range width).map fun offset =>
    (column points (Finset.range k) (fun i => symbol data i offset)).eval
      (points position)

noncomputable def encode (k r width : ℕ) (data : List (List F)) : List (List F) :=
  (List.range r).map fun j => parityShard points k width data (k + j)

/-- Positions of the shards that arrived. -/
def present (shards : List (Option (List F))) : Finset ℕ :=
  (Finset.range shards.length).filter fun i => (shards.getD i none).isSome

noncomputable def reconstruct (k width : ℕ) (shards : List (Option (List F))) : List (List F) :=
  (List.range k).map fun i => (List.range width).map fun offset =>
    (column points (present shards) (fun position =>
        ((shards.getD position none).getD []).getD offset 0)).eval (points i)

theorem encode_length (k r width : ℕ) (data : List (List F)) :
    (encode points k r width data).length = r := by
  simp [encode]

variable {data : List (List F)} {k r width : ℕ}

theorem encode_width {shard : List F} (member : shard ∈ encode points k r width data) :
    shard.length = width := by
  simp only [encode, List.mem_map, List.mem_range] at member
  obtain ⟨j, _, rfl⟩ := member
  simp [parityShard]

/-- Every shard of a block is its columns evaluated at its own position. -/
theorem codeword_eval {position offset : ℕ} {shard : List F}
    (distinct : Set.InjOn points (Finset.range k)) (dataLength : data.length = k)
    (inside : offset < width)
    (found : (data ++ encode points k r width data)[position]? = some shard) :
    shard.getD offset 0 = (column points (Finset.range k)
        (fun i => symbol data i offset)).eval (points position) := by
  by_cases isData : position < k
  · rw [List.getElem?_append_left (by omega)] at found
    rw [column_eval points distinct _ (by simpa using isData)]
    simp [symbol, found]
  · rw [List.getElem?_append_right (by omega), encode, List.getElem?_map, dataLength] at found
    simp only [Option.map_eq_some_iff] at found
    obtain ⟨j, jFound, rfl⟩ := found
    obtain ⟨_, rfl⟩ := List.getElem?_eq_some_iff.mp jFound
    have position_eq : k + (position - k) = position := by omega
    simp [parityShard, inside, position_eq]

/-- Any `k` shards of one block give its data back. -/
theorem reconstruct_encode {shards : List (Option (List F))}
    (distinct : Set.InjOn points (Finset.range (k + r))) (dataLength : data.length = k)
    (widths : ∀ shard ∈ data, shard.length = width) (total : shards.length = k + r)
    (honest : ∀ (position : ℕ) shard, shards[position]? = some (some shard) → (data ++ encode points
      k r width data)[position]? = some shard) (enough : k ≤ (present shards).card) :
    reconstruct points k width shards = data := by
  have dataDistinct : Set.InjOn points (Finset.range k) := distinct.mono (by simp)
  have presentDistinct : Set.InjOn points (present shards) := by
    apply distinct.mono
    intro position member
    have inRange := (Finset.mem_filter.mp member).1
    rwa [total] at inRange
  have recovered : ∀ offset < width, column points (present shards) (fun position =>
          ((shards.getD position none).getD []).getD offset 0) =
      column points (Finset.range k) (fun i => symbol data i offset) := by
    intro offset inside
    apply column_recovers points dataDistinct presentDistinct enough
    intro position member
    have arrived := (Finset.mem_filter.mp member).2
    cases found : shards[position]? with
    | none => simp [found] at arrived
    | some entry =>
      cases entry with
      | none => simp [found] at arrived
      | some shard =>
        simpa [found] using
          codeword_eval points dataDistinct dataLength inside (honest position shard found)
  apply List.ext_getElem
  · simp [reconstruct, dataLength]
  · intro i leftBound rightBound
    have isData : i < k := by omega
    have rowWidth := widths data[i] (List.getElem_mem rightBound)
    apply List.ext_getElem
    · simp [reconstruct, rowWidth]
    · intro offset _ offsetBound
      have inside : offset < width := by omega
      simp only [reconstruct, List.getElem_map, List.getElem_range]
      rw [recovered offset inside, column_eval points dataDistinct _ (by simpa using isData)]
      simp [symbol, rightBound, offsetBound]

end Shards

def byteFin : UInt8 ≃ Fin (2 ^ 8) where
  toFun := UInt8.toFin
  invFun := UInt8.ofFin
  left_inv _ := rfl
  right_inv _ := rfl

/-- Bytes named by the elements of the field with `2 ^ 8` elements. -/
noncomputable def byteField : UInt8 ≃ GaloisField 2 8 :=
  (byteFin.trans (finCongr (GaloisField.card 2 8 (by norm_num)).symm)).trans
    (Finite.equivFin (GaloisField 2 8)).symm

noncomputable def bytePoint (position : ℕ) : GaloisField 2 8 :=
  byteField (UInt8.ofNat position)

theorem bytePoint_injOn {bound : ℕ} (small : bound ≤ 256) :
    Set.InjOn bytePoint (Finset.range bound) := by
  intro left leftMember right rightMember equal
  have leftBound : left < bound := by simpa using leftMember
  have rightBound : right < bound := by simpa using rightMember
  have sameByte := congrArg UInt8.toNat (byteField.injective equal)
  rw [UInt8.toNat_ofNat', UInt8.toNat_ofNat'] at sameByte
  omega

end ReedSolomon
