import WgQuic.Fec.Wire
import WgQuic.Lib.ReedSolomon

/-!
# The erasure codec

`cachedCodec` hands out an external Reed-Solomon implementation for the
dimensions of one group.  The development keeps that implementation as a
parameter and relies on it only through `Codec.Mds`: it is systematic, its
parity shards are as long as the data shards, and any `k` shards of one code
word restore the data.
-/

namespace WgQuic.Fec

open List

/-- The codec that `cachedCodec` returns for `k` data and `r` parity shards:
the error of its construction, if there is one, then `Encode` and
`ReconstructData`.  Both leave present shards alone, so the results are only
the filled parity slots and the data slots after reconstruction. -/
structure Codec where
  new : (k r : Nat) → Option String
  encode : (k r : Nat) → List Bytes → Except String (List Bytes)
  reconstructData : (k r : Nat) → List (Option Bytes) → Except String (List Bytes)

def presentShards (shards : List (Option Bytes)) : Nat :=
  shards.countP Option.isSome

/-- The dimensions and the shards of one well-formed code word. -/
structure Codec.Block (k r width : Nat) (data : List Bytes) : Prop where
  dataPositive : 0 < k
  parityPositive : 0 < r
  total : k + r ≤ 256
  widthPositive : 0 < width
  length : data.length = k
  widths : ∀ shard ∈ data, shard.length = width

structure Codec.Mds (codec : Codec) : Prop where
  constructs : ∀ {k r}, 0 < k → 0 < r → k + r ≤ 256 → codec.new k r = none
  encodes : ∀ {k r width data}, Codec.Block k r width data →
    ∃ parity, codec.encode k r data = .ok parity ∧ parity.length = r ∧
      ∀ shard ∈ parity, shard.length = width
  restores : ∀ {k r width data parity shards},
    Codec.Block k r width data → codec.encode k r data = .ok parity →
    shards.length = k + r →
    (∀ (i : Nat) shard, shards[i]? = some (some shard) → (data ++ parity)[i]? = some shard) →
    k ≤ presentShards shards →
    codec.reconstructData k r shards = .ok data

section Interpolation

open ReedSolomon

noncomputable def toField (shard : Bytes) : List (GaloisField 2 8) :=
  shard.map byteField

noncomputable def ofField (shard : List (GaloisField 2 8)) : Bytes :=
  shard.map byteField.symm

theorem ofField_toField (shard : Bytes) : ofField (toField shard) = shard := by
  simp [ofField, toField, Function.comp_def]

theorem toField_ofField (shard : List (GaloisField 2 8)) : toField (ofField shard) = shard := by
  simp [ofField, toField, Function.comp_def]

def shardWidth (shards : List (Option Bytes)) : Nat :=
  ((shards.filterMap id).headD []).length

/-- The interpolation code over the field with 256 elements. -/
noncomputable def interpolationCodec : Codec where
  new _ _ := none
  encode k r data := .ok
    ((ReedSolomon.encode bytePoint k r (data.headD []).length (data.map toField)).map ofField)
  reconstructData k _ shards := .ok
    ((ReedSolomon.reconstruct bytePoint k (shardWidth shards)
      (shards.map (Option.map toField))).map ofField)

theorem Codec.Block.headWidth {k r width : Nat} {data : List Bytes}
    (block : Codec.Block k r width data) : (data.headD []).length = width := by
  have positive := block.dataPositive
  cases data with
  | nil =>
    have length := block.length
    simp only [length_nil] at length
    omega
  | cons shard shards => exact block.widths shard (by simp)

theorem present_card (shards : List (Option Bytes)) :
    (present (shards.map (Option.map toField))).card = presentShards shards := by
  induction shards using List.reverseRecOn with
  | nil => simp [present, presentShards]
  | append_singleton shards shard induction =>
    have below : ∀ i ∈ Finset.range shards.length,
        (((shards ++ [shard]).map (Option.map toField)).getD i none).isSome =
          ((shards.map (Option.map toField)).getD i none).isSome := by
      intro i member
      have bound : i < shards.length := by simpa using member
      have bound' : i < (shards.map (Option.map toField)).length := by
        simpa using bound
      rw [map_append, getD_eq_getElem?_getD, getElem?_append_left bound', ← getD_eq_getElem?_getD]
    unfold present at induction ⊢
    rw [length_map] at induction ⊢
    rw [length_append, length_singleton, Finset.range_add_one,
      Finset.filter_insert, Finset.filter_congr (fun i member => by
        rw [below i member])]
    cases shard with
    | none => simpa [presentShards] using induction
    | some shard =>
      rw [if_pos (by simp), Finset.card_insert_of_notMem (by simp), induction]
      simp [presentShards]

theorem interpolationCodec_mds : interpolationCodec.Mds where
  constructs _ _ _ := rfl
  encodes := by
    intro k r width data block
    refine ⟨_, rfl, by simp [ReedSolomon.encode_length], ?_⟩
    intro shard member
    obtain ⟨symbols, symbolsMember, rfl⟩ := mem_map.mp member
    rw [ofField, length_map, ReedSolomon.encode_width _ symbolsMember]
    exact block.headWidth
  restores := by
    intro k r width data parity shards block encoded total honest enough
    simp only [interpolationCodec, Except.ok.injEq] at encoded ⊢
    rw [block.headWidth] at encoded
    have blockWidth : ∀ shard ∈ data ++ parity, shard.length = width := by
      intro shard member
      rcases mem_append.mp member with inData | inParity
      · exact block.widths shard inData
      · subst encoded
        obtain ⟨symbols, symbolsMember, rfl⟩ := mem_map.mp inParity
        rw [ofField, length_map, ReedSolomon.encode_width _ symbolsMember]
    have width_eq : shardWidth shards = width := by
      unfold shardWidth
      cases arrived : shards.filterMap id with
      | nil =>
        have none : presentShards shards = 0 := by
          rw [presentShards, countP_eq_zero]
          intro entry member some
          obtain ⟨shard, rfl⟩ := Option.isSome_iff_exists.mp some
          have inArrived : shard ∈ shards.filterMap id := mem_filterMap.mpr ⟨_, member, rfl⟩
          rw [arrived] at inArrived
          exact not_mem_nil inArrived
        have positive := block.dataPositive
        omega
      | cons shard rest =>
        have inArrived : shard ∈ shards.filterMap id := by
          rw [arrived]
          exact mem_cons_self
        obtain ⟨entry, member, isShard⟩ := mem_filterMap.mp inArrived
        obtain ⟨i, bound, found⟩ := getElem_of_mem member
        have isSome : shards[i]? = some (some shard) := by
          rw [getElem?_eq_getElem bound, found]
          exact congrArg some isShard
        exact blockWidth shard (mem_of_getElem? (honest i shard isSome))
    have restored : ReedSolomon.reconstruct bytePoint k width
        (shards.map (Option.map toField)) = data.map toField := by
      apply ReedSolomon.reconstruct_encode (r := r) bytePoint (bytePoint_injOn block.total)
      · simp [block.length]
      · intro symbols member
        obtain ⟨shard, shardMember, rfl⟩ := mem_map.mp member
        rw [toField, length_map, block.widths shard shardMember]
      · simp [total]
      · intro i symbols found
        rw [getElem?_map] at found
        obtain ⟨entry, entryFound, mapped⟩ := Option.map_eq_some_iff.mp found
        obtain ⟨shard, rfl, rfl⟩ := Option.map_eq_some_iff.mp mapped
        have inBlock := congrArg (Option.map toField) (honest i shard entryFound)
        rw [← getElem?_map, map_append, ← encoded, map_map] at inBlock
        have roundTrip : toField ∘ ofField = id := by
          funext symbols
          exact toField_ofField symbols
        rw [roundTrip, map_id] at inBlock
        exact inBlock
      · rw [present_card]
        exact enough
    rw [width_eq, restored, map_map]
    have roundTrip : ofField ∘ toField = id := by
      funext shard
      exact ofField_toField shard
    rw [roundTrip, map_id]

end Interpolation

end WgQuic.Fec
