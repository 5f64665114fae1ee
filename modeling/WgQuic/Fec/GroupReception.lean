import WgQuic.Fec.Decoder
import WgQuic.Fec.EncoderStream

/-!
# Receiving one group

What the decoder holds of a group is a function of the records it has seen,
in whatever order and however often they arrived.  The frames it has returned
are those of the data records seen, and all of them once as many data and
parity records as the group has frames were seen.
-/

namespace WgQuic.Fec

open List Decoder GroupSpec ReceiveGroup

def seen (arrived : List Packet) (id : Nat) (kind : Kind) (i : Nat) : Bool :=
  arrived.any fun p => p.groupID = id ∧ p.kind = kind ∧ p.index = i

/-- A record that carries the dimensions of its group was seen. -/
def dimensioned (arrived : List Packet) (id : Nat) : Bool :=
  arrived.any fun p => p.groupID = id ∧ (p.kind = .parity ∨ p.kind = .close)

namespace GroupSpec

def shardsSeen (spec : GroupSpec) (id : Nat) (arrived : List Packet) : Nat :=
  (List.range spec.k).countP (seen arrived id .data) +
    (List.range spec.r).countP (seen arrived id .parity)

def recovered (spec : GroupSpec) (id : Nat) (arrived : List Packet) (i : Nat) : Prop :=
  i < spec.k ∧ (seen arrived id .data i = true ∨ spec.k ≤ spec.shardsSeen id arrived)

def Honest (codec : Codec) (spec : GroupSpec) (id : Nat) (arrived : List Packet) : Prop :=
  ∀ p ∈ arrived, p.groupID = id → p ∈ spec.records codec id

def frameAt (spec : GroupSpec) (i : Nat) : Bytes := spec.frames.getD i []

variable {codec : Codec} {id : Nat} {p : Packet} {spec : GroupSpec}

theorem frameAt_eq {i : Nat} {frame : Bytes} (found : spec.frames[i]? = some frame) :
    spec.frameAt i = frame := by
  simp [frameAt, found]

section

variable (member : p ∈ spec.records codec id)

include member

theorem mem_records_cases :
    (∃ i frame, spec.frames[i]? = some frame ∧ p = spec.dataRecord id i frame) ∨
      (∃ j shard, (spec.parityShards codec)[j]? = some shard ∧ p = spec.parityRecord id j shard) ∨
      p = spec.closeRecord id := by
  simp only [records, tailRecords, dataRecords, parityRecords, mem_append] at member
  rcases member with inData | inTail
  · obtain ⟨i, bound, rfl⟩ := mem_mapIdx.mp inData
    exact .inl ⟨i, _, getElem?_eq_getElem bound, rfl⟩
  · split at inTail
    · rcases mem_append.mp inTail with inParity | isClose
      · obtain ⟨j, bound, rfl⟩ := mem_mapIdx.mp inParity
        exact .inr (.inl ⟨j, _, getElem?_eq_getElem bound, rfl⟩)
      · exact .inr (.inr (mem_singleton.mp isClose))
    · simp at inTail

theorem epoch_of_mem_records : p.epoch = spec.epoch := by
  rcases mem_records_cases member with ⟨_, _, _, rfl⟩ | ⟨_, _, _, rfl⟩ | rfl <;> rfl

theorem kind_of_mem_records : p.kind ≠ .feedback := by
  rcases mem_records_cases member with ⟨_, _, _, rfl⟩ | ⟨_, _, _, rfl⟩ | rfl <;>
    simp [dataRecord, parityRecord, closeRecord]

theorem data_of_mem_records (kind : p.kind = .data) :
    p.index < spec.k ∧ p = spec.dataRecord id p.index (spec.frameAt p.index) := by
  rcases mem_records_cases member with ⟨i, frame, found, rfl⟩ | ⟨_, _, _, rfl⟩ | rfl
  · exact ⟨(List.getElem?_eq_some_iff.mp found).1, congrArg _ (frameAt_eq found).symm⟩
  · cases kind
  · cases kind

theorem parity_of_mem_records (kind : p.kind = .parity) :
    p = spec.parityRecord id p.index ((spec.parityShards codec).getD p.index []) := by
  rcases mem_records_cases member with ⟨_, _, _, rfl⟩ | ⟨j, shard, found, rfl⟩ | rfl
  · cases kind
  · change _ = spec.parityRecord id j ((spec.parityShards codec).getD j [])
    rw [getD_eq_getElem?_getD, found, Option.getD_some]
  · cases kind

end

theorem fits_of_mem_records (mds : codec.Mds) (wellFormed : spec.WellFormed) (idBound : id < 2 ^ 64)
    (member : p ∈ spec.records codec id) : p.Fits := by
  obtain ⟨_, parityLength, widths⟩ := encode_padded mds wellFormed
  have small := wellFormed.small
  have parity := spec.r_le
  have width := (width_bounds wellFormed).2
  simp only [maxDataShards, maxParityShards] at small parity
  rcases mem_records_cases member with
    ⟨i, frame, found, rfl⟩ | ⟨j, shard, found, rfl⟩ | rfl
  · have bound := (List.getElem?_eq_some_iff.mp found).1
    have inShards : encodeDataShard frame ∈ spec.shards :=
      mem_map.mpr ⟨frame, mem_of_getElem? found, rfl⟩
    have lengths := mem_shards_length wellFormed inShards
    constructor <;> simp only [dataRecord] <;> unfold k at small <;>
      first | exact wellFormed.epoch | exact idBound | exact lengths.2 | omega
  · have bound := (List.getElem?_eq_some_iff.mp found).1
    have length := widths shard (mem_of_getElem? found)
    constructor <;> simp only [parityRecord] <;>
      first | exact wellFormed.epoch | exact idBound | omega
  · constructor <;> simp only [closeRecord] <;>
      first | exact wellFormed.epoch | exact idBound | omega | simp

end GroupSpec

theorem seen_append (arrived : List Packet) (p : Packet) (id : Nat) (kind : Kind) (i : Nat) :
    seen (arrived ++ [p]) id kind i = (seen arrived id kind i ||
        decide (p.groupID = id ∧ p.kind = kind ∧ p.index = i)) := by
  simp [seen]

theorem dimensioned_append (arrived : List Packet) (p : Packet) (id : Nat) :
    dimensioned (arrived ++ [p]) id = (dimensioned arrived id ||
        decide (p.groupID = id ∧ (p.kind = .parity ∨ p.kind = .close))) := by
  simp [dimensioned]

theorem seen_exists {arrived : List Packet} {id : Nat} {kind : Kind} {i : Nat}
    (found : seen arrived id kind i = true) :
    ∃ p ∈ arrived, p.groupID = id ∧ p.kind = kind ∧ p.index = i := by
  simpa [seen] using found

@[simp] theorem Bitmap.has_zero (i : Nat) : Bitmap.has 0#64 i = false := by
  simp [Bitmap.has]

theorem Bitmap.has_insert (bitmap : Bitmap) {i j : Nat} (bound : j < 64) :
    (Bitmap.insert bitmap i).has j = (bitmap.has j || decide (i = j)) := by
  simp only [Bitmap.has, Bitmap.insert, BitVec.getLsbD_or,
    BitVec.getLsbD_shiftLeft, BitVec.getLsbD_one]
  by_cases same : i = j
  · simp [same, bound]
  · simp [same, bound]
    omega

variable {frame : Bytes}

theorem decodeDataShard_padded {shardSize : Nat} (positive : 0 < frame.length)
    (small : frame.length ≤ maxFrameSize) (fits : (encodeDataShard frame).length ≤ shardSize) :
    decodeDataShard (padShard (encodeDataShard frame) shardSize) = .ok frame := by
  have length : bigEndian (putUint16 frame.length) = frame.length := by
    rw [bigEndian_putUint16]
    simp only [maxFrameSize] at small
    omega
  have two : (putUint16 frame.length).length = 2 := by simp [putUint16]
  have size := padShard_length fits
  rw [encodeDataShard_length] at fits
  have header : (padShard (encodeDataShard frame) shardSize).take 2 = putUint16 frame.length := by
    rw [padShard_of_le (by rw [encodeDataShard_length]; exact fits), encodeDataShard, append_assoc,
      take_append_of_le_length (by omega), take_of_length_le (by omega)]
  have payload : ((padShard (encodeDataShard frame) shardSize).drop 2).take
      frame.length = frame := by
    rw [padShard_of_le (by rw [encodeDataShard_length]; exact fits),
      encodeDataShard, append_assoc, drop_append_of_le_length (by omega),
      drop_of_length_le (by omega), nil_append,
      take_append_of_le_length (Nat.le_refl _), take_length]
  unfold decodeDataShard
  rw [if_neg (by omega)]
  simp only [header, length]
  rw [if_neg (by omega), payload]

theorem decodeDataShard_encode (positive : 0 < frame.length) (small : frame.length ≤ maxFrameSize) :
    decodeDataShard (encodeDataShard frame) = .ok frame := by
  have unpadded : padShard (encodeDataShard frame)
      (encodeDataShard frame).length = encodeDataShard frame := by
    simp [padShard]
  have decoded := decodeDataShard_padded positive small (Nat.le_refl (encodeDataShard frame).length)
  rwa [unpadded] at decoded

/-! ## The stored group -/

namespace GroupSpec

variable {i : Nat} {spec : GroupSpec}

section

variable (wellFormed : spec.WellFormed) (bound : i < spec.k)

include wellFormed bound

theorem frameAt_bounds : spec.frames[i]? = some (spec.frameAt i) ∧ 0 < (spec.frameAt i).length ∧
      (spec.frameAt i).length ≤ maxFrameSize := by
  have found : spec.frames[i]? = some (spec.frames.get ⟨i, bound⟩) := getElem?_eq_getElem bound
  rw [frameAt_eq found]
  exact ⟨found, wellFormed.frames _ (get_mem _ _)⟩

theorem shards_getElem? : spec.shards[i]? = some (encodeDataShard (spec.frameAt i)) := by
  rw [shards, getElem?_map, (frameAt_bounds wellFormed bound).1]
  rfl

theorem padded_getElem? : spec.padded[i]? =
      some (padShard (encodeDataShard (spec.frameAt i)) spec.width) := by
  rw [padded, getElem?_map, shards_getElem? wellFormed bound]
  rfl

theorem decode_padded : decodeDataShard (spec.padded.getD i []) = .ok (spec.frameAt i) := by
  obtain ⟨_, positive, small⟩ := frameAt_bounds wellFormed bound
  rw [getD_eq_getElem?_getD, padded_getElem? wellFormed bound]
  apply decodeDataShard_padded positive small
  exact le_shardSizeOf (mem_of_getElem? (shards_getElem? wellFormed bound))

end

end GroupSpec

/-- The group as the records seen so far determine it. -/
structure ReceiveGroup.Holds (codec : Codec) (spec : GroupSpec) (id : Nat)
    (now : Time) (arrived : List Packet) (group : ReceiveGroup) : Prop where
  created : group.created = now
  epoch : group.epoch = spec.epoch
  groupID : group.groupID = id
  data : ∀ i, group.data i = if seen arrived id .data i then spec.shards[i]? else none
  parity : ∀ j, group.parity j =
    if seen arrived id .parity j then (spec.parityShards codec)[j]? else none
  delivered : ∀ i < 64, group.delivered.has i = seen arrived id .data i
  dimensions : (dimensioned arrived id = false ∧ group.k = 0 ∧ group.r = 0) ∨
      (dimensioned arrived id = true ∧ group.k = spec.k ∧ group.r = spec.r)
  closed : group.closed = seen arrived id .close 0

section Reception

variable {codec : Codec} {spec : GroupSpec} {id : Nat} {now : Time}
  {arrived : List Packet} {group : ReceiveGroup} {p : Packet}

theorem ReceiveGroup.fresh_holds (codec : Codec) (spec : GroupSpec)
    (now : Time) (none : ∀ p ∈ arrived, p.groupID ≠ id) :
    ReceiveGroup.Holds codec spec id now arrived
      { created := now, epoch := spec.epoch, groupID := id } := by
  have unseen : ∀ kind i, seen arrived id kind i = false := by
    intro kind i
    simp only [seen, any_eq_false, decide_eq_true_eq, not_and]
    exact fun p member same => (none p member same).elim
  refine ⟨rfl, rfl, rfl, by simp [unseen], by simp [unseen], by simp [unseen],
    .inl ⟨?_, rfl, rfl⟩, by simp [unseen]⟩
  simp only [dimensioned, any_eq_false, decide_eq_true_eq, not_and]
  exact fun p member same => (none p member same).elim

/-- The dimensions a parity or close record announces are accepted. -/
theorem ReceiveGroup.Holds.setDimensions (holds : group.Holds codec spec id now arrived)
    (wellFormed : spec.WellFormed) :
    group.setDimensions spec.k spec.r = .ok { group with k := spec.k, r := spec.r } := by
  have positive := wellFormed.nonempty
  have small := wellFormed.small
  have parity := spec.r_le
  unfold ReceiveGroup.setDimensions
  rw [if_neg (by omega)]
  rcases holds.dimensions with ⟨_, zero, _⟩ | ⟨_, known, knownParity⟩
  · simp [zero]
  · simp [known, knownParity]

/-- The indices a record delivers on arrival. -/
def freshIndex (arrived : List Packet) (id : Nat) (p : Packet) : List Nat :=
  if p.kind = .data ∧ seen arrived id .data p.index = false then [p.index]
  else []

variable {i j : Nat}

theorem receive_data (wellFormed : spec.WellFormed) (holds : group.Holds codec spec id now arrived)
    (bound : i < spec.k) :
    ∃ next, receive group (spec.dataRecord id i (spec.frameAt i)) = (.ok ((freshIndex arrived id
          (spec.dataRecord id i (spec.frameAt i))).map spec.frameAt), next) ∧
      next.Holds codec spec id now
        (arrived ++ [spec.dataRecord id i (spec.frameAt i)]) := by
  obtain ⟨_, positive, frameSmall⟩ := frameAt_bounds wellFormed bound
  have small := wellFormed.small
  have shard := shards_getElem? wellFormed bound
  have stored : (group.data i).getD (encodeDataShard (spec.frameAt i)) =
      encodeDataShard (spec.frameAt i) := by
    rw [holds.data i]
    split
    · rw [shard, Option.getD_some]
    · rfl
  have inRange : ¬ (i ≥ maxDataShards ∨ (encodeDataShard (spec.frameAt i)).length < 3) := by
    rw [encodeDataShard_length]
    omega
  have bit : group.delivered.has i = seen arrived id .data i := by
    apply holds.delivered
    simp only [maxDataShards] at small
    omega
  refine ⟨{ group with
      data := Function.update group.data i (some (encodeDataShard (spec.frameAt i)))
      delivered := if seen arrived id .data i then group.delivered else group.delivered.insert i },
    ?_, holds.created, holds.epoch, holds.groupID, fun j => ?_, fun j => ?_, fun j jBound => ?_,
    ?_, ?_⟩
  · -- the shard is stored in both cases, the frame is returned once
    simp only [receive, dataRecord, if_neg inRange, stored, bit, freshIndex]
    cases seen arrived id .data i with
    | true => simp
    | false => simp [decodeDataShard_encode positive frameSmall]
  · rw [seen_append]
    by_cases same : j = i
    · subst same
      simp [dataRecord, shard]
    · simp [dataRecord, Function.update_of_ne same, holds.data j, Ne.symm same]
  · rw [seen_append]
    simp [dataRecord, holds.parity j]
  · have before := holds.delivered j jBound
    rw [seen_append]
    cases was : seen arrived id .data i with
    | true =>
      by_cases same : i = j
      · simp [dataRecord, ← same, bit, was]
      · simp [dataRecord, same, before]
    | false => simp [dataRecord, Bitmap.has_insert _ jBound, before]
  · rw [dimensioned_append]
    simpa [dataRecord] using holds.dimensions
  · rw [seen_append]
    simp [dataRecord, holds.closed]

theorem receive_parity (mds : codec.Mds) (wellFormed : spec.WellFormed)
    (holds : group.Holds codec spec id now arrived) {shard : Bytes}
    (found : (spec.parityShards codec)[j]? = some shard) :
    ∃ next, receive group (spec.parityRecord id j shard) = (.ok [], next) ∧
      next.Holds codec spec id now
        (arrived ++ [spec.parityRecord id j shard]) := by
  obtain ⟨_, length, widths⟩ := encode_padded mds wellFormed
  have bound : j < spec.r := by
    have inBounds := (List.getElem?_eq_some_iff.mp found).1
    omega
  have nonempty : shard ≠ [] := by
    have width := widths shard (mem_of_getElem? found)
    have lower := (width_bounds wellFormed).1
    rintro rfl
    simp only [length_nil] at width
    omega
  have inRange : ¬ (j ≥ spec.r ∨ shard = []) := by
    rintro (outside | empty)
    · omega
    · exact nonempty empty
  have stored : (group.parity j).getD shard = shard := by
    rw [holds.parity j]
    split
    · rw [found, Option.getD_some]
    · rfl
  refine ⟨{ group with k := spec.k, r := spec.r
                       parity := Function.update group.parity j (some shard) },
    ?_, holds.created, holds.epoch, holds.groupID, ?_, ?_, ?_, ?_, ?_⟩
  · simp only [receive, parityRecord, holds.setDimensions wellFormed, if_neg inRange, stored]
  · intro i
    rw [seen_append]
    simp [parityRecord, holds.data i]
  · intro i
    rw [seen_append]
    by_cases same : i = j
    · subst same
      simp [parityRecord, found]
    · simp [parityRecord, Function.update_of_ne same, holds.parity i, Ne.symm same]
  · intro i iBound
    rw [seen_append]
    simp [parityRecord, holds.delivered i iBound]
  · rw [dimensioned_append]
    simp [parityRecord]
  · rw [seen_append]
    simp [parityRecord, holds.closed]

theorem receive_close (wellFormed : spec.WellFormed)
    (holds : group.Holds codec spec id now arrived) :
    ∃ next, receive group (spec.closeRecord id) = (.ok [], next) ∧
      next.Holds codec spec id now (arrived ++ [spec.closeRecord id]) := by
  refine ⟨{ group with k := spec.k, r := spec.r, closed := true }, ?_,
    holds.created, holds.epoch, holds.groupID, ?_, ?_, ?_, ?_, ?_⟩
  · simp only [receive, closeRecord, holds.setDimensions wellFormed]
  · intro i
    rw [seen_append]
    simp [closeRecord, holds.data i]
  · intro i
    rw [seen_append]
    simp [closeRecord, holds.parity i]
  · intro i iBound
    rw [seen_append]
    simp [closeRecord, holds.delivered i iBound]
  · rw [dimensioned_append]
    simp [closeRecord]
  · rw [seen_append]
    simp [closeRecord]

/-- Storing any record of the group succeeds and returns its frame when the
record is a data record seen for the first time. -/
theorem receive_holds (mds : codec.Mds) (wellFormed : spec.WellFormed)
    (holds : group.Holds codec spec id now arrived) (member : p ∈ spec.records codec id) :
    ∃ next, receive group p = (.ok ((freshIndex arrived id p).map spec.frameAt), next) ∧
      next.Holds codec spec id now (arrived ++ [p]) := by
  rcases mem_records_cases member with
    ⟨i, frame, found, rfl⟩ | ⟨j, shard, found, rfl⟩ | rfl
  · rw [← frameAt_eq found]
    exact receive_data wellFormed holds (List.getElem?_eq_some_iff.mp found).1
  · obtain ⟨next, received, nextHolds⟩ := receive_parity mds wellFormed holds found
    exact ⟨next, by simpa [freshIndex, parityRecord] using received, nextHolds⟩
  · obtain ⟨next, received, nextHolds⟩ := receive_close wellFormed holds
    exact ⟨next, by simpa [freshIndex, closeRecord] using received, nextHolds⟩

/-! ## Completing the group -/

def restoredFrame (restored : List Bytes) (i : Nat) : Bytes :=
  (decodeDataShard (restored.getD i [])).toOption.getD []

section Adopt

variable {restored : List Bytes} {slots : List Nat} {group after : ReceiveGroup}
  {frames out : List Bytes}

/-- Adopting returns the frames of the empty slots and marks them. -/
theorem adopt_ok (adopts : ReceiveGroup.adopt restored slots group frames = (.ok out, after))
    (nodup : slots.Nodup) (small : ∀ i ∈ slots, i < 64)
    (agree : ∀ i ∈ slots, group.delivered.has i = (group.data i).isSome) :
    after = { group with
        data := after.data, reconstructed := after.reconstructed, delivered := after.delivered } ∧
      out = frames ++ (slots.filter fun i => (group.data i).isNone).map (restoredFrame restored) ∧
      (∀ i < 64, after.delivered.has i = (group.delivered.has i || decide (i ∈ slots))) ∧
      ∀ i < 64, after.reconstructed.has i = (group.reconstructed.has i ||
        decide (i ∈ slots) && (group.data i).isNone) := by
  induction slots generalizing group frames with
  | nil =>
    cases adopts
    simp
  | cons slot slots ih =>
    obtain ⟨absent, nodup⟩ := nodup_cons.mp nodup
    rw [forall_mem_cons] at small agree
    rw [adopt] at adopts
    cases stored : group.data slot with
    | some shard =>
      rw [stored] at adopts agree
      obtain ⟨rest, returned, bits, marks⟩ := ih adopts nodup small.2 agree.2
      refine ⟨rest, ?_, fun i bound => ?_, fun i bound => ?_⟩
      · rw [returned, filter_cons_of_neg (by simp [stored])]
      · rw [bits i bound]
        by_cases same : i = slot
        · simp [same, agree.1]
        · simp [same]
      · rw [marks i bound]
        by_cases same : i = slot
        · simp [same, stored]
        · simp [same]
    | none =>
      rw [stored] at adopts agree
      have others : ∀ i ∈ slots, i ≠ slot := fun i member same => absent (same ▸ member)
      cases decoded : decodeDataShard (restored.getD slot []) with
      | error err =>
        rw [decoded] at adopts
        cases adopts
      | ok frame =>
        have own : restoredFrame restored slot = frame := by
          rw [restoredFrame, decoded]
          rfl
        rw [decoded] at adopts
        simp only [agree.1, Option.isSome_none, Bool.false_eq_true, if_false] at adopts
        obtain ⟨rest, returned, bits, marks⟩ := ih adopts nodup small.2 fun i member => by
          simp [Bitmap.has_insert _ (small.2 i member), others i member, agree.2 i member,
            Ne.symm (others i member)]
        refine ⟨rest, ?_, fun i bound => ?_, fun i bound => ?_⟩
        · have same : (slots.filter fun i => (Function.update group.data slot
              (some (restored.getD slot [])) i).isNone) =
              slots.filter fun i => (group.data i).isNone :=
            filter_congr fun i member => by rw [Function.update_of_ne (others i member)]
          rw [returned, same, filter_cons_of_pos (by simp [stored]), map_cons, own,
            append_assoc, singleton_append]
        · rw [bits i bound, Bitmap.has_insert _ bound]
          by_cases same : i = slot
          · simp [same]
          · simp [same, Ne.symm same]
        · rw [marks i bound, Bitmap.has_insert _ bound]
          by_cases same : i = slot
          · simp [same, stored]
          · simp [same, Ne.symm same]

theorem adopt_succeeds
    (decodes : ∀ i ∈ slots, ∃ frame, decodeDataShard (restored.getD i []) = .ok frame) :
    ∃ out after, ReceiveGroup.adopt restored slots group frames = (.ok out, after) := by
  induction slots generalizing group frames with
  | nil => exact ⟨frames, group, rfl⟩
  | cons slot slots ih =>
    rw [forall_mem_cons] at decodes
    obtain ⟨⟨frame, decoded⟩, decodes⟩ := decodes
    rw [adopt, decoded]
    dsimp only
    split
    · exact ih decodes
    split
    · exact ih decodes
    · exact ih decodes

end Adopt

theorem seen_data_bound (honest : spec.Honest codec id arrived)
    (found : seen arrived id .data i = true) : i < spec.k := by
  obtain ⟨p, member, group, kind, rfl⟩ := seen_exists found
  exact (data_of_mem_records (honest p member group) kind).1

theorem seen_parity_dimensioned (found : seen arrived id .parity j = true) :
    dimensioned arrived id = true := by
  obtain ⟨p, member, group, kind, _⟩ := seen_exists found
  simp only [dimensioned, any_eq_true, decide_eq_true_eq]
  exact ⟨p, member, group, .inl kind⟩

section

variable (holds : group.Holds codec spec id now arrived)

include holds

theorem ReceiveGroup.Holds.data_isSome (wellFormed : spec.WellFormed) (bound : i < spec.k) :
    (group.data i).isSome = seen arrived id .data i := by
  rw [holds.data i]
  cases seen arrived id .data i with
  | true => simp [shards_getElem? wellFormed bound]
  | false => simp

theorem ReceiveGroup.Holds.parity_isSome (mds : codec.Mds) (wellFormed : spec.WellFormed)
    (bound : j < spec.r) : (group.parity j).isSome = seen arrived id .parity j := by
  obtain ⟨_, length, _⟩ := encode_padded mds wellFormed
  rw [holds.parity j]
  cases seen arrived id .parity j with
  | true => simp [length, bound]
  | false => simp

theorem ReceiveGroup.Holds.receivedData (wellFormed : spec.WellFormed) (known : group.k = spec.k) :
    group.receivedData = (List.range spec.k).countP (seen arrived id .data) := by
  rw [ReceiveGroup.receivedData, known]
  apply countP_congr
  intro i member
  rw [holds.data_isSome wellFormed (mem_range.mp member)]

section

variable (mds : codec.Mds) (wellFormed : spec.WellFormed)

include mds wellFormed

theorem ReceiveGroup.Holds.receivedParity (known : group.r = spec.r) :
    group.receivedParity = (List.range spec.r).countP (seen arrived id .parity) := by
  rw [ReceiveGroup.receivedParity, known]
  apply countP_congr
  intro j member
  rw [holds.parity_isSome mds wellFormed (mem_range.mp member)]

/-- A parity shard has the width of the padded group, and no stored shard is
longer. -/
theorem ReceiveGroup.Holds.shardSize (bound : j < spec.r)
    (found : seen arrived id .parity j = true) : group.shardSize = spec.width := by
  obtain ⟨_, length, widths⟩ := encode_padded mds wellFormed
  have parityBound := spec.r_le
  apply Nat.le_antisymm
  · apply shardSizeOf_le
    intro shard member
    rcases mem_append.mp member with inData | inParity
    · obtain ⟨i, _, stored⟩ := mem_filterMap.mp inData
      rw [holds.data i] at stored
      split at stored
      · exact le_shardSizeOf (mem_of_getElem? stored)
      · simp at stored
    · obtain ⟨i, _, stored⟩ := mem_filterMap.mp inParity
      rw [holds.parity i] at stored
      split at stored
      · exact Nat.le_of_eq (widths shard (mem_of_getElem? stored))
      · simp at stored
  · have inShards : (spec.parityShards codec)[j]? =
        some ((spec.parityShards codec).get ⟨j, by omega⟩) :=
      getElem?_eq_getElem (by omega)
    have stored : group.parity j = some ((spec.parityShards codec).get ⟨j, by omega⟩) := by
      rw [holds.parity j, if_pos found, inShards]
    rw [← widths _ (mem_of_getElem? inShards)]
    apply le_shardSizeOf
    apply mem_append_right
    exact mem_filterMap.mpr ⟨j, mem_range.mpr (by omega), stored⟩

section

variable (known : group.k = spec.k) (knownParity : group.r = spec.r)

include known knownParity

theorem ReceiveGroup.Holds.shards_honest (size : group.shardSize = spec.width) {shard : Bytes}
    (found : group.shards[i]? = some (some shard)) :
    (spec.padded ++ spec.parityShards codec)[i]? = some shard := by
  obtain ⟨_, length, widths⟩ := encode_padded mds wellFormed
  have paddedLength := (block wellFormed).length
  simp only [shards, known, knownParity, size] at found
  by_cases inData : i < spec.k
  · rw [getElem?_append_left (by simpa using inData), getElem?_map, getElem?_range inData] at found
    simp only [Option.map_some, Option.some.injEq, holds.data i] at found
    rw [getElem?_append_left (by omega)]
    split at found
    · rw [shards_getElem? wellFormed inData] at found
      rw [padded_getElem? wellFormed inData]
      exact found
    · simp at found
  · rw [getElem?_append_right (by simpa using Nat.le_of_not_lt inData),
      length_map, length_range] at found
    rw [getElem?_append_right (by omega), paddedLength]
    have bound : i - spec.k < spec.r := by
      have inBounds := (List.getElem?_eq_some_iff.mp found).1
      simpa using inBounds
    rw [getElem?_map, getElem?_range bound] at found
    simp only [Option.map_some, Option.some.injEq, holds.parity (i - spec.k)] at found
    split at found
    · obtain ⟨parity, inParity, padded⟩ := Option.map_eq_some_iff.mp found
      have width := widths parity (mem_of_getElem? inParity)
      rw [padShard, if_pos width] at padded
      rw [inParity, padded]
    · simp at found

theorem ReceiveGroup.Holds.presentShards :
    presentShards group.shards = spec.shardsSeen id arrived := by
  rw [shardsSeen, ← holds.receivedData wellFormed known,
    ← holds.receivedParity mds wellFormed knownParity]
  simp [WgQuic.Fec.presentShards, shards,
    ReceiveGroup.receivedData, ReceiveGroup.receivedParity, countP_map, Function.comp_def]

theorem ReceiveGroup.Holds.reconstructs (enough : spec.k ≤ spec.shardsSeen id arrived)
    (missing : (List.range spec.k).countP (seen arrived id .data) < spec.k) :
    codec.reconstructData group.k group.r group.shards = .ok spec.padded := by
  -- Fewer data records than needed were seen, so a parity record was.
  have someParity : 0 < (List.range spec.r).countP (seen arrived id .parity) := by
    simp only [shardsSeen] at enough
    omega
  obtain ⟨j, member, found⟩ := countP_pos_iff.mp someParity
  have size := holds.shardSize mds wellFormed (mem_range.mp member) found
  obtain ⟨encoded, _, _⟩ := encode_padded mds wellFormed
  have slots : group.shards.length = spec.k + spec.r := by
    simp [shards, known, knownParity]
  rw [known, knownParity]
  exact mds.restores (block wellFormed) encoded slots
    (fun _ _ => holds.shards_honest mds wellFormed known knownParity size)
    (by rw [holds.presentShards mds wellFormed known knownParity]; exact enough)

end

end

end

theorem all_seen_of_count {k : Nat} (all : k ≤ (List.range k).countP (seen arrived id .data))
    (bound : i < k) : seen arrived id .data i = true := by
  have full : (List.range k).countP (seen arrived id .data) = (List.range k).length := by
    apply Nat.le_antisymm countP_le_length
    simpa using all
  exact countP_eq_length.mp full i (mem_range.mpr bound)

/-- Nothing beyond the data records seen can be recovered yet. -/
theorem recovered_iff_seen (honest : spec.Honest codec id arrived)
    (waiting : spec.k ≤ spec.shardsSeen id arrived →
      spec.k ≤ (List.range spec.k).countP (seen arrived id .data)) (i : Nat) :
    spec.recovered id arrived i ↔ seen arrived id .data i = true := by
  constructor
  · rintro ⟨bound, found | enough⟩
    · exact found
    · exact all_seen_of_count (waiting enough) bound
  · exact fun found => ⟨seen_data_bound honest found, .inl found⟩

/-- A group that `tryComplete` reports as final: all its frames were
returned. -/
structure ReceiveGroup.Finished (spec : GroupSpec) (id : Nat)
    (group : ReceiveGroup) : Prop where
  epoch : group.epoch = spec.epoch
  groupID : group.groupID = id
  k : group.k = spec.k
  delivered : ∀ i < spec.k, group.delivered.has i = true

/-- The indices of a group whose data records were not seen. -/
def GroupSpec.absent (spec : GroupSpec) (id : Nat) (arrived : List Packet) : List Nat :=
  (List.range spec.k).filter fun i => !seen arrived id .data i

theorem tryComplete_holds (mds : codec.Mds) (wellFormed : spec.WellFormed)
    (honest : spec.Honest codec id arrived) (holds : group.Holds codec spec id now arrived) :
    (tryComplete codec group = (.ok {}, group) ∧ ∀ i, spec.recovered id arrived i ↔
          seen arrived id .data i = true) ∨
      ∃ feedback next, tryComplete codec group =
          (.ok { frames := (spec.absent id arrived).map spec.frameAt
                 feedback := some feedback, final := true }, next) ∧
        next.Finished spec id ∧ spec.k ≤ spec.shardsSeen id arrived := by
  have positive := wellFormed.nonempty
  have small := wellFormed.small
  simp only [maxDataShards] at small
  have bits : ∀ i < spec.k, group.delivered.has i = seen arrived id .data i :=
    fun i bound => holds.delivered i (by omega)
  rcases holds.dimensions with ⟨unknown, zero, _⟩ | ⟨_, known, knownParity⟩
  · -- Without dimensions no parity record was seen.
    left
    refine ⟨by simp [tryComplete, zero], recovered_iff_seen honest ?_⟩
    intro enough
    have noParity : (List.range spec.r).countP (seen arrived id .parity) = 0 := by
      rw [countP_eq_zero]
      intro j _ found
      rw [seen_parity_dimensioned found] at unknown
      exact Bool.noConfusion unknown
    simp only [shardsSeen, noParity] at enough
    omega
  · have received := holds.receivedData wellFormed known
    have receivedParity := holds.receivedParity mds wellFormed knownParity
    have parityPositive := r_pos wellFormed
    have nonzero : group.k ≠ 0 := by omega
    have available : group.receivedData + group.receivedParity = spec.shardsSeen id arrived := by
      rw [received, receivedParity]
      rfl
    by_cases complete : spec.k ≤ (List.range spec.k).countP (seen arrived id .data)
    · have none : group.k - group.receivedData = 0 := by omega
      have nothing : spec.absent id arrived = [] := by
        simp only [GroupSpec.absent, filter_eq_nil_iff, mem_range]
        intro i bound
        simp [all_seen_of_count complete bound]
      cases closed : group.closed with
      | true =>
        right
        refine ⟨group.feedback 0 0, group, ?_, ⟨holds.epoch, holds.groupID, known, ?_⟩, ?_⟩
        · simp [tryComplete, nonzero, none, closed, nothing]
        · intro i bound
          rw [bits i bound, all_seen_of_count complete bound]
        · omega
      | false =>
        left
        refine ⟨?_, recovered_iff_seen honest fun _ => complete⟩
        have parity : group.r ≠ 0 := by omega
        simp [tryComplete, none, closed, parity]
    · have missing : group.k - group.receivedData ≠ 0 := by omega
      by_cases enough : spec.k ≤ spec.shardsSeen id arrived
      · right
        have restored := holds.reconstructs mds wellFormed known knownParity enough (by omega)
        have block := block wellFormed
        have constructed : codec.new group.k group.r = none := by
          rw [known, knownParity]
          exact mds.constructs block.dataPositive block.parityPositive block.total
        have inRange : ∀ i ∈ List.range group.k, i < spec.k :=
          fun i member => known ▸ mem_range.mp member
        have decodes : ∀ i ∈ List.range group.k,
            decodeDataShard (spec.padded.getD i []) = .ok (spec.frameAt i) :=
          fun i member => decode_padded wellFormed (inRange i member)
        obtain ⟨out, next, adopted⟩ := @adopt_succeeds spec.padded (List.range group.k) group []
          fun i member => ⟨_, decodes i member⟩
        obtain ⟨rest, returned, delivered, _⟩ := adopt_ok adopted nodup_range
          (fun i member => by have := inRange i member; omega) fun i member => by
            rw [bits i (inRange i member), holds.data_isSome wellFormed (inRange i member)]
        have absent : ((List.range group.k).filter fun i =>
            (group.data i).isNone) = spec.absent id arrived := by
          rw [known]
          apply filter_congr
          intro i member
          rw [← holds.data_isSome wellFormed (mem_range.mp member)]
          cases group.data i <;> rfl
        have frames : out = (spec.absent id arrived).map spec.frameAt := by
          rw [returned, absent]
          refine map_congr_left fun i member => ?_
          rw [GroupSpec.absent, ← known] at member
          rw [restoredFrame, decodes i (mem_of_mem_filter member)]
          rfl
        rw [frames] at adopted
        refine ⟨next.feedback (group.k - group.receivedData)
            ((spec.absent id arrived).map spec.frameAt).length, next, ?_,
          ⟨(congrArg ReceiveGroup.epoch rest).trans holds.epoch,
            (congrArg ReceiveGroup.groupID rest).trans holds.groupID,
            (congrArg ReceiveGroup.k rest).trans known, ?_⟩, enough⟩
        · have notShort : ¬ group.receivedData + group.receivedParity < group.k := by omega
          simp only [tryComplete, if_neg nonzero, if_neg missing,
            if_neg notShort, constructed, restored, adopted]
        · intro i bound
          rw [delivered i (by omega), known]
          simp [bound]
      · left
        refine ⟨?_, recovered_iff_seen honest fun enough' =>
          (enough enough').elim⟩
        have short : group.receivedData + group.receivedParity < group.k := by omega
        have parity : group.r ≠ 0 := by omega
        simp [tryComplete, if_neg missing, short, parity]

end Reception

end WgQuic.Fec
