import WgQuic.Fec.Delivery

/-!
# The order of the records on the wire
-/

namespace WgQuic.Fec

variable {codec : Codec} {spec : GroupSpec} {e : Encoder} {sent : List Datagram}

def Packet.header (p : Packet) : Packet :=
  { p with payload := [] }

/-- The headers of a group of `k` frames: the data records in order and, once
the group is closed, `r` parity records and the close record. -/
def groupHeaders (id epoch k r : Nat) (closed : Bool) : List Packet :=
  (List.range k).map (fun i =>
      { kind := .data, epoch := epoch, groupID := id, index := i }) ++
    if closed then
      (List.range r).map (fun j =>
        { kind := .parity, epoch := epoch, groupID := id, index := j
          k := k, r := r }) ++
        [{ kind := .close, epoch := epoch, groupID := id, k := k, r := r }]
    else []

/-- The records of one group, in the order they were emitted. -/
def GroupRecords (id : Nat) (records : List Packet) : Prop :=
  ∃ epoch k r closed, epoch ≠ 0 ∧ (1 ≤ k ∧ k ≤ maxDataShards) ∧
    (1 ≤ r ∧ r ≤ min maxParityShards (max 1 (k / 2))) ∧
    records.map Packet.header = groupHeaders id epoch k r closed

/-- Mapped to what depends on the position only. -/
theorem map_mapIdx_eq {α β γ : Type} (list : List α) (make : Nat → α → β) (view : β → γ)
    (value : Nat → γ) (views : ∀ i item, view (make i item) = value i) :
    (list.mapIdx make).map view = (List.range list.length).map value := by
  apply List.ext_getElem
  · simp
  · intro i _ _
    simp [views]

theorem GroupSpec.records_header (mds : codec.Mds) (wellFormed : spec.WellFormed) (id : Nat) :
    (spec.records codec id).map Packet.header =
      groupHeaders id spec.epoch spec.k spec.r spec.closed := by
  obtain ⟨_, parityLength, _⟩ := GroupSpec.encode_padded mds wellFormed
  have data : (spec.dataRecords id).map Packet.header = (List.range spec.k).map fun i =>
        { kind := .data, epoch := spec.epoch, groupID := id, index := i } := by
    exact map_mapIdx_eq spec.frames _ _ _ fun _ _ => rfl
  have parity : (spec.parityRecords codec id).map Packet.header = (List.range spec.r).map fun j =>
        { kind := .parity, epoch := spec.epoch, groupID := id, index := j
          k := spec.k, r := spec.r } := by
    rw [← parityLength]
    exact map_mapIdx_eq (spec.parityShards codec) _ _ _ fun _ _ => by
      rw [parityLength]
      rfl
  rw [GroupSpec.records, List.map_append, data]
  cases spec.closed with
  | false => rfl
  | true =>
    simp only [if_true, GroupSpec.tailRecords, List.map_append, parity]
    rfl

theorem GroupSpec.groupRecords (mds : codec.Mds) (wellFormed : spec.WellFormed) (id : Nat)
    (epoch : spec.epoch ≠ 0) : GroupRecords id (spec.records codec id) := by
  refine ⟨spec.epoch, spec.k, spec.r, spec.closed, epoch,
    ⟨wellFormed.nonempty, wellFormed.small⟩, ⟨GroupSpec.r_pos wellFormed, ?_⟩,
    GroupSpec.records_header mds wellFormed id⟩
  unfold GroupSpec.r parityCount
  omega

theorem Ordered.groupRecords (mds : codec.Mds) {history : List GroupSpec} (ordered : Ordered e sent)
    (inv : EncoderInv codec e sent history) (id : Nat) (below : id < groupsOpened sent) :
    GroupRecords id (recordsOf id sent) := by
  rw [inv.opened] at below
  obtain ⟨spec, found⟩ : ∃ spec, history[id]? = some spec :=
    ⟨history[id], List.getElem?_eq_getElem below⟩
  have wellFormed := inv.lanes.wellFormed (List.mem_of_getElem? found)
  have records := inv.lanes.records found
  have nonempty : 0 < spec.frames.length := wellFormed.nonempty
  -- the first data record of the group shows its epoch
  have first : spec.dataRecord id 0 spec.frames[0] ∈ recordsOf id sent := by
    rw [records]
    exact List.mem_append_left _ (List.mem_mapIdx.mpr ⟨0, nonempty, rfl⟩)
  have epoch : spec.epoch ≠ 0 := ordered.nonzero _ (mem_recordsOf.mp first).1
  exact records ▸ GroupSpec.groupRecords mds wellFormed id epoch

/-- As long as group identifiers do not wrap: the output carries the accepted
frames in order, groups are numbered in the order in which they are opened,
the records of each group come in order and end with its close record, and no
record overlaps with a group that is `maxInterleave` older or of another
epoch. -/
theorem encoder_stream_well_formed {codec : Codec} (mds : codec.Mds)
    (maxData minInterleave controllerInterleave : Nat)
    (calls : List EncoderCall) (driven : ∀ call ∈ calls, call.Driven)
    (unwrapped : groupsOpened (encoderRun codec
      (newEncoder codec maxData minInterleave controllerInterleave) calls).sent ≤ 2 ^ 64) :
    let run := encoderRun codec (newEncoder codec maxData minInterleave controllerInterleave) calls
    carriedFrames run.sent = calls.flatMap EncoderCall.accepted ∧
      openedIDs run.sent = List.range (groupsOpened run.sent) ∧
      (∀ id < groupsOpened run.sent, GroupRecords id (recordsOf id run.sent)) ∧
      (∀ p, .record p ∈ run.sent → p.groupID < groupsOpened run.sent) ∧
      Windowed run.sent ∧ run.final.epoch ≠ 0 := by
  obtain ⟨_, carried, history, inv, ordered⟩ := encoderRun_from mds calls driven
    { final := newEncoder codec maxData minInterleave controllerInterleave }
    (newEncoder_tracked mds maxData minInterleave controllerInterleave) unwrapped
  exact ⟨carried, ordered.ids, ordered.groupRecords mds inv, fun p => inv.groupID_lt,
    ordered.windowed, Nat.ne_of_gt inv.epoch.1⟩

theorem encoder_stream_well_formed_two_lanes : openedIDs (encoderRun interpolationCodec
      (newEncoder interpolationCodec 8 2 1)
      [.add [7] 1 1, .add [] 1 1, .add [8] 1 1]).sent = [0, 1] := by
  refine (encoder_stream_well_formed interpolationCodec_mds 8 2 1
    [.add [7] 1 1, .add [] 1 1, .add [8] 1 1] ?_ ?_).2.1
  · simp [EncoderCall.Driven]
  · decide

/-- The identifier of the first group is used again after `2 ^ 64` groups. -/
theorem group_ids_wrap : ∃ calls : List EncoderCall,
    (∀ call ∈ calls, call.Driven) ∧ ¬ (openedIDs (encoderRun interpolationCodec
        (newEncoder interpolationCodec 1 1 1) calls).sent).Pairwise (· < ·) := by
  obtain ⟨cycle, wraps⟩ : ∃ cycle, (cycle + 1) % 2 ^ 64 = 0 := ⟨2 ^ 64 - 1, by norm_num⟩
  obtain ⟨first, last⟩ := wrapped_records interpolationCodec_mds cycle wraps
  refine ⟨List.replicate (cycle + 1) (.add [0] 1 1) ++ [.add [1] 1 1], ?_, ?_⟩
  · intro call member
    rcases List.mem_append.mp member with member | member
    · rw [List.eq_of_mem_replicate member]
      trivial
    · rw [List.mem_singleton.mp member]
      trivial
  · intro increasing
    rw [openedIDs, List.pairwise_filterMap] at increasing
    obtain ⟨i, iBound, at_i⟩ := List.getElem_of_mem first
    obtain ⟨j, jBound, at_j⟩ := List.getElem_of_mem last
    rw [List.pairwise_iff_getElem] at increasing
    rcases Nat.lt_trichotomy i j with less | same | greater
    · have smaller := increasing i j iBound jBound less
      rw [at_i, at_j] at smaller
      exact Nat.lt_irrefl 0 (smaller 0 rfl 0 rfl)
    · subst same
      rw [at_i] at at_j
      revert at_j
      decide
    · have smaller := increasing j i jBound iBound greater
      rw [at_i, at_j] at smaller
      exact Nat.lt_irrefl 0 (smaller 0 rfl 0 rfl)

end WgQuic.Fec
