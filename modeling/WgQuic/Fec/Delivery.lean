import WgQuic.Fec.DecoderRun
import WgQuic.Fec.EncoderRun

/-!
# End-to-end delivery

The encoder's output passes a channel that loses, reorders and duplicates
datagrams.  What a fresh decoder returns is stated on the output and the
surviving datagrams alone.
-/

namespace WgQuic.Fec

open List GroupSpec

def groupFrames (sent : List Datagram) (id : Nat) : Nat :=
  (recordsOf id sent).countP fun p => p.kind = .data

/-- The number of data and parity records of group `id` that survive. -/
def survivingShards (sent : List Datagram) (arrivals : List Bytes) (id : Nat) : Nat :=
  (recordsOf id sent).countP fun p =>
    (p.kind = .data ∨ p.kind = .parity) ∧ marshalPacket p ∈ arrivals

/-- A data record survives itself, or enough of its group does. -/
def Deliverable (sent : List Datagram) (arrivals : List Bytes) (p : Packet) : Prop :=
  p.kind = .data ∧ (marshalPacket p ∈ arrivals ∨
    groupFrames sent p.groupID ≤ survivingShards sent arrivals p.groupID)

instance (sent : List Datagram) (arrivals : List Bytes) (p : Packet) :
    Decidable (Deliverable sent arrivals p) :=
  inferInstanceAs (Decidable (_ ∧ (_ ∨ _)))

/-- The frames a receiver of `arrivals` should return. -/
def deliverableFrames (sent : List Datagram) (arrivals : List Bytes) : List Bytes :=
  sent.filterMap fun
    | .raw _ => none
    | .record p =>
      if Deliverable sent arrivals p then some (p.payload.drop 2) else none

/-- The group a datagram names; only records are ever asked. -/
def datagramGroup (datagram : Bytes) : Nat :=
  match parsePacket datagram with
  | .ok (some p) => p.groupID
  | _ => 0

/-- Any loss, reordering and duplication of the records of an output. -/
def Survives (sent : List Datagram) (arrivals : List Bytes) : Prop :=
  ∀ datagram ∈ arrivals, datagram.take 4 = magic ∧ ∃ s ∈ sent, s.bytes = datagram

section Stream

variable {codec : Codec} {lanes : List EncoderGroup} {sent : List Datagram}
  {history : List GroupSpec} {p : Packet}

theorem mem_recordsOf {id : Nat} : p ∈ recordsOf id sent ↔ .record p ∈ sent ∧ p.groupID = id := by
  simp only [recordsOf, mem_filterMap]
  constructor
  · rintro ⟨datagram, member, isRecord⟩
    cases datagram with
    | raw frame => simp at isRecord
    | record q =>
      simp only [Option.ite_none_right_eq_some, Option.some.injEq] at isRecord
      obtain ⟨same, rfl⟩ := isRecord
      exact ⟨member, same⟩
  · rintro ⟨member, same⟩
    exact ⟨.record p, member, by simp [same]⟩

theorem LanesInv.ofStream (inv : LanesInv codec lanes sent history) (member : .record p ∈ sent) :
    OfStream codec history p := by
  have inGroup : p ∈ recordsOf p.groupID sent := mem_recordsOf.mpr ⟨member, rfl⟩
  cases found : history[p.groupID]? with
  | none =>
    rw [inv.later (getElem?_eq_none_iff.mp found)] at inGroup
    simp at inGroup
  | some spec =>
    refine ⟨spec, found, ?_⟩
    rw [← inv.records found]
    exact inGroup

variable {spec : GroupSpec}

theorem mapIdx_eq_range {α β : Type} (f : Nat → α → β) (items : List α) (filler : α) :
    items.mapIdx f = (List.range items.length).map fun i => f i (items.getD i filler) := by
  apply ext_getElem
  · simp
  · intro i bound _
    rw [length_mapIdx] at bound
    simp [bound]

theorem GroupSpec.dataRecords_eq (id : Nat) : spec.dataRecords id = (List.range spec.k).map fun i =>
      spec.dataRecord id i (spec.frameAt i) := by
  exact mapIdx_eq_range _ _ []

theorem GroupSpec.countP_data_tail (id : Nat)
    {q : Packet → Bool} (onlyData : ∀ p, q p = true → p.kind = .data) :
    (spec.records codec id).countP q = (spec.dataRecords id).countP q := by
  rw [records, countP_append]
  have none : List.countP q (if spec.closed then spec.tailRecords codec id else []) = 0 := by
    rw [countP_eq_zero]
    intro p member accepted
    split at member
    · exact tailRecords_notData member (onlyData p accepted)
    · simp at member
  omega

theorem GroupSpec.records_data_count (id : Nat) :
    (spec.records codec id).countP (fun p => p.kind = .data) = spec.k := by
  rw [countP_data_tail id (by simp), dataRecords_eq]
  have all : (List.range spec.k).countP ((fun p : Packet => decide (p.kind = .data)) ∘ fun i =>
        spec.dataRecord id i (spec.frameAt i)) = (List.range spec.k).length := by
    rw [countP_eq_length]
    intro i _
    simp [dataRecord]
  simpa using all

section

variable (mds : codec.Mds) (wellFormed : ∀ spec ∈ history, spec.WellFormed)
  (unwrapped : history.length ≤ 2 ^ 64)

include mds wellFormed unwrapped

theorem OfStream.fits {p : Packet} (ofStream : OfStream codec history p) : p.Fits := by
  obtain ⟨spec, found, member⟩ := ofStream
  have bound := (List.getElem?_eq_some_iff.mp found).1
  exact fits_of_mem_records mds (wellFormed spec (mem_of_getElem? found)) (by omega) member

theorem marshalPacket_mem {records : List Packet}
    (ofStream : ∀ q ∈ records, OfStream codec history q) (isRecord : OfStream codec history p) :
    marshalPacket p ∈ records.map marshalPacket ↔ p ∈ records := by
  constructor
  · intro member
    obtain ⟨q, inRecords, same⟩ := mem_map.mp member
    have parsed := parsePacket_marshalPacket ((ofStream q inRecords).fits mds wellFormed unwrapped)
    rw [same, parsePacket_marshalPacket (isRecord.fits mds wellFormed unwrapped)] at parsed
    cases parsed
    exact inRecords
  · exact fun member => mem_map.mpr ⟨p, member, rfl⟩

end

variable {spec : GroupSpec} {id : Nat} {records : List Packet}

section

variable (honest : spec.Honest codec id records)

include honest

theorem mem_iff_seen_data (i : Nat) :
    spec.dataRecord id i (spec.frameAt i) ∈ records ↔ seen records id .data i = true := by
  constructor
  · intro member
    simp only [seen, any_eq_true, decide_eq_true_eq]
    exact ⟨_, member, rfl, rfl, rfl⟩
  · intro found
    obtain ⟨p, member, group, kind, rfl⟩ := seen_exists found
    rw [← (data_of_mem_records (honest p member group) kind).2]
    exact member

theorem mem_iff_seen_parity (j : Nat) :
    spec.parityRecord id j ((spec.parityShards codec).getD j []) ∈ records ↔
      seen records id .parity j = true := by
  constructor
  · intro member
    simp only [seen, any_eq_true, decide_eq_true_eq]
    exact ⟨_, member, rfl, rfl, rfl⟩
  · intro found
    obtain ⟨p, member, group, kind, rfl⟩ := seen_exists found
    rw [← parity_of_mem_records (honest p member group) kind]
    exact member

/-- An open group has no parity records to see. -/
theorem seen_parity_closed {j : Nat}
    (found : seen records id .parity j = true) : spec.closed = true := by
  obtain ⟨p, member, group, kind, _⟩ := seen_exists found
  have inGroup := honest p member group
  rw [GroupSpec.records, mem_append] at inGroup
  rcases inGroup with inData | inTail
  · obtain ⟨i, _, rfl⟩ := mem_mapIdx.mp inData
    simp [dataRecord] at kind
  · by_contra isOpen
    simp [isOpen] at inTail

end

/-- Counting the surviving records of a group counts what was seen of it. -/
theorem countP_surviving (mds : codec.Mds) (wellFormed : spec.WellFormed)
    (honest : spec.Honest codec id records) :
    (spec.records codec id).countP (fun p =>
      (p.kind = .data ∨ p.kind = .parity) ∧ p ∈ records) = spec.shardsSeen id records := by
  have data : (spec.dataRecords id).countP (fun p =>
      (p.kind = .data ∨ p.kind = .parity) ∧ p ∈ records) =
        (List.range spec.k).countP (seen records id .data) := by
    rw [GroupSpec.dataRecords_eq, countP_map]
    apply countP_congr
    intro i _
    simp only [Function.comp_apply, decide_eq_true_eq, mem_iff_seen_data honest]
    simp [dataRecord]
  have parity : (spec.parityRecords codec id).countP (fun p =>
      (p.kind = .data ∨ p.kind = .parity) ∧ p ∈ records) =
        (List.range spec.r).countP (seen records id .parity) := by
    obtain ⟨_, length, _⟩ := encode_padded mds wellFormed
    rw [parityRecords, mapIdx_eq_range _ _ [], length, countP_map]
    apply countP_congr
    intro j _
    simp only [Function.comp_apply, decide_eq_true_eq, mem_iff_seen_parity honest]
    simp [parityRecord]
  rw [GroupSpec.records, countP_append, data, shardsSeen]
  cases closed : spec.closed with
  | true =>
    rw [if_pos rfl, tailRecords, countP_append, parity]
    simp [closeRecord]
  | false =>
    have unseen : (List.range spec.r).countP (seen records id .parity) = 0 := by
      rw [countP_eq_zero]
      intro j _ found
      rw [seen_parity_closed honest found] at closed
      exact Bool.noConfusion closed
    simp [unseen]

/-- On the output and on the records seen, the same frames are due. -/
theorem deliverable_iff (mds : codec.Mds) (inv : LanesInv codec lanes sent history)
    (unwrapped : history.length ≤ 2 ^ 64) (ofStream : ∀ q ∈ records, OfStream codec history q)
    (member : .record p ∈ sent) (found : history[p.groupID]? = some spec) :
    Deliverable sent (records.map marshalPacket) p ↔
      p.kind = .data ∧ spec.recovered p.groupID records p.index := by
  have wellFormed : ∀ spec ∈ history, spec.WellFormed := fun _ => inv.wellFormed
  have honest := honest_of_stream ofStream found
  have survivors : survivingShards sent (records.map marshalPacket)
      p.groupID = spec.shardsSeen p.groupID records := by
    rw [survivingShards, inv.records found,
      ← countP_surviving mds (inv.wellFormed (mem_of_getElem? found)) honest]
    apply countP_congr
    intro q inGroup
    have ofGroup := groupID_of_mem_records inGroup
    have isRecord : OfStream codec history q :=
      ⟨spec, by rw [ofGroup]; exact found, by rw [ofGroup]; exact inGroup⟩
    simp only [decide_eq_true_eq, marshalPacket_mem mds wellFormed unwrapped ofStream isRecord]
  have size : groupFrames sent p.groupID = spec.k := by
    rw [groupFrames, inv.records found, records_data_count]
  unfold Deliverable
  rw [marshalPacket_mem mds wellFormed unwrapped ofStream (inv.ofStream member), survivors, size]
  apply and_congr_right
  intro kind
  have inGroup : p ∈ spec.records codec p.groupID := by
    rw [← inv.records found]
    exact mem_recordsOf.mpr ⟨member, rfl⟩
  obtain ⟨bound, isRecord⟩ := data_of_mem_records inGroup kind
  rw [GroupSpec.recovered, ← mem_iff_seen_data honest, ← isRecord]
  simp [bound]

/-- The positions of the frames due, in the order of the output. -/
def deliverablePositions (sent : List Datagram) (arrivals : List Bytes) : List (Nat × Nat) :=
  sent.filterMap fun
    | .raw _ => none
    | .record p =>
      if Deliverable sent arrivals p then some (p.groupID, p.index) else none

theorem mem_deliverablePositions {arrivals : List Bytes} {i : Nat} :
    (id, i) ∈ deliverablePositions sent arrivals ↔
      ∃ p, .record p ∈ sent ∧ Deliverable sent arrivals p ∧ p.groupID = id ∧ p.index = i := by
  simp only [deliverablePositions, mem_filterMap]
  constructor
  · rintro ⟨datagram, member, position⟩
    cases datagram with
    | raw frame => simp at position
    | record p =>
      simp only [Option.ite_none_right_eq_some, Option.some.injEq, Prod.mk.injEq] at position
      exact ⟨p, member, position.1, position.2.1, position.2.2⟩
  · rintro ⟨p, member, due, rfl, rfl⟩
    exact ⟨.record p, member, by simp [due]⟩

theorem deliverablePositions_nodup (inv : LanesInv codec lanes sent history)
    (arrivals : List Bytes) : (deliverablePositions sent arrivals).Nodup := by
  rw [nodup_iff_count_le_one]
  rintro ⟨id, i⟩
  -- A position is counted among the data records of its group.
  have inGroup : (deliverablePositions sent arrivals).count (id, i) ≤
      (recordsOf id sent).countP fun p => p.kind = .data ∧ p.index = i := by
    simp only [List.count, deliverablePositions, recordsOf, countP_filterMap]
    apply countP_mono_left
    intro datagram _ counted
    cases datagram with
    | raw frame => simp at counted
    | record p =>
      by_cases due : Deliverable sent arrivals p
      · simp only [due, if_true, Option.map_some, Option.getD_some,
          beq_iff_eq, Prod.mk.injEq] at counted
        simp [counted.1, counted.2, due.1]
      · simp [due] at counted
  refine Nat.le_trans inGroup ?_
  cases found : history[id]? with
  | none =>
    rw [inv.later (getElem?_eq_none_iff.mp found)]
    simp
  | some spec =>
    rw [inv.records found, countP_data_tail id (by simp; tauto),
      GroupSpec.dataRecords_eq, countP_map]
    have single : (List.range spec.k).countP
        ((fun p : Packet => decide (p.kind = .data ∧ p.index = i)) ∘
          fun j => spec.dataRecord id j (spec.frameAt j)) = (List.range spec.k).count i := by
      apply countP_congr
      intro j _
      simp [dataRecord]
    rw [single]
    exact nodup_iff_count_le_one.mp nodup_range i

theorem deliverableFrames_eq (inv : LanesInv codec lanes sent history) (arrivals : List Bytes) :
    deliverableFrames sent arrivals =
      (deliverablePositions sent arrivals).map (frameOf history) := by
  rw [deliverablePositions, map_filterMap]
  apply filterMap_congr
  intro datagram member
  cases datagram with
  | raw frame => rfl
  | record p =>
    by_cases due : Deliverable sent arrivals p
    · obtain ⟨spec, found, inGroup⟩ := inv.ofStream member
      have payload : p.payload = encodeDataShard (spec.frameAt p.index) :=
        congrArg Packet.payload (data_of_mem_records inGroup due.1).2
      have header : (putUint16 (spec.frameAt p.index).length).length = 2 := rfl
      simp only [due, if_true, Option.map_some, frameOf, found, payload, encodeDataShard]
      rw [drop_append_of_le_length (by omega), drop_of_length_le (by omega), nil_append]
    · simp [due]

end Stream

/-! ## Delivery -/

variable {sent : List Datagram}

theorem survivors_are_records {arrivals : List Bytes} (survives : Survives sent arrivals)
    (rawApart : ∀ frame, .raw frame ∈ sent → frame.take 4 ≠ magic) :
    ∃ records : List Packet, arrivals = records.map marshalPacket ∧
      ∀ p ∈ records, .record p ∈ sent := by
  induction arrivals with
  | nil => exact ⟨[], rfl, by simp⟩
  | cons datagram rest induction =>
    obtain ⟨records, same, members⟩ :=
      induction fun other member => survives other (by simp [member])
    obtain ⟨isRecord, source, inSent, bytes⟩ := survives datagram (by simp)
    cases source with
    | raw frame =>
      rw [← bytes] at isRecord
      exact (rawApart frame inSent isRecord).elim
    | record p =>
      refine ⟨p :: records, ?_, ?_⟩
      · rw [same, ← bytes]
        rfl
      · intro q member
        rcases mem_cons.mp member with rfl | later
        · exact inSent
        · exact members q later

theorem raw_not_record {calls : List EncoderCall} (valid : ∀ call ∈ calls, call.Valid)
    (carried : carriedFrames sent = calls.flatMap EncoderCall.frames)
    (frame : Bytes) (member : .raw frame ∈ sent) : frame.take 4 ≠ magic := by
  have inCarried : frame ∈ carriedFrames sent := mem_filterMap.mpr ⟨.raw frame, member, rfl⟩
  rw [carried] at inCarried
  obtain ⟨call, inCalls, inFrames⟩ := mem_flatMap.mp inCarried
  cases call with
  | add added controllerInterleave controllerParity =>
    simp only [EncoderCall.frames, mem_singleton] at inFrames
    rw [inFrames]
    exact (valid _ inCalls).2.1
  | flush | reconfigure => simp [EncoderCall.frames] at inFrames

/-- As long as group identifiers do not wrap, every call succeeds, the output
carries the added frames in order, and whatever survives of it makes a fresh
decoder return, without an error, each deliverable frame exactly once and
nothing else. -/
theorem delivery {codec : Codec} (mds : codec.Mds)
    (maxData minInterleave controllerInterleave : Nat)
    (calls : List EncoderCall) (valid : ∀ call ∈ calls, call.Valid)
    (unwrapped : groupsOpened (encoderRun codec
      (newEncoder codec maxData minInterleave controllerInterleave) calls).sent ≤ 2 ^ 64)
    (now : Time) (arrivals : List Bytes)
    (survives : Survives (encoderRun codec
      (newEncoder codec maxData minInterleave controllerInterleave) calls).sent arrivals)
    (few : (arrivals.map datagramGroup).dedup.length ≤ maxReceiveGroups) :
    let run := encoderRun codec (newEncoder codec maxData minInterleave controllerInterleave) calls
    run.errors = [] ∧ carriedFrames run.sent = calls.flatMap EncoderCall.frames ∧
      (decoderRun codec now arrivals).errors = [] ∧
      (decoderRun codec now arrivals).frames.Perm (deliverableFrames run.sent arrivals) := by
  intro run
  obtain ⟨errors, carried, history, inv, bound⟩ := encoderRun_history mds
    maxData minInterleave controllerInterleave calls valid unwrapped
  refine ⟨errors, carried, ?_⟩
  obtain ⟨records, rfl, inSent⟩ := survivors_are_records survives (raw_not_record valid carried)
  have ofStream : ∀ p ∈ records, OfStream codec history p :=
    fun p member => inv.ofStream (inSent p member)
  have wellFormed : ∀ spec ∈ history, spec.WellFormed := fun _ => inv.wellFormed
  have sameGroups : (records.map marshalPacket).map datagramGroup = records.map Packet.groupID := by
    rw [map_map]
    apply map_congr_left
    intro p member
    simp [datagramGroup, parsePacket_marshalPacket ((ofStream p member).fits mds wellFormed bound)]
  rw [sameGroups] at few
  obtain ⟨decoderErrors, _, positions, frames, nodup, members⟩ :=
    decoderRun_recovers mds wellFormed bound now records ofStream few
  refine ⟨decoderErrors, ?_⟩
  rw [frames, deliverableFrames_eq inv]
  apply List.Perm.map
  rw [perm_ext_iff_of_nodup nodup (deliverablePositions_nodup inv _)]
  rintro ⟨id, i⟩
  rw [members, mem_deliverablePositions]
  constructor
  · rintro ⟨spec, found, recovered⟩
    have inGroup : spec.dataRecord id i (spec.frameAt i) ∈ recordsOf id run.sent := by
      rw [inv.records found, GroupSpec.records, GroupSpec.dataRecords_eq]
      exact mem_append_left _ (mem_map.mpr ⟨i, mem_range.mpr recovered.1, rfl⟩)
    have member := (mem_recordsOf.mp inGroup).1
    exact ⟨_, member, (deliverable_iff mds inv bound ofStream member found).mpr
      ⟨rfl, recovered⟩, rfl, rfl⟩
  · rintro ⟨p, member, due, rfl, rfl⟩
    obtain ⟨spec, found, _⟩ := inv.ofStream member
    exact ⟨spec, found, ((deliverable_iff mds inv bound ofStream member found).mp due).2⟩

/-- The record of the `i`-th frame of group `id` in the first epoch. -/
def firstEpochRecord (id i : Nat) (frame : Bytes) : Packet :=
  { kind := .data, epoch := 1, groupID := id, index := i
    payload := encodeDataShard frame }

theorem delivery_second_of_two : (decoderRun interpolationCodec 0
      [marshalPacket (firstEpochRecord 0 1 [8]),
        marshalPacket (firstEpochRecord 0 1 [8])]).frames.Perm
      (deliverableFrames (encoderRun interpolationCodec (newEncoder interpolationCodec 8 1 1)
        [.add [7] 1 1, .add [8] 1 1]).sent [marshalPacket (firstEpochRecord 0 1 [8]),
          marshalPacket (firstEpochRecord 0 1 [8])]) := by
  have sent : (encoderRun interpolationCodec (newEncoder interpolationCodec 8 1 1)
      [.add [7] 1 1, .add [8] 1 1]).sent = [.record (firstEpochRecord 0 0 [7]),
          .record (firstEpochRecord 0 1 [8])] := rfl
  refine (delivery interpolationCodec_mds 8 1 1 [.add [7] 1 1, .add [8] 1 1] ?_ ?_ 0 _ ?_ ?_).2.2.2
  · simp [EncoderCall.Valid, FrameFits, magic, maxFrameSize, maxParityShards]
  · decide
  · intro datagram member
    simp only [mem_cons, not_mem_nil, or_false, or_self] at member
    subst member
    exact ⟨marshalPacket_take_magic _, .record (firstEpochRecord 0 1 [8]), by rw [sent]; simp, rfl⟩
  · decide

/-! ## Group identifiers wrap -/

/-- An encoder that closes every group after one frame, having opened `n`
groups. -/
structure OneFrameGroups (e : Encoder) (n : Nat) : Prop where
  epoch : e.epoch = 1
  nextGroupID : e.nextGroupID = n % 2 ^ 64
  maxData : e.maxData = 1
  interleave : e.interleave = 1
  minInterleave : e.minInterleave = 1
  lane : ∃ lane, e.groups = [lane] ∧ lane.len = 0
  current : e.current = 0
  lastParity : e.lastParity = -1 ∨ e.lastParity = 1

variable {codec : Codec} {frame : Bytes} {n : Nat} {run : EncoderRun}

theorem OneFrameGroups.add (mds : codec.Mds) {e : Encoder} (idle : OneFrameGroups e n)
    (fits : FrameFits frame) :
    ∃ tail next, e.add codec 1 1 frame =
        (.ok (.record (firstEpochRecord (n % 2 ^ 64) 0 frame) :: tail), next) ∧
      OneFrameGroups next (n + 1) := by
  obtain ⟨lane, lanes, empty⟩ := idle.lane
  let opened : EncoderGroup :=
    { lane with groupID := e.nextGroupID, epoch := e.epoch, parity := 1 }
  have emptyToo : opened.len = 0 := empty
  have small : opened.epoch < 2 ^ 16 := by
    change e.epoch < 2 ^ 16
    rw [idle.epoch]
    decide
  obtain ⟨flushed, flush, flushedEmpty⟩ := flushGroup_carries mds (.first emptyToo frame)
    (.first small Nat.one_pos fits)
  generalize List.map _ _ = tail at flush
  simp only [opened, empty, idle.nextGroupID, idle.epoch] at flush
  have length : ¬ (frame.length = 0 ∨ frame.length > maxFrameSize) := by
    obtain ⟨positive, small⟩ := fits
    omega
  have parityKept : ¬ (0 ≤ e.lastParity ∧ ((1 : Nat) : Int) ≠ e.lastParity) := by
    rcases idle.lastParity with initial | settled <;> omega
  have enters : e.enterParity codec 1 = (.ok [], e) := by
    rw [Encoder.enterParity, if_neg parityKept]
  have chosen : e.groups.getD e.current {} = lane := by simp [lanes, idle.current]
  refine ⟨tail, { e with
    lastParity := 1, nextGroupID := (e.nextGroupID + 1) % 2 ^ 64, groups := [flushed]
    current := 0 }, ?_, ?_⟩
  · rw [Encoder.add, if_neg length]
    simp only [idle.minInterleave, idle.interleave, Nat.max_self, ne_eq, not_true_eq_false,
      if_false, Encoder.addProtected, Nat.one_ne_zero, false_and, enters, Encoder.place, chosen,
      Encoder.openLane, empty, if_true, Encoder.fillLane, EncoderGroup.push_len, idle.maxData,
      idle.nextGroupID, idle.epoch, flush]
    simp [lanes, idle.current, Encoder.dataRecord, firstEpochRecord]
  · exact { idle with
      nextGroupID := by
        dsimp only
        rw [idle.nextGroupID]
        omega
      lane := ⟨flushed, rfl, flushedEmpty⟩
      current := rfl
      lastParity := .inr rfl }

section

variable (mds : codec.Mds) (idle : OneFrameGroups run.final n) (fits : FrameFits frame)

include mds idle fits

theorem OneFrameGroups.step : OneFrameGroups (run.step codec (.add frame 1 1)).final (n + 1) ∧
      .record (firstEpochRecord (n % 2 ^ 64) 0 frame) ∈ (run.step codec (.add frame 1 1)).sent := by
  obtain ⟨tail, next, added, nextIdle⟩ := idle.add mds fits
  simp only [EncoderRun.step, EncoderCall.apply, added]
  exact ⟨nextIdle, by simp⟩

theorem OneFrameGroups.repeat (count : Nat) :
    OneFrameGroups ((List.replicate count (.add frame 1 1)).foldl
      (EncoderRun.step codec) run).final (n + count) := by
  induction count generalizing run n with
  | zero => exact idle
  | succ count induction =>
    have later := induction (idle.step mds fits).1
    rwa [Nat.add_right_comm] at later

end

/-- After a whole cycle of identifiers the first group's is used again. -/
theorem wrapped_records (mds : codec.Mds) (cycle : Nat) (wraps : (cycle + 1) % 2 ^ 64 = 0) :
    let sent := (encoderRun codec (newEncoder codec 1 1 1)
      (List.replicate (cycle + 1) (.add [0] 1 1) ++ [.add [1] 1 1])).sent
    .record (firstEpochRecord 0 0 [0]) ∈ sent ∧ .record (firstEpochRecord 0 0 [1]) ∈ sent := by
  intro sent
  have zeroFits : FrameFits [0] := by simp [FrameFits, maxFrameSize]
  have oneFits : FrameFits [1] := by simp [FrameFits, maxFrameSize]
  let start : EncoderRun := { final := newEncoder codec 1 1 1 }
  have fresh : OneFrameGroups start.final 0 :=
    ⟨rfl, rfl, rfl, rfl, rfl, ⟨{}, rfl, rfl⟩, rfl, .inl rfl⟩
  constructor
  · obtain ⟨_, first⟩ := fresh.step mds zeroFits
    simp only [sent, encoderRun, replicate_succ, cons_append, foldl_cons]
    obtain ⟨rest, extended⟩ := foldl_sent_prefix codec _ _
    rw [extended]
    exact mem_append_left _ first
  · have cycled := fresh.repeat mds zeroFits (cycle + 1)
    obtain ⟨_, last⟩ := cycled.step mds oneFits
    rw [Nat.zero_add, wraps] at last
    simp only [sent, encoderRun, foldl_append, foldl_cons, foldl_nil]
    exact last

theorem delivery_fails_after_wrap : ∃ (calls : List EncoderCall) (arrivals : List Bytes),
      (∀ call ∈ calls, call.Valid) ∧
      Survives (encoderRun interpolationCodec
        (newEncoder interpolationCodec 1 1 1) calls).sent arrivals ∧
      (arrivals.map datagramGroup).dedup.length ≤ maxReceiveGroups ∧
      ¬ (decoderRun interpolationCodec 0 arrivals).frames.Perm
        (deliverableFrames (encoderRun interpolationCodec
          (newEncoder interpolationCodec 1 1 1) calls).sent arrivals) := by
  obtain ⟨cycle, isCycle⟩ : ∃ cycle : Nat, cycle + 1 = 2 ^ 64 := ⟨2 ^ 64 - 1, by decide⟩
  obtain ⟨first, last⟩ := wrapped_records interpolationCodec_mds cycle
    (by rw [isCycle, Nat.mod_self])
  refine ⟨List.replicate (cycle + 1) (.add [0] 1 1) ++ [.add [1] 1 1],
    [marshalPacket (firstEpochRecord 0 0 [0]),
      marshalPacket (firstEpochRecord 0 0 [1])], ?_, ?_, by decide, ?_⟩
  · intro call member
    rcases mem_append.mp member with repeated | final
    · rw [eq_of_mem_replicate repeated]
      simp [EncoderCall.Valid, FrameFits, magic, maxFrameSize, maxParityShards]
    · rw [mem_singleton.mp final]
      simp [EncoderCall.Valid, FrameFits, magic, maxFrameSize, maxParityShards]
  · intro datagram member
    simp only [mem_cons, not_mem_nil, or_false] at member
    rcases member with rfl | rfl
    · exact ⟨marshalPacket_take_magic _, _, first, rfl⟩
    · exact ⟨marshalPacket_take_magic _, _, last, rfl⟩
  · intro permutation
    have returned : (decoderRun interpolationCodec 0 [marshalPacket (firstEpochRecord 0 0 [0]),
          marshalPacket (firstEpochRecord 0 0 [1])]).frames = [[0]] := rfl
    rw [returned] at permutation
    generalize (encoderRun _ _ _).sent = sent at last permutation
    have deliverable : Deliverable sent [marshalPacket (firstEpochRecord 0 0 [0]),
        marshalPacket (firstEpochRecord 0 0 [1])] (firstEpochRecord 0 0 [1]) :=
      ⟨rfl, .inl (by simp)⟩
    have due := permutation.symm.subset (mem_filterMap.mpr ⟨_, last, if_pos deliverable⟩)
    simp [firstEpochRecord, encodeDataShard, putUint16] at due

end WgQuic.Fec
