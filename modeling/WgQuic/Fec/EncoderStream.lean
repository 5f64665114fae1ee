import WgQuic.Fec.Encoder

/-!
# What the encoder puts on the wire

The output of any sequence of calls is described by a history of groups, one
`GroupSpec` per opened group in the order of their identifiers.  The records
of one group are its data records, followed by its parity and close records
once it is closed.
-/

namespace WgQuic.Fec

open List

structure GroupSpec where
  epoch : Nat
  parity : Nat
  frames : List Bytes
  closed : Bool

namespace GroupSpec

def k (spec : GroupSpec) : Nat := spec.frames.length

def r (spec : GroupSpec) : Nat := parityCount spec.parity spec.k

def shards (spec : GroupSpec) : List Bytes := spec.frames.map encodeDataShard

def width (spec : GroupSpec) : Nat := shardSizeOf spec.shards

def padded (spec : GroupSpec) : List Bytes :=
  spec.shards.map (padShard · spec.width)

def parityShards (codec : Codec) (spec : GroupSpec) : List Bytes :=
  match codec.encode spec.k spec.r spec.padded with
  | .ok parity => parity
  | .error _ => []

def dataRecord (spec : GroupSpec) (id i : Nat) (frame : Bytes) : Packet :=
  { kind := .data, epoch := spec.epoch, groupID := id, index := i
    payload := encodeDataShard frame }

def dataRecords (spec : GroupSpec) (id : Nat) : List Packet :=
  spec.frames.mapIdx (spec.dataRecord id)

def parityRecord (spec : GroupSpec) (id j : Nat) (shard : Bytes) : Packet :=
  { kind := .parity, epoch := spec.epoch, groupID := id, index := j
    k := spec.k, r := spec.r, payload := shard }

def parityRecords (codec : Codec) (spec : GroupSpec) (id : Nat) : List Packet :=
  (spec.parityShards codec).mapIdx (spec.parityRecord id)

def closeRecord (spec : GroupSpec) (id : Nat) : Packet :=
  { kind := .close, epoch := spec.epoch, groupID := id
    k := spec.k, r := spec.r }

def tailRecords (codec : Codec) (spec : GroupSpec) (id : Nat) : List Packet :=
  spec.parityRecords codec id ++ [spec.closeRecord id]

def records (codec : Codec) (spec : GroupSpec) (id : Nat) : List Packet :=
  spec.dataRecords id ++ if spec.closed then spec.tailRecords codec id else []

structure WellFormed (spec : GroupSpec) : Prop where
  nonempty : 0 < spec.k
  small : spec.k ≤ maxDataShards
  parityPositive : 0 < spec.parity
  epoch : spec.epoch < 2 ^ 16
  frames : ∀ frame ∈ spec.frames, 0 < frame.length ∧ frame.length ≤ maxFrameSize

end GroupSpec

theorem shardSizeOf_foldl (shards : List Bytes) (start : Nat) :
    start ≤ shards.foldl (fun size shard => max size shard.length) start ∧
      ∀ shard ∈ shards, shard.length ≤
        shards.foldl (fun size shard => max size shard.length) start := by
  induction shards generalizing start with
  | nil => simp
  | cons head tail induction =>
    obtain ⟨base, members⟩ := induction (max start head.length)
    refine ⟨by simp only [foldl_cons]; omega, ?_⟩
    intro shard member
    rcases mem_cons.mp member with rfl | later
    · simp only [foldl_cons]
      omega
    · exact members shard later

variable {shard : Bytes}

theorem le_shardSizeOf {shards : List Bytes}
    (member : shard ∈ shards) : shard.length ≤ shardSizeOf shards :=
  (shardSizeOf_foldl shards 0).2 shard member

theorem shardSizeOf_le {shards : List Bytes} {bound : Nat}
    (bounded : ∀ shard ∈ shards, shard.length ≤ bound) : shardSizeOf shards ≤ bound := by
  have general : ∀ start ≤ bound,
      shards.foldl (fun size shard => max size shard.length) start ≤ bound := by
    induction shards with
    | nil => simp
    | cons head tail induction =>
      intro start startBound
      have headBound := bounded head (by simp)
      exact induction (fun shard member => bounded shard (by simp [member]))
        (max start head.length) (by omega)
  exact general 0 (Nat.zero_le _)

theorem padShard_length {shardSize : Nat} (fits : shard.length ≤ shardSize) :
    (padShard shard shardSize).length = shardSize := by
  rw [padShard_of_le fits]
  simp
  omega

namespace GroupSpec

variable {spec : GroupSpec} {codec : Codec}

theorem r_pos (wellFormed : spec.WellFormed) : 0 < spec.r := by
  have positive := wellFormed.parityPositive
  simp only [r, parityCount, maxParityShards]
  omega

theorem r_le (spec : GroupSpec) : spec.r ≤ maxParityShards := Nat.min_le_right _ _

theorem mem_shards_length (wellFormed : spec.WellFormed)
    (member : shard ∈ spec.shards) : 3 ≤ shard.length ∧ shard.length ≤ maxFrameSize + 2 := by
  obtain ⟨frame, frameMember, rfl⟩ := mem_map.mp member
  have bounds := wellFormed.frames frame frameMember
  rw [encodeDataShard_length]
  omega

theorem width_bounds (wellFormed : spec.WellFormed) :
    3 ≤ spec.width ∧ spec.width ≤ maxFrameSize + 2 := by
  constructor
  · have nonempty := wellFormed.nonempty
    have exists_shard : ∃ shard, shard ∈ spec.shards := by
      apply exists_mem_of_length_pos
      simpa [shards, k] using nonempty
    obtain ⟨shard, member⟩ := exists_shard
    have lower := (mem_shards_length wellFormed member).1
    have upper := le_shardSizeOf member
    exact Nat.le_trans lower upper
  · exact shardSizeOf_le fun shard member =>
      (mem_shards_length wellFormed member).2

theorem block (wellFormed : spec.WellFormed) :
    Codec.Block spec.k spec.r spec.width spec.padded where
  dataPositive := wellFormed.nonempty
  parityPositive := spec.r_pos wellFormed
  total := by
    have small := wellFormed.small
    have parity := spec.r_le
    simp only [maxDataShards, maxParityShards] at small parity
    omega
  widthPositive := by
    have lower := (width_bounds wellFormed).1
    omega
  length := by simp [padded, shards, k]
  widths := by
    intro shard member
    obtain ⟨source, sourceMember, rfl⟩ := mem_map.mp member
    exact padShard_length (le_shardSizeOf sourceMember)

/-- The codec accepts every group the encoder closes. -/
theorem encode_padded (mds : codec.Mds) (wellFormed : spec.WellFormed) :
    codec.encode spec.k spec.r spec.padded = .ok (spec.parityShards codec) ∧
      (spec.parityShards codec).length = spec.r ∧
      ∀ shard ∈ spec.parityShards codec, shard.length = spec.width := by
  obtain ⟨parity, encoded, length, widths⟩ := mds.encodes (block wellFormed)
  have chosen : spec.parityShards codec = parity := by
    simp [parityShards, encoded]
  rw [chosen]
  exact ⟨encoded, length, widths⟩

theorem groupID_of_mem_records {id : Nat} {p : Packet} (member : p ∈ spec.records codec id) :
    p.groupID = id := by
  simp only [records, tailRecords, dataRecords, parityRecords, mem_append] at member
  rcases member with inData | inTail
  · obtain ⟨i, _, rfl⟩ := mem_mapIdx.mp inData
    rfl
  · split at inTail
    · rcases mem_append.mp inTail with inParity | isClose
      · obtain ⟨j, _, rfl⟩ := mem_mapIdx.mp inParity
        rfl
      · rw [mem_singleton.mp isClose]
        rfl
    · simp at inTail

theorem groupID_of_mem_tailRecords {id : Nat} {p : Packet}
    (member : p ∈ spec.tailRecords codec id) : p.groupID = id := by
  have inClosed : p ∈ records codec { spec with closed := true } id := by
    exact mem_append_right _ member
  exact groupID_of_mem_records inClosed

end GroupSpec

/-- The records of group `id`, in the order they were emitted. -/
def recordsOf (id : Nat) (sent : List Datagram) : List Packet :=
  sent.filterMap fun
    | .raw _ => none
    | .record p => if p.groupID = id then some p else none

/-- The source frames an output carries, in order: unprotected frames and
the frames of data records. -/
def carriedFrames (sent : List Datagram) : List Bytes :=
  sent.filterMap fun
    | .raw frame => some frame
    | .record p => if p.kind = .data then some (p.payload.drop 2) else none

def opensGroup : Datagram → Bool
  | .raw _ => false
  | .record p => p.kind = .data ∧ p.index = 0

def groupsOpened (sent : List Datagram) : Nat := sent.countP opensGroup

@[simp] theorem recordsOf_append (id : Nat) (left right : List Datagram) :
    recordsOf id (left ++ right) = recordsOf id left ++ recordsOf id right :=
  filterMap_append

@[simp] theorem carriedFrames_append (left right : List Datagram) : carriedFrames (left ++ right) =
      carriedFrames left ++ carriedFrames right :=
  filterMap_append

@[simp] theorem groupsOpened_append (left right : List Datagram) :
    groupsOpened (left ++ right) = groupsOpened left + groupsOpened right :=
  countP_append

/-- The close record of the group is part of the output. -/
def ClosedIn (sent : List Datagram) (id : Nat) : Prop :=
  ∃ p, .record p ∈ sent ∧ p.kind = .close ∧ p.groupID = id

section Closed

variable {sent out : List Datagram} {id : Nat}

theorem ClosedIn.append_left (closed : ClosedIn sent id) (out : List Datagram) :
    ClosedIn (sent ++ out) id := by
  obtain ⟨p, member, isClose, group⟩ := closed
  exact ⟨p, mem_append_left _ member, isClose, group⟩

theorem ClosedIn.append_right (closed : ClosedIn out id)
    (sent : List Datagram) : ClosedIn (sent ++ out) id := by
  obtain ⟨p, member, isClose, group⟩ := closed
  exact ⟨p, mem_append_right _ member, isClose, group⟩

end Closed

variable {records : List Packet}

theorem recordsOf_map_record {id : Nat} (same : ∀ p ∈ records, p.groupID = id) (other : Nat) :
    recordsOf other (records.map .record) = if other = id then records else [] := by
  induction records with
  | nil => simp [recordsOf]
  | cons p records induction =>
    have head : p.groupID = id := same p (by simp)
    have tail := induction fun q member => same q (by simp [member])
    unfold recordsOf at tail ⊢
    rw [map_cons, filterMap_cons, tail]
    by_cases equal : other = id
    · simp [head, equal]
    · simp [head, equal, Ne.symm equal]

variable {codec : Codec} {spec : GroupSpec} {lane : EncoderGroup} {history : List GroupSpec}
  {lanes : List EncoderGroup} {sent : List Datagram}

theorem tailRecords_notData {id : Nat} {p : Packet} (member : p ∈ spec.tailRecords codec id) :
    p.kind ≠ .data := by
  simp only [GroupSpec.tailRecords, GroupSpec.parityRecords, mem_append] at member
  rcases member with inParity | isClose
  · obtain ⟨j, _, rfl⟩ := mem_mapIdx.mp inParity
    simp [GroupSpec.parityRecord]
  · rw [mem_singleton.mp isClose]
    simp [GroupSpec.closeRecord]

theorem notData_carries_nothing (notData : ∀ p ∈ records, p.kind ≠ .data) :
    carriedFrames (records.map .record) = [] ∧ groupsOpened (records.map .record) = 0 := by
  induction records with
  | nil => simp [carriedFrames, groupsOpened]
  | cons p records induction =>
    have head := notData p (by simp)
    obtain ⟨frames, opened⟩ :=
      induction fun q member => notData q (by simp [member])
    unfold carriedFrames at frames ⊢
    unfold groupsOpened at opened ⊢
    rw [map_cons]
    exact ⟨by simp [head, frames], by rw [countP_cons, opened]; simp [opensGroup, head]⟩

/-- A non-empty lane buffers exactly the frames of its open group. -/
structure EncoderGroup.Carries (lane : EncoderGroup) (spec : GroupSpec) : Prop where
  isOpen : spec.closed = false
  epoch : lane.epoch = spec.epoch
  parity : lane.parity = spec.parity
  data : lane.data.map Shard.bytes = spec.shards

theorem EncoderGroup.Carries.len (carries : lane.Carries spec) : lane.len = spec.k := by
  have length := congrArg List.length carries.data
  simpa [EncoderGroup.data, lane.inCapacity, GroupSpec.shards, GroupSpec.k] using length

structure LanesInv (codec : Codec) (lanes : List EncoderGroup)
    (sent : List Datagram) (history : List GroupSpec) : Prop where
  records : ∀ {id : Nat} {spec}, history[id]? = some spec →
    recordsOf id sent = spec.records codec id
  later : ∀ {id}, history.length ≤ id → recordsOf id sent = []
  wellFormed : ∀ {spec}, spec ∈ history → spec.WellFormed
  carried : ∀ {j : Nat} {lane}, lanes[j]? = some lane → lane.len ≠ 0 →
    ∃ spec, history[lane.groupID]? = some spec ∧ lane.Carries spec
  distinct : ∀ {i j : Nat} {left right}, lanes[i]? = some left →
    lanes[j]? = some right → i ≠ j → left.len ≠ 0 → right.len ≠ 0 →
    left.groupID ≠ right.groupID

/-- One lane and its group change together: everything about the other
groups is kept. -/
theorem LanesInv.update {extra : List Datagram} {next : List GroupSpec} {j : Nat}
    (inv : LanesInv codec lanes sent history) (id : Nat) (spec : GroupSpec) (records : List Packet)
    (others : ∀ {other : Nat}, other ≠ id → next[other]? = history[other]?)
    (found : next[id]? = some spec) (emitted : extra = records.map .record)
    (ofGroup : ∀ p ∈ records, p.groupID = id)
    (complete : recordsOf id sent ++ records = spec.records codec id) (wellFormed : spec.WellFormed)
    (carries : lane.len ≠ 0 → lane.groupID = id ∧ lane.Carries spec)
    (apart : ∀ {i : Nat} {other}, lanes[i]? = some other → i ≠ j → other.len ≠ 0 →
      other.groupID ≠ id) :
    LanesInv codec (lanes.set j lane) (sent ++ extra) next := by
  subst emitted
  have laneAt : ∀ {i : Nat} {other}, (lanes.set j lane)[i]? = some other →
      (i = j ∧ other = lane) ∨ (i ≠ j ∧ lanes[i]? = some other) := by
    intro i other at_i
    by_cases same : i = j
    · subst same
      rw [getElem?_set] at at_i
      simp only [if_true] at at_i
      split at at_i
      · exact .inl ⟨rfl, (Option.some.inj at_i).symm⟩
      · simp at at_i
    · rw [getElem?_set_ne (Ne.symm same)] at at_i
      exact .inr ⟨same, at_i⟩
  constructor
  · intro other spec' at_other
    rw [recordsOf_append, recordsOf_map_record ofGroup]
    by_cases same : other = id
    · subst same
      rw [found] at at_other
      rw [if_pos rfl, complete, Option.some.inj at_other]
    · rw [if_neg same, append_nil]
      exact inv.records (others same ▸ at_other)
  · intro other bound
    have different : other ≠ id := by
      intro same
      have inside := (List.getElem?_eq_some_iff.mp found).1
      omega
    rw [recordsOf_append, recordsOf_map_record ofGroup, if_neg different, append_nil]
    apply inv.later
    have absent := getElem?_eq_none_iff.mpr bound
    rw [others different] at absent
    exact getElem?_eq_none_iff.mp absent
  · intro spec' member
    obtain ⟨other, bound, rfl⟩ := getElem_of_mem member
    by_cases same : other = id
    · subst same
      rw [getElem?_eq_getElem bound] at found
      exact Option.some.inj found ▸ wellFormed
    · have kept := others same
      rw [getElem?_eq_getElem bound] at kept
      exact inv.wellFormed (mem_of_getElem? kept.symm)
  · intro i other at_i nonempty
    rcases laneAt at_i with ⟨rfl, rfl⟩ | ⟨different, kept⟩
    · obtain ⟨group, carried⟩ := carries nonempty
      exact ⟨spec, group ▸ found, carried⟩
    · obtain ⟨otherSpec, otherFound, carried⟩ := inv.carried kept nonempty
      refine ⟨otherSpec, ?_, carried⟩
      rw [others (apart kept different nonempty)]
      exact otherFound
  · intro i l left right at_i at_l different leftNonempty rightNonempty
    rcases laneAt at_i with ⟨rfl, rfl⟩ | ⟨iKept, keptLeft⟩
    · rcases laneAt at_l with ⟨rfl, rfl⟩ | ⟨lKept, keptRight⟩
      · exact (different rfl).elim
      · rw [(carries leftNonempty).1]
        exact (apart keptRight lKept rightNonempty).symm
    · rcases laneAt at_l with ⟨rfl, rfl⟩ | ⟨lKept, keptRight⟩
      · rw [(carries rightNonempty).1]
        exact apart keptLeft iKept leftNonempty
      · exact inv.distinct keptLeft keptRight different leftNonempty rightNonempty

theorem EncoderGroup.padded_data (lane : EncoderGroup) (shardSize : Nat)
    (fits : ∀ shard ∈ lane.data.map Shard.bytes, shard.length ≤ shardSize) :
    (lane.padded shardSize).data.map Shard.bytes =
      (lane.data.map Shard.bytes).map (padShard · shardSize) := by
  have taken : (lane.padded shardSize).data = lane.data.map (Shard.pad · shardSize) := by
    simp only [EncoderGroup.padded, EncoderGroup.data]
    rw [take_append_of_le_length (by simp [lane.inCapacity])]
    simp
  rw [taken, map_map, map_map]
  apply map_congr_left
  intro shard member
  have bound := fits shard.bytes (mem_map_of_mem member)
  rw [Shard.bytes_length] at bound
  exact Shard.pad_bytes bound

theorem flushGroup_carries (mds : codec.Mds) (carries : lane.Carries spec)
    (wellFormed : spec.WellFormed) :
    ∃ flushed, flushGroup codec lane =
        (.ok ((spec.tailRecords codec lane.groupID).map .record), flushed) ∧
      flushed.len = 0 := by
  obtain ⟨encoded, _, _⟩ := GroupSpec.encode_padded mds wellFormed
  have len := carries.len
  have nonempty : lane.len ≠ 0 := by
    have positive := wellFormed.nonempty
    omega
  have parity : parityCount lane.parity lane.len = spec.r := by
    rw [carries.parity, len]
    rfl
  have padded : ((lane.padded (shardSizeOf (lane.data.map Shard.bytes))).data.map
      Shard.bytes) = spec.padded := by
    rw [EncoderGroup.padded_data lane _ (fun _ member => le_shardSizeOf member), carries.data]
    rfl
  refine ⟨(lane.padded (shardSizeOf (lane.data.map Shard.bytes))).reset, ?_, rfl⟩
  have positive := GroupSpec.r_pos wellFormed
  rw [flushGroup, if_neg nonempty]
  simp only [parity, padded]
  have block := GroupSpec.block wellFormed
  have constructed : codec.new spec.k spec.r = none :=
    mds.constructs block.dataPositive block.parityPositive block.total
  rw [if_neg (by omega), len, constructed]
  simp only [encoded]
  simp only [EncoderGroup.parityRecords, EncoderGroup.closeRecord, len, carries.epoch]
  rfl

structure LanesClosed (lanes : List EncoderGroup) (out : List Datagram) : Prop where
  ofLane : ∀ datagram ∈ out, ∃ p lane, datagram = .record p ∧ lane ∈ lanes ∧
    lane.len ≠ 0 ∧ p.groupID = lane.groupID ∧ p.epoch = lane.epoch
  closed : ∀ lane ∈ lanes, lane.len ≠ 0 → ClosedIn out lane.groupID

theorem LanesClosed.nil (empty : ∀ lane ∈ lanes, lane.len = 0) : LanesClosed lanes [] :=
  ⟨by simp, fun lane member isOpen => (isOpen (empty lane member)).elim⟩

theorem LanesClosed.cons {out rest : List Datagram} (head : LanesClosed [lane] out)
    (tail : LanesClosed lanes rest) : LanesClosed (lane :: lanes) (out ++ rest) := by
  constructor
  · intro datagram member
    rcases mem_append.mp member with member | member
    · obtain ⟨p, other, same, inHead, ofLane⟩ := head.ofLane datagram member
      exact ⟨p, other, same, mem_cons.mpr (.inl (mem_singleton.mp inHead)), ofLane⟩
    · obtain ⟨p, other, same, inTail, ofLane⟩ := tail.ofLane datagram member
      exact ⟨p, other, same, mem_cons_of_mem _ inTail, ofLane⟩
  · intro other member isOpen
    rcases mem_cons.mp member with rfl | member
    · exact (head.closed other mem_cons_self isOpen).append_left _
    · exact (tail.closed other member isOpen).append_right _

theorem EncoderGroup.Carries.closed (carries : lane.Carries spec) (isOpen : lane.len ≠ 0) :
    LanesClosed [lane] ((spec.tailRecords codec lane.groupID).map .record) := by
  constructor
  · intro datagram member
    obtain ⟨p, inTail, rfl⟩ := mem_map.mp member
    refine ⟨p, lane, rfl, mem_cons_self, isOpen, GroupSpec.groupID_of_mem_tailRecords inTail, ?_⟩
    rw [carries.epoch]
    rcases mem_append.mp inTail with inParity | isClose
    · obtain ⟨j, _, rfl⟩ := mem_mapIdx.mp inParity
      rfl
    · rw [mem_singleton.mp isClose]
      rfl
  · intro other member _
    rw [mem_singleton.mp member]
    exact ⟨spec.closeRecord lane.groupID,
      mem_map_of_mem (mem_append_right _ mem_cons_self), rfl, rfl⟩

theorem LanesInv.flush (mds : codec.Mds) {j : Nat} (inv : LanesInv codec lanes sent history)
    (at_j : lanes[j]? = some lane) :
    ∃ out flushed next, flushGroup codec lane = (.ok out, flushed) ∧
      flushed.len = 0 ∧ carriedFrames out = [] ∧ groupsOpened out = 0 ∧
      LanesClosed [lane] out ∧ next.length = history.length ∧
      LanesInv codec (lanes.set j flushed) (sent ++ out) next := by
  by_cases empty : lane.len = 0
  · refine ⟨[], lane, history, by simp [flushGroup, empty], empty, rfl, rfl,
      .nil (by simpa using empty), rfl, ?_⟩
    have same : lanes.set j lane = lanes := by
      obtain ⟨bound, rfl⟩ := List.getElem?_eq_some_iff.mp at_j
      exact set_getElem_self bound
    simpa [same] using inv
  · obtain ⟨spec, found, carries⟩ := inv.carried at_j empty
    have wellFormed := inv.wellFormed (mem_of_getElem? found)
    obtain ⟨flushed, run, flushedEmpty⟩ := flushGroup_carries mds carries wellFormed
    obtain ⟨frames, opened⟩ := notData_carries_nothing
      fun p (member : p ∈ spec.tailRecords codec lane.groupID) =>
        tailRecords_notData member
    have bound := (List.getElem?_eq_some_iff.mp found).1
    refine ⟨_, flushed, history.set lane.groupID { spec with closed := true },
      run, flushedEmpty, frames, opened, carries.closed empty, by simp, ?_⟩
    apply inv.update lane.groupID { spec with closed := true } (spec.tailRecords codec lane.groupID)
    · intro other different
      exact getElem?_set_ne (Ne.symm different)
    · exact getElem?_set_self bound
    · rfl
    · exact fun p member => GroupSpec.groupID_of_mem_tailRecords member
    · rw [inv.records found]
      simp only [GroupSpec.records, carries.isOpen, if_true,
        Bool.false_eq_true, if_false, append_nil]
      rfl
    · exact ⟨wellFormed.nonempty, wellFormed.small, wellFormed.parityPositive,
        wellFormed.epoch, wellFormed.frames⟩
    · intro nonempty
      exact (nonempty flushedEmpty).elim
    · intro i other at_i different nonempty
      exact inv.distinct at_i at_j different nonempty empty

theorem LanesInv.flushGroups (mds : codec.Mds) (done : List EncoderGroup)
    (inv : LanesInv codec (done ++ lanes) sent history) :
    ∃ out flushed next, flushGroups codec lanes = (.ok out, flushed) ∧
      (∀ lane ∈ flushed, lane.len = 0) ∧ flushed.length = lanes.length ∧
      carriedFrames out = [] ∧ groupsOpened out = 0 ∧
      LanesClosed lanes out ∧ next.length = history.length ∧
      LanesInv codec (done ++ flushed) (sent ++ out) next := by
  induction lanes generalizing done sent history with
  | nil =>
    exact ⟨[], [], history, rfl, by simp, rfl, rfl, rfl, .nil (by simp), rfl, by simpa using inv⟩
  | cons lane lanes induction =>
    have at_head : (done ++ lane :: lanes)[done.length]? = some lane := by
      simp
    obtain ⟨out, flushed, next, run, empty, frames, opened, closed, length, after⟩ :=
      inv.flush mds at_head
    have replaced : (done ++ lane :: lanes).set done.length flushed =
        (done ++ [flushed]) ++ lanes := by
      simp
    rw [replaced] at after
    obtain ⟨rest, restFlushed, restNext, restRun, restEmpty, restLength,
      restFrames, restOpened, restClosed, nextLength, restAfter⟩ := induction _ after
    refine ⟨out ++ rest, flushed :: restFlushed, restNext, ?_, ?_, ?_, ?_, ?_,
      closed.cons restClosed, nextLength.trans length, ?_⟩
    · simp [WgQuic.Fec.flushGroups, run, restRun]
    · intro other member
      rcases mem_cons.mp member with rfl | later
      · exact empty
      · exact restEmpty other later
    · simp [restLength]
    · simp [frames, restFrames]
    · simp [opened, restOpened]
    · simpa [append_assoc] using restAfter

end WgQuic.Fec
