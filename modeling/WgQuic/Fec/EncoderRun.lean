import WgQuic.Fec.EncoderTurns

/-!
# Runs of the encoder

Every call keeps `Tracked`, as long as the group counter has not wrapped.
The result for a whole run is `encoderRun_history`: a call fails only when it
is refused, the output carries the accepted frames in order, and it splits
into the records of a history of well-formed groups.
-/

namespace WgQuic.Fec

open List GroupSpec EncoderGroup

structure EncoderInv (codec : Codec) (e : Encoder) (sent : List Datagram)
    (history : List GroupSpec) : Prop where
  lanes : LanesInv codec e.groups sent history
  room : ∀ lane ∈ e.groups, lane.len < e.maxData
  nextID : e.nextGroupID = history.length % 2 ^ 64
  opened : groupsOpened sent = history.length
  maxData : 0 < e.maxData ∧ e.maxData ≤ maxDataShards
  laneCount : e.groups.length = e.interleave
  current : e.current < e.interleave
  minInterleave : 0 < e.minInterleave ∧ e.minInterleave ≤ maxInterleave
  epoch : 0 < e.epoch ∧ e.epoch < 2 ^ 16

/-- The settings of an encoder that the calls can produce. -/
structure Encoder.Configured (e : Encoder) : Prop where
  maxData : 0 < e.maxData ∧ e.maxData ≤ maxDataShards
  laneCount : e.groups.length = e.interleave
  few : e.interleave ≤ maxInterleave
  current : e.current < e.interleave
  minInterleave : 0 < e.minInterleave ∧ e.minInterleave ≤ maxInterleave
  epoch : 0 < e.epoch ∧ e.epoch < 2 ^ 16

structure Tracked (codec : Codec) (e : Encoder) (sent : List Datagram)
    (history : List GroupSpec) : Prop where
  inv : EncoderInv codec e sent history
  ordered : Ordered e sent

variable {codec : Codec} {history : List GroupSpec} {sent : List Datagram}

theorem LanesInv.empty {lanes fresh : List EncoderGroup}
    (inv : LanesInv codec lanes sent history) (isEmpty : ∀ lane ∈ fresh, lane.len = 0) :
    LanesInv codec fresh sent history where
  records := inv.records
  later := inv.later
  wellFormed := inv.wellFormed
  carried := by
    intro j lane at_j nonempty
    exact (nonempty (isEmpty lane (mem_of_getElem? at_j))).elim
  distinct := by
    intro i j left right at_i _ _ nonempty
    exact (nonempty (isEmpty left (mem_of_getElem? at_i))).elim

section Tracked

variable {e next : Encoder} {lane : EncoderGroup} {id : Nat}

theorem EncoderInv.groupID_lt (inv : EncoderInv codec e sent history) {p : Packet}
    (member : .record p ∈ sent) : p.groupID < groupsOpened sent := by
  by_contra beyond
  have later : history.length ≤ p.groupID := by
    rw [← inv.opened]
    omega
  have nothing := inv.lanes.later later
  have listed : p ∈ recordsOf p.groupID sent := mem_filterMap.mpr ⟨.record p, member, by simp⟩
  rw [nothing] at listed
  cases listed

theorem EncoderInv.lane_groupID_lt (inv : EncoderInv codec e sent history)
    (member : lane ∈ e.groups)
    (isOpen : lane.len ≠ 0) : lane.groupID < groupsOpened sent := by
  obtain ⟨j, at_j⟩ := getElem?_of_mem member
  obtain ⟨spec, found, _⟩ := inv.lanes.carried at_j isOpen
  rw [inv.opened]
  exact (List.getElem?_eq_some_iff.mp found).1

theorem Tracked.configured (tracked : Tracked codec e sent history) : e.Configured :=
  { tracked.inv with few := tracked.inv.laneCount ▸ tracked.ordered.few }

theorem Encoder.Configured.groups_ne_nil (configured : e.Configured) : e.groups ≠ [] := by
  have current := configured.current
  rw [← configured.laneCount] at current
  exact ne_nil_of_length_pos (Nat.zero_lt_of_lt current)

theorem Tracked.note (tracked : Tracked codec e sent history) (lastParity : Int)
    (unprotected : Nat) : Tracked codec { e with lastParity, unprotected } sent history :=
  ⟨{ tracked.inv with }, { tracked.ordered with }⟩

theorem Tracked.start (empty : ∀ lane ∈ e.groups, lane.len = 0) (none : e.nextGroupID = 0)
    (configured : e.Configured) : Tracked codec e [] [] where
  inv := { configured with
    lanes :=
      (⟨by simp, fun _ => rfl, by simp, by simp, by simp⟩ : LanesInv codec [] [] []).empty empty
    room := fun lane member => empty lane member ▸ configured.maxData.1
    nextID := none
    opened := rfl }
  ordered := {
    windowed := fun before p after split => by simp at split
    ids := rfl
    rotation := .of_empty configured.groups_ne_nil configured.maxData.1 empty
    accounted := fun id below => (Nat.not_lt_zero id below).elim
    epochs := by simp
    laneEpochs := fun lane member isOpen => (isOpen (empty lane member)).elim
    few := configured.laneCount ▸ configured.few
    nonzero := by simp }

theorem Tracked.forward (tracked : Tracked codec e sent history) (frame : Bytes) :
    Tracked codec e (sent ++ [.raw frame]) history := by
  obtain ⟨inv, ordered⟩ := tracked
  have opened : groupsOpened (sent ++ [Datagram.raw frame]) = groupsOpened sent := by
    rw [groupsOpened_append]
    rfl
  have same : ∀ id, recordsOf id (sent ++ [Datagram.raw frame]) = recordsOf id sent := by
    intro id
    simp [recordsOf]
  have noRecord : ∀ p, Datagram.record p ∈ sent ++ [Datagram.raw frame] → .record p ∈ sent := by
    intro p member
    simpa using member
  constructor
  · exact { inv with
      lanes := { inv.lanes with
        records := fun found => (same _).trans (inv.lanes.records found)
        later := fun bound => (same _).trans (inv.lanes.later bound) }
      opened := opened.trans inv.opened }
  · refine ⟨?_, ?_, opened ▸ ordered.rotation, ?_, ?_, ordered.laneEpochs,
      ordered.few, fun p member => ordered.nonzero p (noRecord p member)⟩
    · apply ordered.windowed.append <;> simp
    · rw [opened, ← ordered.ids]
      simp [openedIDs]
    · intro id below
      rw [opened] at below
      exact (ordered.accounted id below).imp_right fun closed =>
        closed.append_left _
    · intro p member
      exact (ordered.epochs p (noRecord p member)).imp_right fun closed =>
        closed.append_left _

/-- A fresh set of lanes, or new settings, over a closed stream. -/
theorem Tracked.renew (tracked : Tracked codec e sent history)
    (closed : ∀ lane ∈ e.groups, lane.len = 0) (empty : ∀ lane ∈ next.groups, lane.len = 0)
    (nextGroupID : next.nextGroupID = e.nextGroupID) (configured : next.Configured) :
    Tracked codec next sent history := by
  have allClosed : ∀ id < groupsOpened sent, ClosedIn sent id := by
    intro id below
    rcases tracked.ordered.accounted id below with ⟨lane, member, isOpen, _⟩ | closedIn
    · exact (isOpen (closed lane member)).elim
    · exact closedIn
  exact {
    inv := { configured with
      lanes := tracked.inv.lanes.empty empty
      room := fun lane member => empty lane member ▸ configured.maxData.1
      nextID := nextGroupID ▸ tracked.inv.nextID
      opened := tracked.inv.opened }
    ordered := {
      windowed := tracked.ordered.windowed
      ids := tracked.ordered.ids
      rotation := .of_empty configured.groups_ne_nil configured.maxData.1 empty
      accounted := fun id below => .inr (allClosed id below)
      epochs := fun p member => .inr (allClosed _ (tracked.inv.groupID_lt member))
      laneEpochs := fun lane member isOpen => (isOpen (empty lane member)).elim
      few := configured.laneCount ▸ configured.few
      nonzero := tracked.ordered.nonzero } }

end Tracked

/-- A call that closes groups at most. -/
def ClosesOnly (codec : Codec) (sent : List Datagram) (history : List GroupSpec)
    (result : Except String (List Datagram) × Encoder) : Prop :=
  ∃ out next after, result = (.ok out, next) ∧ carriedFrames out = [] ∧ groupsOpened out = 0 ∧
    Tracked codec next (sent ++ out) after ∧ after.length = history.length

/-- A call that sends the frames, as long as the group counter does not wrap. -/
def SendsFrames (codec : Codec) (sent : List Datagram) (frames : List Bytes)
    (result : Except String (List Datagram) × Encoder) : Prop :=
  ∃ out next, result = (.ok out, next) ∧ carriedFrames out = frames ∧
    (groupsOpened (sent ++ out) ≤ 2 ^ 64 → ∃ after, Tracked codec next (sent ++ out) after)

namespace Encoder

variable {codec : Codec} {e : Encoder} {sent : List Datagram} {history : List GroupSpec}

section

variable (mds : codec.Mds) (tracked : Tracked codec e sent history)

include mds tracked

theorem flushAll_tracked :
    ∃ out next after, e.flushAll codec = (.ok out, next) ∧ carriedFrames out = [] ∧
      groupsOpened out = 0 ∧ Tracked codec next (sent ++ out) after ∧
      after.length = history.length ∧ (∀ lane ∈ next.groups, lane.len = 0) ∧
      next = { e with groups := next.groups } := by
  obtain ⟨inv, ordered⟩ := tracked
  obtain ⟨out, flushed, after, run, empty, length, frames, opened, lanesClosed, afterLength,
    lanes⟩ := LanesInv.flushGroups mds [] (by simpa using inv.lanes)
  have epochOut : ∀ p, .record p ∈ out → p.epoch = e.epoch := by
    intro p member
    obtain ⟨q, lane, same, inLanes, isOpen, _, epoch⟩ := lanesClosed.ofLane _ member
    cases same
    exact epoch.trans (ordered.laneEpochs lane inLanes isOpen)
  have groupOut : ∀ p, .record p ∈ out →
      p.groupID < groupsOpened sent ∧ ClosedIn out p.groupID := by
    intro p member
    obtain ⟨q, lane, same, inLanes, isOpen, group, _⟩ := lanesClosed.ofLane _ member
    cases same
    rw [group]
    exact ⟨inv.lane_groupID_lt inLanes isOpen, lanesClosed.closed lane inLanes isOpen⟩
  have allClosed : ∀ id < groupsOpened sent, ClosedIn (sent ++ out) id := by
    intro id below
    rcases ordered.accounted id below with
      ⟨lane, member, isOpen, rfl⟩ | closed
    · exact (lanesClosed.closed lane member isOpen).append_right sent
    · exact closed.append_left out
  have total : groupsOpened (sent ++ out) = groupsOpened sent := by
    rw [groupsOpened_append, opened, Nat.add_zero]
  refine ⟨out, { e with groups := flushed }, after, by simp [flushAll, run], frames, opened,
    ⟨?_, ?_⟩, afterLength, empty, rfl⟩
  · exact { inv with
      lanes := by simpa using lanes
      room := fun lane member => empty lane member ▸ inv.maxData.1
      nextID := afterLength ▸ inv.nextID
      opened := by rw [total, afterLength, inv.opened]
      laneCount := length.trans inv.laneCount }
  · refine ⟨?_, ?_, ?_, ?_, ?_, ?_, ?_, ?_⟩
    · apply ordered.windowed.append
      · intro p member id old
        have bound := (groupOut p member).1
        exact ordered.old_closed (by omega)
      · intro p member q inSent different
        rcases ordered.epochs q inSent with same | closed
        · exact (different (same.trans (epochOut p member).symm)).elim
        · exact closed
      · intro p member q other
        rw [epochOut p member, epochOut q other]
    · rw [total, openedIDs_append, openedIDs_eq_nil opened, append_nil]
      exact ordered.ids
    · refine .of_empty ?_ inv.maxData.1 empty
      have some := (Tracked.configured ⟨inv, ordered⟩).groups_ne_nil
      exact ne_nil_of_length_pos (length ▸ length_pos_of_ne_nil some)
    · intro id below
      exact .inr (allClosed id (total ▸ below))
    · intro p member
      rcases mem_append.mp member with member | member
      · exact .inr (allClosed p.groupID (inv.groupID_lt member))
      · exact .inl (epochOut p member)
    · exact fun lane member isOpen => (isOpen (empty lane member)).elim
    · exact length ▸ ordered.few
    · intro p member
      rcases mem_append.mp member with member | member
      · exact ordered.nonzero p member
      · rw [epochOut p member]
        exact Nat.ne_of_gt inv.epoch.1

/-- A call that closes all lanes and goes on with an encoder without open ones. -/
theorem renew_tracked (renewed : Encoder → Encoder)
    (empty : ∀ e, (∀ lane ∈ e.groups, lane.len = 0) → ∀ lane ∈ (renewed e).groups, lane.len = 0)
    (nextGroupID : ∀ e, (renewed e).nextGroupID = e.nextGroupID)
    (configured : ∀ e, e.Configured → (renewed e).Configured) :
    ∃ out next after, e.flushAll codec = (.ok out, next) ∧ carriedFrames out = [] ∧
      groupsOpened out = 0 ∧ Tracked codec (renewed next) (sent ++ out) after ∧
      after.length = history.length := by
  obtain ⟨out, next, after, run, frames, opened, flushed, length, closed, _⟩ :=
    flushAll_tracked mds tracked
  exact ⟨out, next, after, run, frames, opened, flushed.renew closed (empty next closed)
    (nextGroupID next) (configured next flushed.configured), length⟩

theorem swapInterleave_tracked (n : Nat) :
    ClosesOnly codec sent history (e.swapInterleave codec n) := by
  by_cases same : min maxInterleave (max 1 n) = e.interleave
  · exact ⟨[], e, history, by simp [swapInterleave, same], rfl, rfl, by simpa using tracked, rfl⟩
  · obtain ⟨out, next, after, run, rest⟩ := renew_tracked mds tracked
      (fun e => initGroups { e with interleave := min maxInterleave (max 1 n) }
        (min maxInterleave (max 1 n)))
      (fun _ _ lane member => by rw [eq_of_mem_replicate member]) (fun _ => rfl)
      (fun e configured => { configured with
        laneCount := by simp [initGroups]
        few := Nat.min_le_left _ _
        current := by simp [initGroups, maxInterleave] })
    exact ⟨out, _, after, by simp only [swapInterleave, if_neg same, run], rest⟩

omit mds tracked in
theorem nextEpoch_bounds (epoch : Nat) : 0 < nextEpoch epoch ∧ nextEpoch epoch < 2 ^ 16 := by
  unfold nextEpoch
  simp only
  split <;> omega

theorem enterParity_tracked (targetParity : Nat) :
    ClosesOnly codec sent history (e.enterParity codec targetParity) := by
  by_cases moved : 0 ≤ e.lastParity ∧ (targetParity : Int) ≠ e.lastParity
  · obtain ⟨out, next, after, run, rest⟩ := renew_tracked mds tracked
      (fun e => { e with epoch := nextEpoch e.epoch })
      (fun _ empty => empty) (fun _ => rfl)
      (fun e configured => { configured with epoch := nextEpoch_bounds e.epoch })
    exact ⟨out, _, after, by rw [enterParity, if_pos moved, run], rest⟩
  · exact ⟨[], e, history, by rw [enterParity, if_neg moved], rfl, rfl, by simpa using tracked, rfl⟩

theorem reconfigure_tracked (controllerInterleave maxData interleave : Nat)
    (dataBound : 0 < maxData ∧ maxData ≤ maxDataShards)
    (interleaveBound : 0 < interleave ∧ interleave ≤ maxInterleave)
    (driven : controllerInterleave ≤ maxInterleave) :
    ClosesOnly codec sent history
      (e.reconfigure codec controllerInterleave maxData interleave) := by
  obtain ⟨out, next, after, run, rest⟩ := renew_tracked mds tracked (fun e => initGroups
      { e with maxData := maxData, minInterleave := interleave
               interleave := max interleave controllerInterleave }
      (max interleave controllerInterleave))
    (fun _ _ lane member => by rw [eq_of_mem_replicate member]) (fun _ => rfl)
    (fun e configured => { configured with
      maxData := dataBound
      minInterleave := interleaveBound
      laneCount := by simp [initGroups]
      few := Nat.max_le.mpr ⟨interleaveBound.2, driven⟩
      current := by simp only [initGroups]; omega })
  refine ⟨out, _, after, ?_, rest⟩
  rw [reconfigure, if_neg (by omega), if_neg (by omega), run]

end

end Encoder

/-! ## Adding a frame -/

def FrameFits (frame : Bytes) : Prop :=
  0 < frame.length ∧ frame.length ≤ maxFrameSize

theorem encodeDataShard_drop (frame : Bytes) : (encodeDataShard frame).drop 2 = frame := by
  simp [encodeDataShard, putUint16]

/-- A group that has just been opened by its first frame. -/
def GroupSpec.first (epoch parity : Nat) (frame : Bytes) : GroupSpec :=
  { epoch := epoch, parity := parity, frames := [frame], closed := false }

variable {lane : EncoderGroup} {spec : GroupSpec}

theorem EncoderGroup.Carries.push (carries : lane.Carries spec) (frame : Bytes) :
    (lane.push frame).Carries
      { spec with frames := spec.frames ++ [frame] } where
  isOpen := carries.isOpen
  epoch := by simpa using carries.epoch
  parity := by simpa using carries.parity
  data := by
    rw [EncoderGroup.push_data, carries.data]
    simp [shards]

theorem EncoderGroup.Carries.first (empty : lane.len = 0) (frame : Bytes) :
    (lane.push frame).Carries (GroupSpec.first lane.epoch lane.parity frame) := by
  have emptyCarries : lane.Carries
      { epoch := lane.epoch, parity := lane.parity, frames := []
        closed := false } :=
    ⟨rfl, rfl, rfl, by simp [EncoderGroup.data, empty, shards]⟩
  exact emptyCarries.push frame

theorem GroupSpec.WellFormed.first {epoch parity : Nat} {frame : Bytes}
    (epochBound : epoch < 2 ^ 16) (positive : 0 < parity) (fits : FrameFits frame) :
    (GroupSpec.first epoch parity frame).WellFormed :=
  ⟨by simp [k, GroupSpec.first], by simp [k, GroupSpec.first, maxDataShards], positive,
    epochBound, by simpa [FrameFits, GroupSpec.first] using fits⟩

theorem GroupSpec.WellFormed.push (wellFormed : spec.WellFormed) {frame : Bytes}
    (fits : FrameFits frame) (room : spec.k < maxDataShards) :
    ({ spec with frames := spec.frames ++ [frame] } : GroupSpec).WellFormed where
  nonempty := by simp [k]
  small := by
    simp only [k, length_append, length_singleton] at room ⊢
    omega
  parityPositive := wellFormed.parityPositive
  epoch := wellFormed.epoch
  frames := by
    intro other member
    rcases mem_append.mp member with inGroup | isFrame
    · exact wellFormed.frames other inGroup
    · rw [mem_singleton.mp isFrame]
      exact fits

theorem carriedFrames_dataRecord (group : EncoderGroup) (frame : Bytes) :
    carriedFrames [Encoder.dataRecord group frame] = [frame] := by
  simp [carriedFrames, Encoder.dataRecord, encodeDataShard_drop]

theorem groupsOpened_dataRecord (group : EncoderGroup) (frame : Bytes) :
    groupsOpened [Encoder.dataRecord group frame] = if group.len = 0 then 1 else 0 := by
  by_cases empty : group.len = 0 <;> simp [groupsOpened, opensGroup, Encoder.dataRecord, empty]

namespace Encoder

variable {codec : Codec} {e next : Encoder} {sent out : List Datagram}
  {history after : List GroupSpec} {frame : Bytes}

theorem fillLane_fills (mds : codec.Mds) {group : EncoderGroup} (before : List Datagram)
    (after : List GroupSpec) (carries : (group.push frame).Carries spec)
    (wellFormed : spec.WellFormed) (room : group.len < e.maxData)
    (inside : e.current < e.groups.length) :
    ∃ tail new, e.fillLane codec group frame = (.ok (dataRecord group frame :: tail),
        { e with groups := e.groups.set e.current new
                 current := (e.current + 1) % e.interleave }) ∧
      new.len = (group.len + 1) % e.maxData ∧ carriedFrames tail = [] ∧ groupsOpened tail = 0 ∧
      (new.len ≠ 0 → tail = [] ∧ new = group.push frame) ∧
      (new.len = 0 → LanesClosed [group.push frame] tail) ∧
      (LanesInv codec (e.groups.set e.current (group.push frame)) before after →
        ∃ next, next.length = after.length ∧
          LanesInv codec (e.groups.set e.current new) (before ++ tail) next) := by
  have pushed := push_len group frame
  by_cases full : (group.push frame).len = e.maxData
  · obtain ⟨flushed, run, flushedEmpty⟩ := flushGroup_carries mds carries wellFormed
    obtain ⟨tailFrames, tailOpened⟩ := notData_carries_nothing
      fun p (member : p ∈ spec.tailRecords codec (group.push frame).groupID) =>
        tailRecords_notData member
    refine ⟨_, flushed, by rw [fillLane, if_pos full, run], ?_, tailFrames, tailOpened,
      fun isOpen => (isOpen flushedEmpty).elim, fun _ => carries.closed (by omega), ?_⟩
    · rw [flushedEmpty, ← full, pushed, Nat.mod_self]
    · intro lanes
      obtain ⟨out, flushed', next, run', _, _, _, _, length, lanesNext⟩ :=
        lanes.flush mds (getElem?_set_self inside)
      rw [run] at run'
      cases run'
      rw [set_set] at lanesNext
      exact ⟨next, length, lanesNext⟩
  · have less : group.len + 1 < e.maxData := by omega
    refine ⟨[], group.push frame, by rw [fillLane, if_neg full], ?_, rfl, rfl,
      fun _ => ⟨rfl, rfl⟩, fun empty => ?_, fun lanes => ⟨after, rfl, by simpa using lanes⟩⟩
    · rw [pushed, Nat.mod_eq_of_lt less]
    · omega

/-- The lane whose turn it is, opened: its group with the frame. -/
structure Opens (codec : Codec) (e : Encoder) (sent : List Datagram) (frame : Bytes)
    (lane group : EncoderGroup) (spec : GroupSpec) (after : List GroupSpec) : Prop where
  len : group.len = lane.len
  carries : (group.push frame).Carries spec
  wellFormed : spec.WellFormed
  opened : groupsOpened (sent ++ [dataRecord group frame]) = after.length
  fresh : lane.len = 0 → group.groupID = e.nextGroupID ∧ group.epoch = e.epoch
  joined : lane.len ≠ 0 → group = lane
  lanes : after.length ≤ 2 ^ 64 → LanesInv codec (e.groups.set e.current (group.push frame))
    (sent ++ [dataRecord group frame]) after

theorem openLane_opens (inv : EncoderInv codec e sent history) {groupParity : Nat}
    (fits : FrameFits frame) (positive : 0 < groupParity)
    (found : e.groups[e.current]? = some lane) :
    ∃ group spec after, e.openLane groupParity lane =
        (group, { e with nextGroupID := after.length % 2 ^ 64 }) ∧
      Opens codec e sent frame lane group spec after := by
  have laneRoom := inv.room lane (mem_of_getElem? found)
  by_cases empty : lane.len = 0
  · -- The lane opens group `history.length`.
    have spec_wellFormed : (GroupSpec.first e.epoch groupParity frame).WellFormed :=
      .first inv.epoch.2 positive fits
    let group : EncoderGroup :=
      { lane with
        groupID := e.nextGroupID, epoch := e.epoch, parity := groupParity }
    have groupEmpty : group.len = 0 := empty
    have carries : (group.push frame).Carries
        (GroupSpec.first e.epoch groupParity frame) := .first groupEmpty frame
    refine ⟨group, _, history ++ [GroupSpec.first e.epoch groupParity frame], ?_, rfl, carries,
      spec_wellFormed, ?_, fun _ => ⟨rfl, rfl⟩, fun isOpen => (isOpen empty).elim, ?_⟩
    · have next : (e.nextGroupID + 1) % 2 ^ 64 =
          (history ++ [GroupSpec.first e.epoch groupParity frame]).length % 2 ^ 64 := by
        rw [inv.nextID, Nat.mod_add_mod, length_append, length_singleton]
      rw [openLane, if_pos empty, next]
    · rw [groupsOpened_append, groupsOpened_dataRecord, inv.opened, if_pos groupEmpty]
      simp
    · intro bound
      rw [length_append, length_singleton] at bound
      have id : group.groupID = history.length := by
        change e.nextGroupID = history.length
        rw [inv.nextID]
        exact Nat.mod_eq_of_lt (by omega)
      apply inv.lanes.update history.length (GroupSpec.first e.epoch groupParity frame)
        [{ kind := .data, epoch := e.epoch, groupID := history.length
           index := 0, payload := encodeDataShard frame }]
      · intro other different
        by_cases below : other < history.length
        · exact getElem?_append_left below
        · rw [getElem?_eq_none (by simp; omega), getElem?_eq_none (by omega)]
      · simp
      · simp only [dataRecord, id, map_singleton]
        simp [group, empty]
      · simp
      · rw [inv.lanes.later (Nat.le_refl _)]
        simp [GroupSpec.records, dataRecords, GroupSpec.dataRecord, GroupSpec.first]
      · exact spec_wellFormed
      · intro _
        exact ⟨by rw [EncoderGroup.push_groupID, id], carries⟩
      · intro i other at_i _ nonempty
        obtain ⟨otherSpec, otherFound, _⟩ := inv.lanes.carried at_i nonempty
        have inside := (List.getElem?_eq_some_iff.mp otherFound).1
        omega
  · obtain ⟨spec, specFound, carries⟩ := inv.lanes.carried found empty
    have wellFormed := inv.lanes.wellFormed (mem_of_getElem? specFound)
    have inside := (List.getElem?_eq_some_iff.mp specFound).1
    have room : spec.k < maxDataShards := by
      rw [← carries.len]
      exact Nat.lt_of_lt_of_le laneRoom inv.maxData.2
    refine ⟨lane, _, history.set lane.groupID { spec with frames := spec.frames ++ [frame] }, ?_,
      rfl, carries.push frame, wellFormed.push fits room, ?_, fun closed => (empty closed).elim,
      fun _ => rfl, fun _ => ?_⟩
    · rw [openLane, if_neg empty, length_set, ← inv.nextID]
    · rw [groupsOpened_append, groupsOpened_dataRecord, if_neg empty, inv.opened]
      simp
    · apply inv.lanes.update lane.groupID
        { spec with frames := spec.frames ++ [frame] }
        [spec.dataRecord lane.groupID spec.k frame]
      · intro other different
        exact getElem?_set_ne (Ne.symm different)
      · exact getElem?_set_self inside
      · simp [dataRecord, GroupSpec.dataRecord, carries.epoch, carries.len]
      · simp [GroupSpec.dataRecord]
      · rw [inv.lanes.records specFound]
        simp only [GroupSpec.records, carries.isOpen, Bool.false_eq_true,
          if_false, append_nil, dataRecords, mapIdx_concat]
        rfl
      · exact wellFormed.push fits room
      · intro _
        exact ⟨EncoderGroup.push_groupID lane frame, carries.push frame⟩
      · intro i other at_i different nonempty
        exact inv.lanes.distinct at_i found different nonempty empty

/-- What `place` adds to the output and changes in the encoder: the records of
one group and the lane of that group. -/
structure Placed (e next : Encoder) (lane new : EncoderGroup) (id : Nat)
    (sent out : List Datagram) : Prop where
  current : e.groups[e.current]? = some lane
  groups : next.groups = e.groups.set e.current new
  turn : next.current = (e.current + 1) % e.groups.length
  maxData : next.maxData = e.maxData
  epoch : next.epoch = e.epoch
  len : new.len = (lane.len + 1) % e.maxData
  kept : new.len ≠ 0 → new.groupID = id ∧ new.epoch = e.epoch
  closed : new.len = 0 → ClosedIn out id
  records : ∀ p, .record p ∈ out → p.groupID = id ∧ p.epoch = e.epoch
  fresh : lane.len = 0 → id = groupsOpened sent ∧ openedIDs out = [id]
  joined : lane.len ≠ 0 → id = lane.groupID ∧ openedIDs out = []

theorem Placed.ordered {new : EncoderGroup} {id : Nat} (placed : Placed e next lane new id sent out)
    (inv : EncoderInv codec e sent history) (ordered : Ordered e sent) :
    Ordered next (sent ++ out) := by
  have member := mem_of_getElem? placed.current
  have bound := (List.getElem?_eq_some_iff.mp placed.current).1
  obtain ⟨rest, rotated, turned⟩ := Ring.rotate_set placed.current new
  have rotation := ordered.rotation
  rw [rotated] at rotation
  have restLength : rest.length + 1 = e.groups.length := by
    have length := congrArg List.length rotated
    rw [length_rotate] at length
    exact length.symm
  have few := ordered.few
  -- the groups that are too old for the group of this frame
  have older : ∀ old, old + maxInterleave ≤ id → ClosedIn sent old := by
    intro old far
    by_cases empty : lane.len = 0
    · rw [(placed.fresh empty).1] at far
      rcases ordered.accounted old (by omega) with
        ⟨other, inLanes, isOpen, rfl⟩ | closed
      · have inRotated : other ∈ lane :: rest := rotated ▸ mem_rotate.mpr inLanes
        rcases mem_cons.mp inRotated with rfl | inRest
        · exact (isOpen empty).elim
        · have recent := rotation.recent_of_empty empty inRest isOpen
          omega
      · exact closed
    · have below := inv.lane_groupID_lt member empty
      rw [(placed.joined empty).1] at far
      exact ordered.old_closed (by omega)
  have openedOut : groupsOpened out = (openedIDs out).length := (length_openedIDs out).symm
  constructor
  · apply ordered.windowed.append
    · intro p inOut old far
      exact older old ((placed.records p inOut).1 ▸ far)
    · intro p inOut q inSent different
      rw [(placed.records p inOut).2] at different
      exact (ordered.epochs q inSent).resolve_left different
    · intro p inOut q other
      rw [(placed.records p inOut).2, (placed.records q other).2]
  · rw [openedIDs_append, groupsOpened_append, openedOut, ordered.ids]
    by_cases empty : lane.len = 0
    · obtain ⟨rfl, ids⟩ := placed.fresh empty
      rw [ids, length_singleton, range_succ]
    · rw [(placed.joined empty).2]
      simp
  · rw [placed.groups, placed.turn, turned, placed.maxData]
    apply rotation.turn placed.len
    · intro empty
      obtain ⟨rfl, ids⟩ := placed.fresh empty
      rw [groupsOpened_append, openedOut, ids]
      exact ⟨rfl, fun isOpen => (placed.kept isOpen).1⟩
    · intro isOpen
      obtain ⟨rfl, ids⟩ := placed.joined isOpen
      rw [groupsOpened_append, openedOut, ids]
      exact ⟨rfl, fun newOpen => (placed.kept newOpen).1⟩
  · intro other below
    by_cases same : other = id
    · subst same
      by_cases empty : new.len = 0
      · exact .inr ((placed.closed empty).append_right sent)
      · refine .inl ⟨new, ?_, empty, (placed.kept empty).1⟩
        rw [placed.groups]
        exact mem_set bound new
    · have below' : other < groupsOpened sent := by
        rw [groupsOpened_append, openedOut] at below
        by_cases empty : lane.len = 0
        · obtain ⟨rfl, ids⟩ := placed.fresh empty
          rw [ids, length_singleton] at below
          omega
        · rw [(placed.joined empty).2] at below
          exact below
      rcases ordered.accounted other below' with
        ⟨kept, inLanes, isOpen, rfl⟩ | closed
      · refine .inl ⟨kept, ?_, isOpen, rfl⟩
        obtain ⟨j, at_j⟩ := getElem?_of_mem inLanes
        have elsewhere : e.current ≠ j := by
          rintro rfl
          rw [placed.current] at at_j
          cases at_j
          exact same (placed.joined isOpen).1.symm
        rw [placed.groups]
        refine mem_of_getElem? (i := j) ?_
        rw [getElem?_set_ne elsewhere]
        exact at_j
      · exact .inr (closed.append_left out)
  · intro p inAll
    rw [placed.epoch]
    rcases mem_append.mp inAll with inSent | inOut
    · rcases ordered.epochs p inSent with current | closed
      · exact .inl current
      · exact .inr (closed.append_left out)
    · exact .inl (placed.records p inOut).2
  · intro other inLanes isOpen
    rw [placed.groups] at inLanes
    rw [placed.epoch]
    rcases mem_or_eq_of_mem_set inLanes with kept | rfl
    · exact ordered.laneEpochs other kept isOpen
    · exact (placed.kept isOpen).2
  · rw [placed.groups, length_set]
    exact few
  · intro p inAll
    rcases mem_append.mp inAll with inSent | inOut
    · exact ordered.nonzero p inSent
    · rw [(placed.records p inOut).2]
      exact Nat.ne_of_gt inv.epoch.1

theorem place_tracked (mds : codec.Mds) (tracked : Tracked codec e sent history)
    {groupParity : Nat} (fits : FrameFits frame) (positive : 0 < groupParity) :
    SendsFrames codec sent [frame] (e.place codec groupParity frame) := by
  obtain ⟨inv, ordered⟩ := tracked
  have inRange : e.current < e.groups.length := by
    rw [inv.laneCount]
    exact inv.current
  have found : e.groups[e.current]? = some e.groups[e.current] := getElem?_eq_getElem inRange
  generalize e.groups[e.current] = lane at found
  have member := mem_of_getElem? found
  obtain ⟨group, spec, after, opening, opens⟩ := openLane_opens inv fits positive found
  obtain ⟨tail, new, run, newLen, tailFrames, tailOpened, keeps, closes, lanes⟩ :=
    fillLane_fills (e := { e with nextGroupID := after.length % 2 ^ 64 }) mds
      (sent ++ [dataRecord group frame]) after opens.carries opens.wellFormed
      (by rw [opens.len]; exact inv.room lane member) inRange
  have split : dataRecord group frame :: tail = [dataRecord group frame] ++ tail := rfl
  have total : groupsOpened (sent ++ dataRecord group frame :: tail) = after.length := by
    rw [split, ← append_assoc, groupsOpened_append, opens.opened, tailOpened, Nat.add_zero]
  let final : Encoder :=
    { e with nextGroupID := after.length % 2 ^ 64, groups := e.groups.set e.current new
             current := (e.current + 1) % e.interleave }
  refine ⟨dataRecord group frame :: tail, final, ?_, ?_, ?_⟩
  · rw [place, getD_eq_getElem?_getD, found, Option.getD_some, opening]
    exact run
  · rw [split, carriedFrames_append, carriedFrames_dataRecord, tailFrames, append_nil]
  intro unwrapped
  rw [total] at unwrapped
  obtain ⟨next, length, nextLanes⟩ := lanes (opens.lanes unwrapped)
  have epoch : group.epoch = e.epoch := by
    by_cases empty : lane.len = 0
    · exact (opens.fresh empty).2
    · rw [opens.joined empty]
      exact ordered.laneEpochs lane member empty
  have tailRecords : ∀ p, .record p ∈ tail → p.groupID = group.groupID ∧ p.epoch = e.epoch := by
    intro p inTail
    by_cases empty : new.len = 0
    · obtain ⟨q, other, same, inLanes, _, id, epoch'⟩ := (closes empty).ofLane _ inTail
      cases same
      rw [mem_singleton.mp inLanes] at id epoch'
      rw [push_groupID] at id
      rw [push_epoch] at epoch'
      exact ⟨id, epoch'.trans epoch⟩
    · rw [(keeps empty).1] at inTail
      cases inTail
  have openedOut : openedIDs (dataRecord group frame :: tail) =
      if lane.len = 0 then [group.groupID] else [] := by
    rw [split, openedIDs_append, openedIDs_eq_nil tailOpened, ← opens.len]
    split <;> simp [openedIDs, dataRecord, *]
  have placed : Placed e final lane new group.groupID sent (dataRecord group frame :: tail) := {
    current := found
    groups := rfl
    turn := congrArg ((e.current + 1) % ·) inv.laneCount.symm
    maxData := rfl
    epoch := rfl
    len := opens.len ▸ newLen
    kept := fun isOpen => by
      rw [(keeps isOpen).2, push_groupID, push_epoch]
      exact ⟨rfl, epoch⟩
    closed := fun empty => by
      have closed := (closes empty).closed _ mem_cons_self (by simp)
      rw [push_groupID] at closed
      exact closed.append_right [_]
    records := by
      intro p inOut
      rcases mem_cons.mp inOut with same | inTail
      · cases same
        exact ⟨rfl, epoch⟩
      · exact tailRecords p inTail
    fresh := by
      intro empty
      refine ⟨?_, openedOut.trans (if_pos empty)⟩
      rw [groupsOpened_append, ← length_openedIDs (_ :: _), openedOut, if_pos empty,
        length_singleton] at total
      rw [(opens.fresh empty).1, inv.nextID, ← inv.opened]
      exact Nat.mod_eq_of_lt (by omega)
    joined := by
      intro isOpen
      rw [opens.joined isOpen] at openedOut ⊢
      exact ⟨rfl, openedOut.trans (if_neg isOpen)⟩ }
  refine ⟨next, ?_, placed.ordered inv ordered⟩
  exact { inv with
    lanes := by simpa using nextLanes
    room := by
      intro other inLanes
      rcases mem_or_eq_of_mem_set inLanes with kept | rfl
      · exact inv.room other kept
      · rw [newLen]
        exact Nat.mod_lt _ inv.maxData.1
    nextID := length ▸ rfl
    opened := total.trans length.symm
    laneCount := length_set.trans inv.laneCount
    current := Nat.mod_lt _ (Nat.zero_lt_of_lt inv.current) }

section

variable (mds : codec.Mds) (tracked : Tracked codec e sent history)

include mds tracked

theorem addProtected_tracked (targetParity : Nat) (fits : FrameFits frame) :
    SendsFrames codec sent [frame] (e.addProtected codec targetParity frame) := by
  by_cases bypass : targetParity = 0 ∧ e.unprotected < healthyProbeFrames
  · refine ⟨_, _, by rw [addProtected, if_pos bypass], by simp [carriedFrames], ?_⟩
    exact fun _ => ⟨history, (tracked.forward frame).note e.lastParity _⟩
  · obtain ⟨flushed, entered, after, run, frames, _, enteredTracked, _⟩ :=
      enterParity_tracked mds tracked targetParity
    have positive : 0 < if targetParity = 0 then 1 else targetParity := by
      split <;> omega
    obtain ⟨placed, next, places, placedFrames, placedTracked⟩ := place_tracked mds
      (enteredTracked.note targetParity
        (if targetParity = 0 then 0 else entered.unprotected)) fits positive
    refine ⟨flushed ++ placed, next, ?_, ?_, ?_⟩
    · rw [addProtected, if_neg bypass, run]
      split at places
      · next zero => simp only [zero, if_true] at places ⊢
                     rw [places]
      · next protects => simp only [protects, if_false] at places ⊢
                         rw [places]
    · rw [carriedFrames_append, frames, placedFrames, nil_append]
    · rw [← append_assoc]
      exact placedTracked

theorem add_tracked (controllerInterleave controllerParity : Nat) (fits : FrameFits frame) :
    SendsFrames codec sent [frame] (e.add codec controllerInterleave controllerParity frame) := by
  have swapped : ClosesOnly codec sent history
      (if max e.minInterleave controllerInterleave ≠ e.interleave then
        e.swapInterleave codec (max e.minInterleave controllerInterleave)
      else (.ok [], e)) := by
    split
    · exact swapInterleave_tracked mds tracked _
    · exact ⟨[], e, history, rfl, rfl, rfl, by simpa using tracked, rfl⟩
  obtain ⟨flushed, next, after, run, frames, _, swappedTracked, _⟩ := swapped
  obtain ⟨out, final, addRun, addFrames, adds⟩ :=
    addProtected_tracked mds swappedTracked controllerParity fits
  have valid : ¬(frame.length = 0 ∨ frame.length > maxFrameSize) := by
    have bounds := fits
    unfold FrameFits at bounds
    omega
  refine ⟨flushed ++ out, final, ?_, ?_, ?_⟩
  · rw [add, if_neg valid]
    simp only [run, addRun]
  · rw [carriedFrames_append, frames, addFrames, nil_append]
  · rw [← append_assoc]
    exact adds

end

end Encoder

/-! ## Whole runs -/

/-- One call of the session's send loop, with the controller snapshots the
call reads. -/
inductive EncoderCall where
  | add (frame : Bytes) (controllerInterleave controllerParity : Nat)
  | flush
  | reconfigure (maxData interleave controllerInterleave : Nat)

def EncoderCall.apply (codec : Codec) (e : Encoder) :
    EncoderCall → Except String (List Datagram) × Encoder
  | .add frame controllerInterleave controllerParity =>
    e.add codec controllerInterleave controllerParity frame
  | .flush => e.flushAll codec
  | .reconfigure maxData interleave controllerInterleave =>
    e.reconfigure codec controllerInterleave maxData interleave

/-- The calls and controller values the encoder is driven with: frames of at
most one carrier datagram that are not themselves records, adaptive parity and
interleave levels, and profiles `Reconfigure` accepts. -/
def EncoderCall.Valid : EncoderCall → Prop
  | .add frame controllerInterleave controllerParity =>
    FrameFits frame ∧ frame.take 4 ≠ magic ∧
      controllerInterleave ∈ [1, 2, 4] ∧ controllerParity ≤ maxParityShards
  | .flush => True
  | .reconfigure maxData interleave controllerInterleave =>
    (0 < maxData ∧ maxData ≤ maxDataShards) ∧ (0 < interleave ∧ interleave ≤ maxInterleave) ∧
      controllerInterleave ∈ [1, 2, 4]

open Encoder

def EncoderCall.frames : EncoderCall → List Bytes
  | .add frame _ _ => [frame]
  | _ => []

structure EncoderRun where
  sent : List Datagram := []
  errors : List String := []
  final : Encoder

def EncoderRun.step (codec : Codec) (run : EncoderRun) (call : EncoderCall) : EncoderRun :=
  match call.apply codec run.final with
  | (.error err, next) =>
    { run with errors := run.errors ++ [err], final := next }
  | (.ok out, next) => { run with sent := run.sent ++ out, final := next }

/-- The datagrams returned by a sequence of calls, in order. -/
def encoderRun (codec : Codec) (start : Encoder) (calls : List EncoderCall) : EncoderRun :=
  calls.foldl (EncoderRun.step codec) { final := start }

/-- The encoder of a new session: `NewEncoder` followed by `SetInterleave`. -/
def newEncoder (codec : Codec) (maxData minInterleave controllerInterleave : Nat) : Encoder :=
  (Encoder.new maxData).setInterleave codec controllerInterleave minInterleave

theorem Encoder.new_maxData (maxData : Nat) : 0 < (Encoder.new maxData).maxData ∧
      (Encoder.new maxData).maxData ≤ maxDataShards := by
  by_cases outside : maxData = 0 ∨ maxData > maxDataShards
  · simp only [new, initGroups, if_pos outside]
    decide
  · simp only [new, initGroups, if_neg outside]
    omega

/-- `Reconfigure` takes over the controller's interleave as it is; a controller
never goes beyond `maxInterleave`. -/
def EncoderCall.Driven : EncoderCall → Prop
  | .reconfigure _ _ controllerInterleave =>
    controllerInterleave ≤ maxInterleave
  | _ => True

/-- The frame of an `Add` that is not refused. -/
def EncoderCall.accepted : EncoderCall → List Bytes
  | .add frame _ _ =>
    if frame.length = 0 ∨ frame.length > maxFrameSize then [] else [frame]
  | _ => []

theorem newEncoder_tracked (mds : codec.Mds) (maxData minInterleave controllerInterleave : Nat) :
    Tracked codec (newEncoder codec maxData minInterleave controllerInterleave) [] [] := by
  let clamped : Encoder :=
    { new maxData with
      minInterleave := min maxInterleave (max 1 minInterleave) }
  have empty : ∀ lane ∈ clamped.groups, lane.len = 0 := by
    intro lane member
    rw [eq_of_mem_replicate member]
  have configured : clamped.Configured := {
    maxData := new_maxData maxData
    laneCount := rfl
    few := Nat.le_add_left 1 3
    current := by simp [clamped, new, initGroups]
    minInterleave := by simp only [clamped, maxInterleave]; omega
    epoch := by simp [clamped, new, initGroups] }
  obtain ⟨out, next, after, run, _, _, tracked, length⟩ := swapInterleave_tracked mds
    (Tracked.start empty rfl configured) (max clamped.minInterleave controllerInterleave)
  have swapped : newEncoder codec maxData minInterleave controllerInterleave = next :=
    congrArg Prod.snd run
  have nothing : out = [] := by
    unfold swapInterleave at run
    simp only at run
    split at run
    · simpa using (congrArg Prod.fst run).symm
    · simpa [flushAll, clamped, new, initGroups,
        flushGroups, flushGroup] using (congrArg Prod.fst run).symm
  rw [length_nil, length_eq_zero_iff] at length
  rw [swapped]
  simpa [nothing, length] using tracked

/-- A call succeeds, or it is refused and changes nothing. -/
theorem EncoderCall.apply_tracked (mds : codec.Mds) {e : Encoder} {call : EncoderCall}
    (tracked : Tracked codec e sent history) (driven : call.Driven) :
    (∃ err, call.apply codec e = (.error err, e) ∧ call.accepted = [] ∧ ¬call.Valid) ∨
      SendsFrames codec sent call.accepted (call.apply codec e) := by
  cases call with
  | add frame controllerInterleave controllerParity =>
    by_cases bad : frame.length = 0 ∨ frame.length > maxFrameSize
    · refine .inl ⟨_, if_pos bad, if_pos bad, ?_⟩
      rintro ⟨⟨nonempty, short⟩, _⟩
      omega
    · have fits : FrameFits frame := by
        unfold FrameFits
        omega
      obtain ⟨out, next, adds, frames, keeps⟩ := add_tracked mds tracked
        controllerInterleave controllerParity fits
      exact .inr ⟨out, next, adds, frames.trans (if_neg bad).symm, keeps⟩
  | flush =>
    obtain ⟨out, next, after, flushes, frames, _, flushed, _⟩ := flushAll_tracked mds tracked
    exact .inr ⟨out, next, flushes, frames, fun _ => ⟨after, flushed⟩⟩
  | reconfigure maxData interleave controllerInterleave =>
    by_cases badData : maxData = 0 ∨ maxData > maxDataShards
    · exact .inl ⟨_, if_pos badData, rfl, fun valid => by have := valid.1; omega⟩
    by_cases badInterleave : interleave < 1 ∨ interleave > maxInterleave
    · exact .inl ⟨_, (if_neg badData).trans (if_pos badInterleave), rfl,
        fun valid => by have := valid.2.1; omega⟩
    · obtain ⟨out, next, after, reconfigures, frames, _, renewed, _⟩ :=
        reconfigure_tracked mds tracked controllerInterleave maxData interleave (by omega)
          (by omega) driven
      exact .inr ⟨out, next, reconfigures, frames, fun _ => ⟨after, renewed⟩⟩

theorem foldl_sent_prefix (codec : Codec) (calls : List EncoderCall) (run : EncoderRun) :
    ∃ rest, (calls.foldl (EncoderRun.step codec) run).sent = run.sent ++ rest := by
  induction calls generalizing run with
  | nil => exact ⟨[], by simp⟩
  | cons call calls induction =>
    obtain ⟨rest, extended⟩ := induction (run.step codec call)
    rw [foldl_cons, extended]
    unfold EncoderRun.step
    split
    · exact ⟨rest, rfl⟩
    · exact ⟨_, by rw [append_assoc]⟩

theorem encoderRun_from (mds : codec.Mds) (calls : List EncoderCall)
    (driven : ∀ call ∈ calls, call.Driven) (run : EncoderRun)
    (tracked : Tracked codec run.final run.sent history)
    (unwrapped : groupsOpened (calls.foldl (EncoderRun.step codec) run).sent ≤ 2 ^ 64) :
    ((∀ call ∈ calls, call.Valid) → (calls.foldl (EncoderRun.step codec) run).errors = run.errors) ∧
      carriedFrames (calls.foldl (EncoderRun.step codec) run).sent =
        carriedFrames run.sent ++ calls.flatMap EncoderCall.accepted ∧
      ∃ after, Tracked codec (calls.foldl (EncoderRun.step codec) run).final
        (calls.foldl (EncoderRun.step codec) run).sent after := by
  induction calls generalizing run history with
  | nil => exact ⟨fun _ => rfl, by simp, history, tracked⟩
  | cons call calls induction =>
    obtain ⟨first, later⟩ := forall_mem_cons.mp driven
    rw [foldl_cons] at unwrapped ⊢
    rcases EncoderCall.apply_tracked mds tracked first with
      ⟨err, applied, nothing, invalid⟩ | ⟨out, next, applied, frames, keeps⟩
    · have stepped : run.step codec call = { run with errors := run.errors ++ [err] } := by
        simp [EncoderRun.step, applied]
      rw [stepped] at unwrapped ⊢
      obtain ⟨_, carried, final⟩ := induction later
        { run with errors := run.errors ++ [err] } tracked unwrapped
      refine ⟨fun valid => (invalid (valid call mem_cons_self)).elim, ?_, final⟩
      rw [carried, flatMap_cons, nothing, nil_append]
    · have stepped : run.step codec call = { run with sent := run.sent ++ out, final := next } := by
        simp [EncoderRun.step, applied]
      rw [stepped] at unwrapped ⊢
      have prefixBound : groupsOpened (run.sent ++ out) ≤ 2 ^ 64 := by
        refine Nat.le_trans ?_ unwrapped
        obtain ⟨rest, extended⟩ := foldl_sent_prefix codec calls
          { run with sent := run.sent ++ out, final := next }
        rw [extended, groupsOpened_append (run.sent ++ out) rest]
        exact Nat.le_add_right _ _
      obtain ⟨after, nextTracked⟩ := keeps prefixBound
      obtain ⟨errors, carried, final⟩ := induction later
        { run with sent := run.sent ++ out, final := next } nextTracked unwrapped
      refine ⟨fun valid => errors fun other member => valid other (mem_cons_of_mem _ member),
        ?_, final⟩
      rw [carried, carriedFrames_append, frames, flatMap_cons, append_assoc]

theorem EncoderCall.Valid.driven {call : EncoderCall} (valid : call.Valid) : call.Driven := by
  cases call with
  | add | flush => trivial
  | reconfigure maxData interleave controllerInterleave =>
    have level := valid.2.2
    simp only [mem_cons, not_mem_nil, or_false] at level
    rcases level with rfl | rfl | rfl <;> simp [Driven, maxInterleave]

theorem EncoderCall.Valid.accepted {call : EncoderCall} (valid : call.Valid) :
    call.accepted = call.frames := by
  cases call with
  | add frame =>
    obtain ⟨⟨nonempty, short⟩, _⟩ := valid
    exact if_neg (by omega)
  | flush | reconfigure => rfl

/-- Any valid sequence of calls succeeds, carries the added frames in order,
and emits exactly the records of a history of well-formed groups. -/
theorem encoderRun_history (mds : codec.Mds) (maxData minInterleave controllerInterleave : Nat)
    (calls : List EncoderCall) (valid : ∀ call ∈ calls, call.Valid)
    (unwrapped : groupsOpened (encoderRun codec (newEncoder codec maxData minInterleave
      controllerInterleave) calls).sent ≤ 2 ^ 64) :
    let run := encoderRun codec (newEncoder codec maxData minInterleave controllerInterleave) calls
    run.errors = [] ∧ carriedFrames run.sent = calls.flatMap EncoderCall.frames ∧
      ∃ history, LanesInv codec run.final.groups run.sent history ∧ history.length ≤ 2 ^ 64 := by
  obtain ⟨errors, carried, history, tracked⟩ := encoderRun_from mds calls
    (fun call member => (valid call member).driven)
    { final := newEncoder codec maxData minInterleave controllerInterleave }
    (newEncoder_tracked mds maxData minInterleave controllerInterleave) unwrapped
  refine ⟨errors valid, ?_, history, tracked.inv.lanes, tracked.inv.opened ▸ unwrapped⟩
  rw [encoderRun, carried]
  exact flatMap_congr fun call member => (valid call member).accepted

end WgQuic.Fec
