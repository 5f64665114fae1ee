import WgQuic.Fec.GroupReception

/-!
# Handling the records of a stream

All records are handled at one time, so nothing expires.  Each call returns
exactly the frames that become recoverable with its record.
-/

namespace WgQuic.Fec

open List Decoder GroupSpec AList

theorem Time.sub_self (now : Time) : Time.sub now now = 0 := by
  simp [Time.sub]

namespace Decoder

variable {now : Time} {d : Decoder}

theorem expire_idle (later : d.nextExpiry = 0 ∨ now ≤ d.nextExpiry) : d.expire now = ([], d) := by
  unfold expire
  rw [if_pos]
  rcases later with unset | future
  · exact .inl unset
  · exact .inr (not_lt.mpr future)

theorem fastExpire_idle (queue : ∀ entry ∈ d.groupExpiry.items, entry.created = now) :
    d.fastExpire now = ([], d) := by
  unfold fastExpire
  cases d.groupExpiry.size with
  | zero => rfl
  | succ fuel =>
    rw [fastExpireLoop]
    split
    · rfl
    · rename_i oldest rest items
      have created := queue oldest (by rw [items]; simp)
      rw [if_pos]
      right
      rw [created, Time.sub_self]
      decide

@[simp] theorem scheduleExpiry_groups (deadline : Time) :
    (d.scheduleExpiry deadline).groups = d.groups := by
  unfold scheduleExpiry
  split <;> rfl

@[simp] theorem scheduleExpiry_completed (deadline : Time) :
    (d.scheduleExpiry deadline).completed = d.completed := by
  unfold scheduleExpiry
  split <;> rfl

@[simp] theorem scheduleExpiry_groupExpiry (deadline : Time) :
    (d.scheduleExpiry deadline).groupExpiry = d.groupExpiry := by
  unfold scheduleExpiry
  split <;> rfl

theorem limitCompleted_of_lt (few : d.completed.entries.length < maxCompletedGroups) :
    d.limitCompleted = d := by
  rw [limitCompleted, if_pos few]

end Decoder

variable {β : Type} {id : Nat} {p : Packet} {arrived : List Packet} {codec : Codec}
  {spec : GroupSpec} {m : AList fun _ : Nat => β}

/-- A map whose keys are among a list is no larger than the list without
repetitions. -/
theorem entries_length_le {ids : List Nat} (keys : ∀ id ∈ m, id ∈ ids) :
    m.entries.length ≤ ids.dedup.length := by
  have subset : m.keys ⊆ ids.dedup := fun id member => mem_dedup.mpr (keys id member)
  have bound := (subperm_of_subset m.keys_nodup subset).length_le
  simpa [AList.keys, List.keys] using bound

theorem entries_length_lt {ids : List Nat} (keys : ∀ id ∈ m, id ∈ ids)
    (absent : id ∉ m) (member : id ∈ ids) : m.entries.length < ids.dedup.length := by
  have nodup : (id :: m.keys).Nodup := nodup_cons.mpr ⟨absent, m.keys_nodup⟩
  have subset : id :: m.keys ⊆ ids.dedup := by
    intro other inList
    rcases mem_cons.mp inList with rfl | inKeys
    · exact mem_dedup.mpr member
    · exact mem_dedup.mpr (keys other inKeys)
  have bound := (subperm_of_subset nodup subset).length_le
  simpa [AList.keys, List.keys] using bound

/-- Where the decoder keeps a group, by what was seen of it. -/
inductive GroupStatus (codec : Codec) (spec : GroupSpec) (id : Nat)
    (now : Time) (arrived : List Packet) :
    Option ReceiveGroup → Option CompletedGroup → Prop where
  | untouched (unseen : ∀ p ∈ arrived, p.groupID ≠ id) :
      GroupStatus codec spec id now arrived none none
  | collecting {group : ReceiveGroup} (holds : group.Holds codec spec id now arrived)
      (waiting : ∀ i, spec.recovered id arrived i ↔ seen arrived id .data i = true) :
      GroupStatus codec spec id now arrived (some group) none
  | finished {done : CompletedGroup} (epoch : done.epoch = spec.epoch) (k : done.k = spec.k)
      (delivered : ∀ i < spec.k, done.delivered.has i = true)
      (enough : spec.k ≤ spec.shardsSeen id arrived) :
      GroupStatus codec spec id now arrived none (some done)

theorem seen_other (arrived : List Packet) (other : p.groupID ≠ id) :
    seen (arrived ++ [p]) id = seen arrived id := by
  funext kind i
  rw [seen_append]
  simp [other]

theorem GroupStatus.other {now : Time} {group : Option ReceiveGroup} {done : Option CompletedGroup}
    (status : GroupStatus codec spec id now arrived group done) (other : p.groupID ≠ id) :
    GroupStatus codec spec id now (arrived ++ [p]) group done := by
  have same := seen_other arrived other
  have sameDimensions : dimensioned (arrived ++ [p]) id = dimensioned arrived id := by
    rw [dimensioned_append]
    simp [other]
  cases status with
  | untouched unseen =>
    apply GroupStatus.untouched
    intro q member
    rcases mem_append.mp member with earlier | last
    · exact unseen q earlier
    · rw [mem_singleton.mp last]
      exact other
  | collecting holds waiting =>
    refine .collecting { holds with
      data := same ▸ holds.data, parity := same ▸ holds.parity
      delivered := same ▸ holds.delivered, dimensions := sameDimensions ▸ holds.dimensions
      closed := same ▸ holds.closed } ?_
    simp only [recovered, shardsSeen, same] at waiting ⊢
    exact waiting
  | finished epoch k delivered enough =>
    exact .finished epoch k delivered (by simpa only [shardsSeen, same] using enough)

structure DecoderInv (codec : Codec) (history : List GroupSpec) (now : Time)
    (arrived : List Packet) (d : Decoder) : Prop where
  queue : ∀ entry ∈ d.groupExpiry.items, entry.created = now
  expiry : d.nextExpiry = 0 ∨ now ≤ d.nextExpiry
  groups : ∀ id ∈ d.groups, id ∈ arrived.map Packet.groupID
  completed : ∀ id ∈ d.completed, id ∈ arrived.map Packet.groupID
  status : ∀ {id : Nat} {spec}, history[id]? = some spec →
    GroupStatus codec spec id now arrived (d.groups.lookup id) (d.completed.lookup id)

theorem decoder_new_inv (codec : Codec) (history : List GroupSpec)
    (now : Time) : DecoderInv codec history now [] {} where
  queue := by simp
  expiry := .inl rfl
  groups := by intro id member; exact (notMem_empty id member).elim
  completed := by intro id member; exact (notMem_empty id member).elim
  status _ := by
    exact GroupStatus.untouched (by simp)

/-! ## One record -/

/-- The decoder differs from `d` at most in what it keeps of group `id`. -/
structure Decoder.Touches (now : Time) (id : Nat) (d next : Decoder) : Prop where
  queue : ∀ entry ∈ next.groupExpiry.items, entry.created = now
  expiry : next.nextExpiry = 0 ∨ now ≤ next.nextExpiry
  groups : ∀ other ≠ id, next.groups.lookup other = d.groups.lookup other
  completed : ∀ other ≠ id, next.completed.lookup other = d.completed.lookup other

theorem mem_of_lookup_eq {left right : AList fun _ : Nat => β}
    (same : left.lookup id = right.lookup id) (member : id ∈ left) : id ∈ right := by
  rw [← lookup_isSome] at member ⊢
  rw [← same]
  exact member

/-- The keys are among the groups seen, whatever happens to the group of the record. -/
theorem keys_seen {before after : AList fun _ : Nat => β}
    (keys : ∀ id ∈ before, id ∈ arrived.map Packet.groupID)
    (others : ∀ id ≠ p.groupID, after.lookup id = before.lookup id) :
    ∀ id ∈ after, id ∈ (arrived ++ [p]).map Packet.groupID := by
  intro id member
  by_cases same : id = p.groupID
  · simp [same]
  · rw [map_append]
    exact mem_append_left _ (keys id (mem_of_lookup_eq (others id same) member))

variable {history : List GroupSpec}

/-- One record changes the status of its own group only. -/
theorem DecoderInv.touch {now : Time} {d next : Decoder}
    (inv : DecoderInv codec history now arrived d) (touches : d.Touches now p.groupID next)
    (found : history[p.groupID]? = some spec)
    (status : GroupStatus codec spec p.groupID now (arrived ++ [p]) (next.groups.lookup p.groupID)
      (next.completed.lookup p.groupID)) :
    DecoderInv codec history now (arrived ++ [p]) next where
  queue := touches.queue
  expiry := touches.expiry
  groups := keys_seen inv.groups touches.groups
  completed := keys_seen inv.completed touches.completed
  status := by
    intro id other otherFound
    by_cases same : id = p.groupID
    · subst same
      rw [found, Option.some.injEq] at otherFound
      rw [← otherFound]
      exact status
    · rw [touches.groups id same, touches.completed id same]
      exact (inv.status otherFound).other (Ne.symm same)

section Step

variable {codec : Codec} {history : List GroupSpec} {now : Time}
  {arrived : List Packet} {d : Decoder} {p : Packet} {spec : GroupSpec} {next : Decoder}

theorem Decoder.Touches.schedule {id : Nat} {deadline : Time}
    (touches : d.Touches now id next) (future : now ≤ deadline) :
    d.Touches now id (next.scheduleExpiry deadline) where
  queue := by
    rw [Decoder.scheduleExpiry_groupExpiry]
    exact touches.queue
  expiry := by
    unfold Decoder.scheduleExpiry
    split
    · exact .inr future
    · exact touches.expiry
  groups := by
    rw [Decoder.scheduleExpiry_groups]
    exact touches.groups
  completed := by
    rw [Decoder.scheduleExpiry_completed]
    exact touches.completed

theorem createGroup_touches (inv : DecoderInv codec history now arrived d)
    (group : ReceiveGroup) (created : group.created = now) :
    d.Touches now group.groupID (d.createGroup now group) := by
  refine .schedule ⟨?_, inv.expiry, ?_, fun _ _ => rfl⟩ (Int.le_add_of_nonneg_right (by decide))
  · intro entry member
    have inQueue := (IndexedHeap.push_perm ExpiryEntry.less d.groupExpiry _).subset member
    rcases mem_cons.mp inQueue with rfl | earlier
    · exact created
    · exact inv.queue entry earlier
  · exact fun other distinct => lookup_insert_ne distinct

/-- The group a record is stored in, whether it exists or is created. -/
theorem openGroup_ok (inv : DecoderInv codec history now arrived d)
    (honest : spec.Honest codec p.groupID arrived) (epoch : p.epoch = spec.epoch)
    (few : ((arrived ++ [p]).map Packet.groupID).dedup.length ≤ maxReceiveGroups)
    (found : history[p.groupID]? = some spec) (unfinished : d.completed.lookup p.groupID = none) :
    ∃ group next, d.openGroup now p = (.ok group, next) ∧
      group.Holds codec spec p.groupID now arrived ∧
      (∀ i, spec.recovered p.groupID arrived i ↔ seen arrived p.groupID .data i = true) ∧
      d.Touches now p.groupID next ∧ next.completed = d.completed := by
  have status := inv.status found
  rw [unfinished] at status
  cases lookup : d.groups.lookup p.groupID with
  | some group =>
    rw [lookup] at status
    cases status with
    | collecting holds waiting =>
      refine ⟨group, d, ?_, holds, waiting,
        ⟨inv.queue, inv.expiry, fun _ _ => rfl, fun _ _ => rfl⟩, rfl⟩
      simp [Decoder.openGroup, lookup]
  | none =>
    rw [lookup] at status
    cases status with
    | untouched unseen =>
      have room : ¬ d.groups.entries.length ≥ maxReceiveGroups := by
        have absent : p.groupID ∉ d.groups := lookup_eq_none.mp lookup
        have bound := entries_length_lt (keys_seen (p := p) inv.groups fun _ _ => rfl) absent
          (by simp)
        omega
      have fresh := ReceiveGroup.fresh_holds codec spec now unseen
      let group : ReceiveGroup :=
        { created := now, epoch := p.epoch, groupID := p.groupID }
      refine ⟨group, d.createGroup now group, ?_, by simp only [group, epoch]; exact fresh, ?_,
        createGroup_touches inv group rfl, ?_⟩
      · simp only [Decoder.openGroup, lookup, if_neg room, group]
      · apply recovered_iff_seen honest
        intro enough
        have noneSeen : ∀ kind i, seen arrived p.groupID kind i = false := by
          intro kind i
          rw [Bool.eq_false_iff]
          intro wasSeen
          obtain ⟨q, member, same, _⟩ := seen_exists wasSeen
          exact unseen q member same
        have zero : spec.shardsSeen p.groupID arrived = 0 := by
          simp [shardsSeen, noneSeen]
        omega
      · rw [createGroup, Decoder.scheduleExpiry_completed]
        rfl

theorem mem_freshIndex {id : Nat} (same : p.groupID = id) (i : Nat) : i ∈ freshIndex arrived id p ↔
      seen (arrived ++ [p]) id .data i = true ∧ ¬ seen arrived id .data i = true := by
  rw [seen_append, freshIndex]
  by_cases kind : p.kind = .data
  · by_cases index : p.index = i
    · subst index
      cases seen arrived id .data p.index <;> simp [kind, same]
    · have other : i ≠ p.index := Ne.symm index
      cases seen arrived id .data i <;>
        cases seen arrived id .data p.index <;> simp [kind, index, other]
  · simp [kind]

theorem freshIndex_nodup (id : Nat) : (freshIndex arrived id p).Nodup := by
  unfold freshIndex
  split <;> simp

theorem seen_mono {kind : Kind} {id i : Nat} (found : seen arrived id kind i = true) :
    seen (arrived ++ [p]) id kind i = true := by
  rw [seen_append, found, Bool.true_or]

theorem shardsSeen_mono (id : Nat) :
    spec.shardsSeen id arrived ≤ spec.shardsSeen id (arrived ++ [p]) := by
  exact Nat.add_le_add (countP_mono_left fun _ _ => seen_mono)
    (countP_mono_left fun _ _ => seen_mono)

/-- The indices that become recoverable with one more record. -/
structure NewlyRecovered (spec : GroupSpec) (arrived : List Packet)
    (p : Packet) (fresh : List Nat) : Prop where
  nodup : fresh.Nodup
  mem : ∀ i, i ∈ fresh ↔ spec.recovered p.groupID (arrived ++ [p]) i ∧
    ¬ spec.recovered p.groupID arrived i

theorem newlyRecovered_complete (honest : spec.Honest codec p.groupID (arrived ++ [p]))
    (before : ∀ i, spec.recovered p.groupID arrived i ↔ seen arrived p.groupID .data i = true)
    (enough : spec.k ≤ spec.shardsSeen p.groupID (arrived ++ [p])) :
    NewlyRecovered spec arrived p (freshIndex arrived p.groupID p ++
      spec.absent p.groupID (arrived ++ [p])) where
  nodup := by
    refine nodup_append.mpr ⟨freshIndex_nodup _, nodup_range.filter _, ?_⟩
    intro i inFresh j inAbsent same
    subst same
    have wasSeen := ((mem_freshIndex rfl i).mp inFresh).1
    simp [GroupSpec.absent, wasSeen] at inAbsent
  mem i := by
    rw [mem_append, mem_freshIndex rfl, before]
    simp only [GroupSpec.absent, mem_filter, mem_range, Bool.not_eq_true', recovered]
    constructor
    · rintro (⟨now, earlier⟩ | ⟨bound, unseen⟩)
      · exact ⟨⟨seen_data_bound honest now, .inr enough⟩, earlier⟩
      · refine ⟨⟨bound, .inr enough⟩, fun earlier => ?_⟩
        rw [seen_mono earlier] at unseen
        exact Bool.noConfusion unseen
    · rintro ⟨⟨bound, _⟩, earlier⟩
      cases now : seen (arrived ++ [p]) p.groupID .data i with
      | true => exact .inl ⟨rfl, earlier⟩
      | false => exact .inr ⟨bound, rfl⟩

theorem newlyRecovered_finished (enough : spec.k ≤ spec.shardsSeen p.groupID arrived) :
    NewlyRecovered spec arrived p [] where
  nodup := nodup_nil
  mem i := by
    simp only [not_mem_nil, false_iff, not_and, not_not]
    exact fun after => ⟨after.1, .inr enough⟩

theorem storeGroup_touches (group : ReceiveGroup) (touches : d.Touches now group.groupID next) :
    d.Touches now group.groupID (next.storeGroup group) where
  queue := touches.queue
  expiry := touches.expiry
  groups other distinct := (lookup_insert_ne distinct).trans (touches.groups other distinct)
  completed := touches.completed

variable {group : ReceiveGroup}

theorem finishGroup_of_few (feedback : Feedback)
    (few : d.completed.entries.length < maxCompletedGroups) :
    d.finishGroup now group feedback = scheduleExpiry { d.removeGroup group with
      completed := d.completed.insert group.groupID (group.complete now feedback) }
        (now + completionGrace) := by
  have unlimited : (d.removeGroup group).limitCompleted = d.removeGroup group :=
    Decoder.limitCompleted_of_lt few
  rw [finishGroup, unlimited]
  rfl

theorem finishGroup_touches (group : ReceiveGroup)
    (feedback : Feedback) (touches : d.Touches now group.groupID next)
    (few : next.completed.entries.length < maxCompletedGroups) :
    d.Touches now group.groupID (next.finishGroup now group feedback) := by
  rw [finishGroup_of_few feedback few]
  refine .schedule ⟨?_, touches.expiry, ?_, ?_⟩ (Int.le_add_of_nonneg_right (by decide))
  · exact fun entry member => touches.queue entry (IndexedHeap.remove_subset _ _ _ member)
  · exact fun other distinct =>
      (lookup_erase_ne distinct).trans (touches.groups other distinct)
  · exact fun other distinct =>
      (lookup_insert_ne distinct).trans (touches.completed other distinct)

theorem handleRecord_step (mds : codec.Mds) (wellFormed : spec.WellFormed)
    (inv : DecoderInv codec history now arrived d)
    (honest : spec.Honest codec p.groupID (arrived ++ [p]))
    (found : history[p.groupID]? = some spec) (member : p ∈ spec.records codec p.groupID)
    (unfinished : d.completed.lookup p.groupID = none) {opened : Decoder}
    (holds : group.Holds codec spec p.groupID now arrived)
    (before : ∀ i, spec.recovered p.groupID arrived i ↔ seen arrived p.groupID .data i = true)
    (touches : d.Touches now p.groupID opened) (kept : opened.completed = d.completed)
    (few : d.completed.entries.length < maxCompletedGroups) (result : Result)
    (empty : result.frames = []) :
    ∃ outcome next fresh, opened.handleRecord codec now group p result = (outcome, none, next) ∧
      outcome.frames = fresh.map spec.frameAt ∧
      NewlyRecovered spec arrived p fresh ∧
      DecoderInv codec history now (arrived ++ [p]) next := by
  obtain ⟨stored, received, storedHolds⟩ := receive_holds mds wellFormed holds member
  have epoch : ¬ group.epoch ≠ p.epoch := by
    rw [holds.epoch, epoch_of_mem_records member]
    simp
  rcases tryComplete_holds mds wellFormed honest storedHolds with
    ⟨waits, after⟩ | ⟨feedback, finished, completes, isFinished, enough⟩
  · have storedID : stored.groupID = p.groupID := storedHolds.groupID
    refine ⟨{ result with
        frames := (freshIndex arrived p.groupID p).map spec.frameAt },
      opened.storeGroup stored, freshIndex arrived p.groupID p, ?_, rfl,
      ⟨freshIndex_nodup _, fun i => by rw [mem_freshIndex rfl, before, after]⟩, ?_⟩
    · simp [handleRecord, if_neg epoch, received, waits, empty]
    · have stores := storeGroup_touches (d := d) stored (by rw [storedID]; exact touches)
      rw [storedID] at stores
      refine inv.touch stores found ?_
      have atGroup : (opened.storeGroup stored).groups.lookup p.groupID = some stored := by
        rw [← storedID]
        exact lookup_insert _
      have atCompleted : (opened.storeGroup stored).completed.lookup p.groupID = none := by
        simp only [storeGroup, kept]
        exact unfinished
      rw [atGroup, atCompleted]
      exact GroupStatus.collecting storedHolds after
  · have finishedID : finished.groupID = p.groupID := isFinished.groupID
    have room : opened.completed.entries.length < maxCompletedGroups := by
      rw [kept]
      exact few
    refine ⟨{ result with
        frames := (freshIndex arrived p.groupID p ++
          spec.absent p.groupID (arrived ++ [p])).map spec.frameAt },
      opened.finishGroup now finished feedback, freshIndex arrived p.groupID p ++
        spec.absent p.groupID (arrived ++ [p]), ?_, rfl,
      newlyRecovered_complete honest before enough, ?_⟩
    · simp [handleRecord, if_neg epoch, received, completes, empty]
    · have finishes := finishGroup_touches (d := d) finished
        feedback (by rw [finishedID]; exact touches) room
      rw [finishedID] at finishes
      refine inv.touch finishes found ?_
      rw [finishGroup_of_few feedback room, scheduleExpiry_groups, scheduleExpiry_completed,
        ← finishedID]
      dsimp only [removeGroup]
      rw [lookup_erase, lookup_insert, finishedID]
      exact GroupStatus.finished isFinished.epoch isFinished.k isFinished.delivered enough

theorem handleLateShard_finished {done : CompletedGroup} (wellFormed : spec.WellFormed)
    (member : p ∈ spec.records codec p.groupID)
    (delivered : ∀ i < spec.k, done.delivered.has i = true) :
    ∃ next, handleLateShard done p = (next, []) ∧ next.epoch = done.epoch ∧ next.k = done.k ∧
      next.delivered = done.delivered := by
  unfold handleLateShard
  split
  · exact ⟨done, rfl, rfl, rfl, rfl⟩
  next isData =>
  obtain ⟨bound, same⟩ := data_of_mem_records member (by_contra fun other => isData (.inl other))
  obtain ⟨_, positive, small⟩ := frameAt_bounds wellFormed bound
  have payload : p.payload = encodeDataShard (spec.frameAt p.index) := congrArg Packet.payload same
  rw [payload, decodeDataShard_encode positive small]
  simp only [delivered _ bound, if_true]
  split <;> exact ⟨_, rfl, rfl, rfl, rfl⟩

/-- One call of `Handle` on a record of the stream: no error, and exactly the
frames that become recoverable. -/
theorem handle_step (mds : codec.Mds) (wellFormed : spec.WellFormed)
    (inv : DecoderInv codec history now arrived d)
    (honest : spec.Honest codec p.groupID (arrived ++ [p]))
    (found : history[p.groupID]? = some spec) (idBound : p.groupID < 2 ^ 64)
    (member : p ∈ spec.records codec p.groupID)
    (few : ((arrived ++ [p]).map Packet.groupID).dedup.length ≤ maxReceiveGroups) :
    ∃ result next fresh, d.handle codec now (marshalPacket p) = (result, none, next) ∧
      result.frames = fresh.map spec.frameAt ∧
      NewlyRecovered spec arrived p fresh ∧
      DecoderInv codec history now (arrived ++ [p]) next := by
  have parsed := parsePacket_marshalPacket (fits_of_mem_records mds wellFormed idBound member)
  have kind := kind_of_mem_records member
  have epoch := epoch_of_mem_records member
  let advanced : Decoder :=
    { d with lastGroupID := max d.lastGroupID p.groupID }
  have advancedInv : DecoderInv codec history now arrived advanced :=
    ⟨inv.queue, inv.expiry, inv.groups, inv.completed, inv.status⟩
  have stalled : advanced.fastExpire now = ([], advanced) := Decoder.fastExpire_idle inv.queue
  simp only [handle, parsed, if_neg kind, Decoder.expire_idle inv.expiry]
  rw [show Decoder.fastExpire now { d with lastGroupID := max d.lastGroupID p.groupID } =
      ([], advanced) from stalled]
  have status := advancedInv.status found
  cases lookup : advanced.completed.lookup p.groupID with
  | some done =>
    rw [lookup] at status
    generalize openGroup : advanced.groups.lookup p.groupID = openEntry at status
    cases status with
    | finished doneEpoch doneK delivered enough =>
      obtain ⟨late, run, lateEpoch, lateK, lateDelivered⟩ :=
        handleLateShard_finished wellFormed member delivered
      have sameEpoch : ¬ done.epoch ≠ p.epoch := by
        rw [doneEpoch, epoch]
        simp
      refine ⟨{ handled := true }, { advanced with
          completed := advanced.completed.insert p.groupID late }, [],
        ?_, rfl, newlyRecovered_finished enough, ?_⟩
      · simp only [if_neg sameEpoch, run]
        simp
      · refine advancedInv.touch ⟨inv.queue, inv.expiry, fun _ _ => rfl,
          fun other distinct => lookup_insert_ne distinct⟩ found ?_
        rw [lookup_insert, openGroup]
        refine GroupStatus.finished (lateEpoch.trans doneEpoch) (lateK.trans doneK) ?_
          (Nat.le_trans enough (shardsSeen_mono p.groupID))
        rw [lateDelivered]
        exact delivered
  | none =>
    have honestBefore : spec.Honest codec p.groupID arrived :=
      fun q inArrived => honest q (by simp [inArrived])
    obtain ⟨group, opened, opens, holds, before, touches, kept⟩ :=
      openGroup_ok advancedInv honestBefore epoch few found lookup
    have room : advanced.completed.entries.length < maxCompletedGroups := by
      have bound := entries_length_le (keys_seen (p := p) advancedInv.completed fun _ _ => rfl)
      simp only [maxReceiveGroups, maxCompletedGroups] at few ⊢
      omega
    simp only [opens]
    exact handleRecord_step mds wellFormed advancedInv honest found member
      lookup holds before touches kept room _ rfl

end Step

/-! ## Whole runs -/

structure DecoderRun where
  frames : List Bytes := []
  errors : List String := []
  final : Decoder := {}

def DecoderRun.step (codec : Codec) (now : Time) (run : DecoderRun)
    (datagram : Bytes) : DecoderRun :=
  let (result, err, next) := run.final.handle codec now datagram
  { frames := run.frames ++ result.frames
    errors := run.errors ++ err.toList, final := next }

/-- What a fresh decoder returns when it is handed the datagrams one by one
at the time `now`. -/
def decoderRun (codec : Codec) (now : Time) (datagrams : List Bytes) : DecoderRun :=
  datagrams.foldl (DecoderRun.step codec now) {}

theorem decoderRun_append (codec : Codec) (now : Time) (datagrams : List Bytes) (last : Bytes) :
    decoderRun codec now (datagrams ++ [last]) =
      (decoderRun codec now datagrams).step codec now last := by
  simp [decoderRun]

/-- The frame at a position of the stream: a group and an index in it. -/
def frameOf (history : List GroupSpec) (position : Nat × Nat) : Bytes :=
  match history[position.1]? with
  | some spec => spec.frameAt position.2
  | none => []

/-- A record of the group its header names. -/
def OfStream (codec : Codec) (history : List GroupSpec) (p : Packet) : Prop :=
  ∃ spec, history[p.groupID]? = some spec ∧ p ∈ spec.records codec p.groupID

theorem recovered_mono {i : Nat} (before : spec.recovered id arrived i) :
    spec.recovered id (arrived ++ [p]) i :=
  ⟨before.1, before.2.imp seen_mono fun enough => Nat.le_trans enough (shardsSeen_mono id)⟩

theorem honest_of_stream {records : List Packet}
    (ofStream : ∀ p ∈ records, OfStream codec history p) (found : history[id]? = some spec) :
    spec.Honest codec id records := by
  intro p member same
  obtain ⟨other, otherFound, otherMember⟩ := ofStream p member
  rw [same] at otherFound otherMember
  rw [Option.some.inj (found.symm.trans otherFound)]
  exact otherMember

/-- The positions returned by a run are exactly the recoverable ones, each
returned once. -/
theorem decoderRun_recovers (mds : codec.Mds)
    (wellFormed : ∀ spec ∈ history, spec.WellFormed) (unwrapped : history.length ≤ 2 ^ 64)
    (now : Time) (records : List Packet) (ofStream : ∀ p ∈ records, OfStream codec history p)
    (few : (records.map Packet.groupID).dedup.length ≤ maxReceiveGroups) :
    (decoderRun codec now (records.map marshalPacket)).errors = [] ∧
      DecoderInv codec history now records
        (decoderRun codec now (records.map marshalPacket)).final ∧
      ∃ positions : List (Nat × Nat), (decoderRun codec now (records.map marshalPacket)).frames =
          positions.map (frameOf history) ∧
        positions.Nodup ∧
        ∀ id i, (id, i) ∈ positions ↔
          ∃ spec, history[id]? = some spec ∧ spec.recovered id records i := by
  induction records using List.reverseRecOn with
  | nil =>
    refine ⟨rfl, decoder_new_inv codec history now, [], rfl, nodup_nil, ?_⟩
    intro id i
    simp only [not_mem_nil, false_iff, not_exists, not_and]
    rintro spec found ⟨bound, wasSeen | enough⟩
    · simp [seen] at wasSeen
    · have zero : spec.shardsSeen id [] = 0 := by
        simp [shardsSeen, seen]
      omega
  | append_singleton arrived p induction =>
    have fewBefore : (arrived.map Packet.groupID).dedup.length ≤ maxReceiveGroups := by
      refine Nat.le_trans ?_ few
      apply (subperm_of_subset (nodup_dedup _) ?_).length_le
      intro id member
      rw [mem_dedup] at member ⊢
      simp only [map_append, mem_append]
      exact .inl member
    obtain ⟨errors, inv, positions, frames, nodup, members⟩ := induction
      (fun q member => ofStream q (by simp [member])) fewBefore
    obtain ⟨spec, found, member⟩ := ofStream p (by simp)
    have bound := (List.getElem?_eq_some_iff.mp found).1
    obtain ⟨result, next, fresh, handled, returned, newly, nextInv⟩ :=
      handle_step mds (wellFormed spec (mem_of_getElem? found)) inv
        (honest_of_stream ofStream found) found (by omega) member few
    rw [map_append, map_singleton, decoderRun_append]
    simp only [DecoderRun.step, handled]
    refine ⟨by simp [errors], nextInv, positions ++ fresh.map fun i => (p.groupID, i), ?_, ?_, ?_⟩
    · rw [map_append, returned, map_map]
      congr 1
      apply map_congr_left
      intro i _
      simp [frameOf, found]
    · refine nodup_append.mpr ⟨nodup, newly.nodup.map (fun _ _ same => (Prod.mk.inj same).2), ?_⟩
      intro position earlier later inFresh same
      subst same
      obtain ⟨i, isFresh, rfl⟩ := mem_map.mp inFresh
      obtain ⟨other, otherFound, before⟩ := (members _ _).mp earlier
      rw [found, Option.some.injEq] at otherFound
      subst otherFound
      exact ((newly.mem i).mp isFresh).2 before
    · intro id i
      rw [mem_append, members]
      simp only [mem_map, Prod.mk.injEq]
      constructor
      · rintro (⟨other, otherFound, before⟩ | ⟨j, isFresh, rfl, rfl⟩)
        · exact ⟨other, otherFound, recovered_mono before⟩
        · exact ⟨spec, found, ((newly.mem j).mp isFresh).1⟩
      · rintro ⟨other, otherFound, after⟩
        by_cases same : p.groupID = id
        · subst same
          rw [found, Option.some.injEq] at otherFound
          subst otherFound
          by_cases before : spec.recovered p.groupID arrived i
          · exact .inl ⟨spec, found, before⟩
          · exact .inr ⟨i, (newly.mem i).mpr ⟨after, before⟩, rfl, rfl⟩
        · simp only [recovered, shardsSeen, seen_other arrived same] at after
          exact .inl ⟨other, otherFound, after⟩

end WgQuic.Fec
