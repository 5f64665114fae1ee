import WgQuic.Fec.DecoderRun
import WgQuic.Lib.Table

/-!
# Calls of a decoder

Any datagrams, at any times.  A call looks at one group at most; all it does to
the other groups is to drop and to report the ones whose time is over.
-/

namespace WgQuic.Fec

open ReceiveGroup AList

inductive DecoderCall where
  | handle (now : Time) (datagram : Bytes)
  | expire (now : Time)

structure DecoderReply where
  frames : List Bytes := []
  feedback : List Feedback := []
  error : Option String := none

def DecoderCall.apply (codec : Codec) (d : Decoder) : DecoderCall → DecoderReply × Decoder
  | .handle now datagram =>
    let (result, error, d) := d.handle codec now datagram
    ({ frames := result.frames, feedback := result.sendFeedback, error }, d)
  | .expire now =>
    let (feedback, d) := d.expireIdle now
    ({ feedback }, d)

def DecoderCall.next (codec : Codec) (d : Decoder) (call : DecoderCall) : Decoder :=
  (call.apply codec d).2

/-- The decoder after a sequence of calls, starting from `NewDecoder`. -/
def decoderAfter (codec : Codec) (calls : List DecoderCall) : Decoder :=
  calls.foldl (DecoderCall.next codec) {}

theorem decoderAfter_concat (codec : Codec) (calls : List DecoderCall) (call : DecoderCall) :
    decoderAfter codec (calls ++ [call]) = call.next codec (decoderAfter codec calls) := by
  simp [decoderAfter]

/-- Every call of a sequence meets a condition on it and the decoder. -/
def Throughout (codec : Codec) (holds : Decoder → DecoderCall → Prop)
    (calls : List DecoderCall) : Prop :=
  ∀ before call after, calls = before ++ call :: after → holds (decoderAfter codec before) call

variable {calls : List DecoderCall} {codec : Codec} {holds : Decoder → DecoderCall → Prop}

theorem Throughout.before {last : DecoderCall}
    (throughout : Throughout codec holds (calls ++ [last])) : Throughout codec holds calls := by
  intro before call after split
  exact throughout before call (after ++ [last]) (by simp [split])

theorem Throughout.last {last : DecoderCall}
    (throughout : Throughout codec holds (calls ++ [last])) :
    holds (decoderAfter codec calls) last :=
  throughout calls last [] rfl

theorem Throughout.of_take (filler : DecoderCall)
    (each : ∀ i < calls.length, holds (decoderAfter codec (calls.take i)) (calls.getD i filler)) :
    Throughout codec holds calls := by
  intro before call after split
  subst split
  simpa using each before.length (by simp)

structure Decoder.Every (open_ : Nat → ReceiveGroup → Prop)
    (done : Nat → CompletedGroup → Prop) (d : Decoder) : Prop where
  groups : ∀ id group, d.groups.lookup id = some group → open_ id group
  completed : ∀ id group, d.completed.lookup id = some group → done id group

/-- The reports about groups that are given up or have had their grace. -/
inductive Reports (open_ : Nat → ReceiveGroup → Prop)
    (done : Nat → CompletedGroup → Prop) : Feedback → Prop where
  | stalled {id : Nat} {group : ReceiveGroup} (holds : open_ id group) (dimensioned : 0 < group.k) :
      Reports open_ done (Decoder.stalledFeedback group)
  | unknown {id : Nat} {group : ReceiveGroup} (holds : open_ id group)
      (undimensioned : group.k = 0) :
      Reports open_ done
        { epoch := group.epoch, groupID := group.groupID
          missing := 1, total := 0 }
  | completed {id : Nat} {group : CompletedGroup} (holds : done id group) : Reports open_ done
        { epoch := group.epoch, groupID := id, missing := group.missing
          recovered := group.recovered, total := group.k % 2 ^ 16 }

theorem Reports.mono {open_ open' : Nat → ReceiveGroup → Prop}
    {done done' : Nat → CompletedGroup → Prop} {report : Feedback}
    (reports : Reports open_ done report) (opens : ∀ id group, open_ id group → open' id group)
    (dones : ∀ id group, done id group → done' id group) : Reports open' done' report := by
  cases reports with
  | stalled holds dimensioned => exact .stalled (opens _ _ holds) dimensioned
  | unknown holds undimensioned => exact .unknown (opens _ _ holds) undimensioned
  | completed holds => exact .completed (dones _ _ holds)

namespace Decoder.Every

variable {open_ : Nat → ReceiveGroup → Prop} {done : Nat → CompletedGroup → Prop} {d : Decoder}

theorem mono {open' : Nat → ReceiveGroup → Prop} {done' : Nat → CompletedGroup → Prop}
    (every : d.Every open_ done) (opens : ∀ id group, open_ id group → open' id group)
    (dones : ∀ id group, done id group → done' id group) : d.Every open' done' :=
  ⟨fun id group found => opens id group (every.groups id group found),
    fun id group found => dones id group (every.completed id group found)⟩

theorem new : ({} : Decoder).Every open_ done := by
  constructor <;> intro id group found <;> cases found

section

variable (every : d.Every open_ done)

include every

theorem schedule (at_ : Time) : (d.scheduleExpiry at_).Every open_ done := by
  constructor
  · rw [scheduleExpiry_groups]
    exact every.groups
  · rw [scheduleExpiry_completed]
    exact every.completed

theorem removeGroup (group : ReceiveGroup) : (d.removeGroup group).Every open_ done :=
  ⟨fun id other found => every.groups id other (lookup_erase_cases found).2, every.completed⟩

theorem eraseCompleted (id : Nat) :
    Decoder.Every open_ done { d with completed := d.completed.erase id } :=
  ⟨every.groups, fun other group found =>
    every.completed other group (lookup_erase_cases found).2⟩

theorem limitCompleted : d.limitCompleted.Every open_ done := by
  unfold Decoder.limitCompleted
  split
  · exact every
  · exact every.eraseCompleted _

end

variable {group : ReceiveGroup}

theorem storeGroup (every : d.Every open_ done) (holds : open_ group.groupID group) :
    (d.storeGroup group).Every open_ done :=
  ⟨forall_insert holds every.groups, every.completed⟩

theorem insertCompleted (every : d.Every open_ done) {id : Nat}
    {group : CompletedGroup} (holds : done id group) :
    Decoder.Every open_ done
      { d with completed := d.completed.insert id group } :=
  ⟨every.groups, forall_insert holds every.completed⟩

variable {now : Time}

theorem finishGroup (every : d.Every open_ done) {feedback : Feedback}
    (holds : done group.groupID (group.complete now feedback)) :
    (d.finishGroup now group feedback).Every open_ done :=
  ((every.removeGroup group).limitCompleted.insertCompleted holds).schedule _

theorem createGroup (every : d.Every open_ done) (holds : open_ group.groupID group) :
    (d.createGroup now group).Every open_ done := by
  have stored := every.storeGroup holds
  refine Decoder.Every.schedule ?_ _
  exact ⟨stored.groups, stored.completed⟩

theorem mem_entries {β : Type} {m : AList fun _ : Nat => β} {entry : Nat × β}
    (member : entry ∈ m.entries.map fun entry => (entry.1, entry.2)) :
    m.lookup entry.1 = some entry.2 := by
  obtain ⟨stored, listed, rfl⟩ := List.mem_map.mp member
  exact mem_lookup_iff.mpr listed

end Decoder.Every

/-! ## Sweeps -/

namespace Decoder

def Keyed (d : Decoder) : Prop :=
  ∀ id group, d.groups.lookup id = some group → group.groupID = id

/-- What an expiry does: it drops groups one by one, with a report or without. -/
inductive Sweeps : Decoder → List Feedback → Decoder → Prop where
  | done {d : Decoder} : Sweeps d [] d
  | timed {d final : Decoder} {reports : List Feedback} (next : Time)
      (rest : Sweeps { d with nextExpiry := next } reports final) : Sweeps d reports final
  | drop {d final : Decoder} {reports : List Feedback} {group : ReceiveGroup}
      (report : Option Feedback) (found : d.groups.lookup group.groupID = some group)
      (about : ∀ own ∈ report, Reports (fun id held => id = group.groupID ∧ held = group)
        (fun _ _ => False) own)
      (rest : Sweeps (d.removeGroup group) reports final) :
      Sweeps d (report.toList ++ reports) final
  | forget {d final : Decoder} {reports : List Feedback} {id : Nat} {group : CompletedGroup}
      (report : Option Feedback) (found : d.completed.lookup id = some group)
      (about : ∀ own ∈ report, Reports (fun _ _ => False)
        (fun other held => other = id ∧ held = group) own)
      (rest : Sweeps { d with completed := d.completed.erase id } reports final) :
      Sweeps d (report.toList ++ reports) final

variable {d final : Decoder} {reports later : List Feedback} {now : Time}

theorem Sweeps.trans {last : Decoder} (sweeps : Sweeps d reports final)
    (rest : Sweeps final later last) : Sweeps d (reports ++ later) last := by
  induction sweeps with
  | done => exact rest
  | timed next _ ih => exact .timed next (ih rest)
  | drop report found about _ ih =>
    rw [List.append_assoc]
    exact .drop report found about (ih rest)
  | forget report found about _ ih =>
    rw [List.append_assoc]
    exact .forget report found about (ih rest)

theorem Sweeps.schedule {at_ : Time} (rest : Sweeps (d.scheduleExpiry at_) reports final) :
    Sweeps d reports final := by
  unfold scheduleExpiry at rest
  split at rest
  · exact .timed at_ rest
  · exact rest

theorem Sweeps.lastGroupID (sweeps : Sweeps d reports final) :
    final.lastGroupID = d.lastGroupID := by
  induction sweeps with
  | done => rfl
  | timed _ _ ih | drop _ _ _ _ ih | forget _ _ _ _ ih => exact ih

/-- The groups that are left to visit stay in the map while others are removed. -/
theorem expireGroups_sweeps (groups : List (Nat × ReceiveGroup))
    (listed : ∀ entry ∈ groups, d.groups.lookup entry.2.groupID = some entry.2)
    (distinct : (groups.map fun entry => entry.2.groupID).Nodup) :
    Sweeps d (expireGroups now groups d).1 (expireGroups now groups d).2 := by
  induction groups generalizing d with
  | nil => exact .done
  | cons entry rest ih =>
    obtain ⟨id, group⟩ := entry
    obtain ⟨alone, restDistinct⟩ := List.nodup_cons.mp distinct
    rw [List.forall_mem_cons] at listed
    rw [expireGroups]
    split
    · have left := ih (d := d.removeGroup group) (fun entry member => by
          refine (lookup_erase_ne fun same => ?_).trans (listed.2 entry member)
          exact alone (List.mem_map.mpr ⟨entry, member, same⟩)) restDistinct
      dsimp only
      split
      · next dimensioned =>
        refine .drop (some _) listed.1 ?_ left
        rintro _ ⟨⟩
        exact .stalled ⟨rfl, rfl⟩ dimensioned
      · exact .drop none listed.1 nofun left
    · refine .schedule (ih (fun entry member => ?_) restDistinct)
      rw [scheduleExpiry_groups]
      exact listed.2 entry member

theorem expireCompleted_sweeps (groups : List (Nat × CompletedGroup))
    (listed : ∀ entry ∈ groups, d.completed.lookup entry.1 = some entry.2)
    (distinct : (groups.map Prod.fst).Nodup) :
    Sweeps d (expireCompleted now groups d).1 (expireCompleted now groups d).2 := by
  induction groups generalizing d with
  | nil => exact .done
  | cons entry rest ih =>
    obtain ⟨id, group⟩ := entry
    obtain ⟨alone, restDistinct⟩ := List.nodup_cons.mp distinct
    rw [List.forall_mem_cons] at listed
    have left := ih (d := { d with completed := d.completed.erase id }) (fun entry member => by
      refine (lookup_erase_ne fun same => ?_).trans (listed.2 entry member)
      exact alone (List.mem_map.mpr ⟨entry, member, same⟩)) restDistinct
    rw [expireCompleted]
    split
    · exact .forget none listed.1 nofun left
    split
    · refine .forget (some _) listed.1 ?_ left
      rintro _ ⟨⟩
      exact .completed ⟨rfl, rfl⟩
    · refine .schedule (ih (fun entry member => ?_) restDistinct)
      rw [scheduleExpiry_completed]
      exact listed.2 entry member

theorem expire_sweeps (keyed : d.Keyed) (now : Time) :
    Sweeps d (d.expire now).1 (d.expire now).2 := by
  unfold expire
  split
  · exact .done
  · refine .trans (.timed 0 (expireGroups_sweeps _ (fun entry member => ?_) ?_))
      (expireCompleted_sweeps _ (fun entry member => Every.mem_entries member) ?_)
    · have found := Every.mem_entries member
      exact keyed _ _ found ▸ found
    · have keys : (d.groups.entries.map fun entry => (entry.1, entry.2)).map
          (fun entry => entry.2.groupID) = d.groups.keys := by
        rw [List.map_map]
        exact List.map_congr_left fun entry member =>
          keyed entry.1 entry.2 (mem_lookup_iff.mpr member)
      rw [keys]
      exact d.groups.keys_nodup
    · rw [List.map_map]
      exact keys_nodup _

theorem fastExpire_sweeps (keyed : d.Keyed) (now : Time) :
    Sweeps d (d.fastExpire now).1 (d.fastExpire now).2 := by
  unfold fastExpire
  generalize d.groupExpiry.size = fuel
  induction fuel generalizing d with
  | zero => exact .done
  | succ fuel ih =>
    rw [fastExpireLoop]
    split
    · exact .done
    split
    · exact .done
    split
    · exact .done
    next group found =>
    refine .drop (some _) (keyed _ _ found ▸ found) ?_
      (ih fun id other kept => keyed id other (lookup_erase_cases kept).2)
    rintro _ ⟨⟩
    split
    · next dimensioned => exact .stalled ⟨rfl, rfl⟩ dimensioned
    · next undimensioned => exact .unknown ⟨rfl, rfl⟩ (Nat.eq_zero_of_not_pos undimensioned)

theorem Every.sweeps {open_ : Nat → ReceiveGroup → Prop} {done : Nat → CompletedGroup → Prop}
    (every : d.Every open_ done) (sweeps : Sweeps d reports final) :
    final.Every open_ done ∧ ∀ report ∈ reports, Reports open_ done report := by
  induction sweeps with
  | done => exact ⟨every, nofun⟩
  | timed _ _ ih => exact ih ⟨every.groups, every.completed⟩
  | drop report found about _ ih =>
    obtain ⟨kept, rest⟩ := ih (every.removeGroup _)
    refine ⟨kept, List.forall_mem_append.mpr ⟨fun own listed => ?_, rest⟩⟩
    refine (about own (Option.mem_toList.mp listed)).mono ?_ nofun
    rintro _ _ ⟨rfl, rfl⟩
    exact every.groups _ _ found
  | forget report found about _ ih =>
    obtain ⟨kept, rest⟩ := ih (every.eraseCompleted _)
    refine ⟨kept, List.forall_mem_append.mpr ⟨fun own listed => ?_, rest⟩⟩
    refine (about own (Option.mem_toList.mp listed)).mono nofun ?_
    rintro _ _ ⟨rfl, rfl⟩
    exact every.completed _ _ found

end Decoder

def HasFrame (shard : Bytes) : Prop :=
  ∃ frame, decodeDataShard shard = .ok frame

namespace ReceiveGroup

/-- The group with the shard of a valid record in its slot. -/
inductive Stores (group : ReceiveGroup) (p : Packet) : ReceiveGroup → Prop where
  | data (kind : p.kind = .data) (valid : p.index < maxDataShards ∧ 3 ≤ p.payload.length) :
      Stores group p { group with
        data := Function.update group.data p.index (some ((group.data p.index).getD p.payload)) }
  | parity {sized : ReceiveGroup} (kind : p.kind = .parity)
      (set : group.setDimensions p.k p.r = .ok sized)
      (valid : p.index < sized.r ∧ p.payload ≠ []) :
      Stores group p { sized with
        parity := Function.update sized.parity p.index
          (some ((sized.parity p.index).getD p.payload)) }
  | close {sized : ReceiveGroup} (kind : p.kind = .close)
      (set : group.setDimensions p.k p.r = .ok sized) :
      Stores group p { sized with closed := true }

/-- Data shards are missing, and there are enough shards to restore them. -/
def Suffices (group : ReceiveGroup) : Prop :=
  group.receivedData < group.k ∧ group.k ≤ group.receivedData + group.receivedParity

/-- The missing shards have a frame if the codec restores them. -/
def Restorable (codec : Codec) (group : ReceiveGroup) : Prop :=
  group.Suffices → codec.new group.k group.r = none → ∀ restored,
    codec.reconstructData group.k group.r group.shards = .ok restored →
      ∀ i < group.k, group.data i = none → HasFrame (restored.getD i [])

/-- Whatever a record adds to its group has a frame: its own shard, unless the frame is known,
and the shards that can be restored with it. -/
def Decodes (codec : Codec) (group : ReceiveGroup) (p : Packet) : Prop :=
  group.epoch = p.epoch → ∀ stored, group.Stores p stored →
    (p.kind = .data → group.delivered.has p.index = false →
      HasFrame ((group.data p.index).getD p.payload)) ∧ stored.Restorable codec

/-- The record is valid, what it adds has a frame, and the codec takes its dimensions. -/
def Accepts (codec : Codec) (group : ReceiveGroup) (p : Packet) : Prop :=
  group.epoch = p.epoch ∧ group.Decodes codec p ∧ ∃ stored, group.Stores p stored ∧
    (stored.Suffices → codec.new stored.k stored.r = none)

instance (group : ReceiveGroup) : Decidable group.Suffices :=
  inferInstanceAs (Decidable (_ ∧ _))

variable {err : String}

theorem adopt_error {restored : List Bytes} {slots : List Nat} {group after : ReceiveGroup}
    {frames : List Bytes} (adopts : adopt restored slots group frames = (.error err, after)) :
    ∃ i ∈ slots, group.data i = none ∧ ¬HasFrame (restored.getD i []) := by
  induction slots generalizing group frames with
  | nil => cases adopts
  | cons slot slots ih =>
    have later : ∀ {stored : ReceiveGroup}, (∀ i, stored.data i = none → group.data i = none) →
        (∃ i ∈ slots, stored.data i = none ∧ ¬HasFrame (restored.getD i [])) →
        ∃ i ∈ slot :: slots, group.data i = none ∧ ¬HasFrame (restored.getD i []) := by
      rintro stored empty ⟨i, member, missing, lost⟩
      exact ⟨i, List.mem_cons_of_mem _ member, empty i missing, lost⟩
    rw [adopt] at adopts
    split at adopts
    · exact later (fun _ missing => missing) (ih adopts)
    next filled =>
    split at adopts
    · next fails =>
      refine ⟨slot, List.mem_cons_self, by simpa using filled, ?_⟩
      rintro ⟨frame, decodes⟩
      cases fails.symm.trans decodes
    have empty : ∀ i, Function.update group.data slot (some (restored.getD slot [])) i = none →
        group.data i = none := by
      intro i missing
      rw [Function.update_apply] at missing
      split at missing
      · cases missing
      · exact missing
    split at adopts
    · exact later empty (ih adopts)
    · exact later empty (ih adopts)

end ReceiveGroup

/-! ## One group and one record -/

/-- What a record makes of its group. -/
structure Outcome where
  group : ReceiveGroup
  frames : List Bytes := []
  error : Option String := none
  /-- The report of a group that is finished with. -/
  finished : Option Feedback := none

def ReceiveGroup.process (codec : Codec) (group : ReceiveGroup) (p : Packet) : Outcome :=
  if group.epoch ≠ p.epoch then
    { group, error := some "FEC epoch changed within group" }
  else
    match Decoder.receive group p with
    | (.error err, group) => { group, error := some err }
    | (.ok frames, group) =>
      match tryComplete codec group with
      | (.error err, group) => { group, frames, error := some err }
      | (.ok completion, group) =>
        match completion.feedback, completion.final with
        | some feedback, true =>
          { group, frames := frames ++ completion.frames
            finished := some feedback }
        | _, _ => { group, frames := frames ++ completion.frames }

namespace Decoder

def settle (now : Time) (d : Decoder) (outcome : Outcome) : Decoder :=
  match outcome.finished with
  | some feedback => d.finishGroup now outcome.group feedback
  | none => d.storeGroup outcome.group

/-- The two maps agree; the expiry queue may differ. -/
structure SameGroups (left right : Decoder) : Prop where
  groups : ∀ id, left.groups.lookup id = right.groups.lookup id
  completed : ∀ id, left.completed.lookup id = right.completed.lookup id

theorem SameGroups.refl (d : Decoder) : SameGroups d d := ⟨fun _ => rfl, fun _ => rfl⟩

variable {done : Nat → CompletedGroup → Prop} {open_ : Nat → ReceiveGroup → Prop} {d : Decoder}
  {group : ReceiveGroup}

theorem SameGroups.every {left right : Decoder} (same : SameGroups left right)
    (every : right.Every open_ done) : left.Every open_ done :=
  ⟨fun id group found => every.groups id group (same.groups id ▸ found),
    fun id group found => every.completed id group (same.completed id ▸ found)⟩

theorem storeGroup_same (found : d.groups.lookup group.groupID = some group) :
    SameGroups (d.storeGroup group) d := by
  refine ⟨?_, fun _ => rfl⟩
  intro id
  by_cases same : id = group.groupID
  · subst same
    rw [storeGroup, lookup_insert, found]
  · rw [storeGroup, lookup_insert_ne same]

theorem handleRecord_process (codec : Codec) (now : Time) (group : ReceiveGroup) (p : Packet)
    (result : Result) : let outcome := group.process codec p
    (d.handleRecord codec now group p result).1.frames = result.frames ++ outcome.frames ∧
      (d.handleRecord codec now group p result).1.sendFeedback = result.sendFeedback ∧
      (d.handleRecord codec now group p result).2.1 = outcome.error ∧
      ((d.handleRecord codec now group p result).2.2 = d ∨
        (d.handleRecord codec now group p result).2.2 = d.settle now outcome) := by
  unfold handleRecord process
  by_cases differs : group.epoch ≠ p.epoch
  · simp only [if_pos differs]
    exact ⟨by simp, trivial, trivial, .inl trivial⟩
  · simp only [if_neg differs]
    generalize receive group p = received
    obtain ⟨err | frames, stored⟩ := received
    · exact ⟨by simp, rfl, rfl, .inr rfl⟩
    · dsimp only
      generalize tryComplete codec stored = completed
      obtain ⟨err | ⟨delivered, _ | feedback, _ | _⟩, after⟩ := completed
      · exact ⟨rfl, rfl, rfl, .inr rfl⟩
      all_goals exact ⟨by simp, rfl, rfl, .inr rfl⟩

/-- The group of a record, as it is before the record. -/
def groupFor (now : Time) (d : Decoder) (p : Packet) : ReceiveGroup :=
  (d.groups.lookup p.groupID).getD
    { created := now, epoch := p.epoch, groupID := p.groupID }

def raise (d : Decoder) (id : Nat) : Decoder :=
  { d with lastGroupID := max d.lastGroupID id }

/-- What `Handle` does before it looks at the group of a record. -/
def expirePhase (now : Time) (d : Decoder) (p : Packet) : List Feedback × Decoder :=
  let (expired, d) := d.expire now
  let d := { d with lastGroupID := max d.lastGroupID p.groupID }
  let (stalled, d) := d.fastExpire now
  (expired ++ stalled, d)

/-- What becomes of a record, once the groups whose time is over are gone:
the frames and the error that are returned, and the decoder. -/
inductive Arrives (codec : Codec) (now : Time) (d : Decoder) (p : Packet) :
    List Bytes → Option String → Decoder → Prop where
  | otherEpoch {done : CompletedGroup} (found : d.completed.lookup p.groupID = some done)
      (differs : done.epoch ≠ p.epoch) :
      Arrives codec now d p [] (some "FEC epoch changed within completed group") d
  | late {done : CompletedGroup} (found : d.completed.lookup p.groupID = some done)
      (same : done.epoch = p.epoch) :
      Arrives codec now d p (handleLateShard done p).2 none
        { d with completed :=
            d.completed.insert p.groupID (handleLateShard done p).1 }
  | full (unfinished : d.completed.lookup p.groupID = none)
      (absent : d.groups.lookup p.groupID = none)
      (many : d.groups.entries.length ≥ maxReceiveGroups) :
      Arrives codec now d p [] (some "too many incomplete FEC groups") d
  | record {base next : Decoder} (unfinished : d.completed.lookup p.groupID = none)
      (entered : d.groups.lookup p.groupID ≠ none ∧ base = d ∨ d.groups.lookup p.groupID = none ∧
          d.groups.entries.length < maxReceiveGroups ∧ base = d.createGroup now (d.groupFor now p))
      (found : base.groups.lookup (d.groupFor now p).groupID = some (d.groupFor now p))
      (settles : next = base ∨ next = base.settle now ((d.groupFor now p).process codec p)) :
      Arrives codec now d p ((d.groupFor now p).process codec p).frames
        ((d.groupFor now p).process codec p).error next

/-- The first shard of a group that the decoder does not know. -/
theorem groupFor_accepts {codec : Codec} {now : Time} {p : Packet}
    (absent : d.groups.lookup p.groupID = none) (kind : p.kind = .data)
    (valid : p.index < maxDataShards ∧ 3 ≤ p.payload.length) (frame : HasFrame p.payload) :
    (d.groupFor now p).Accepts codec p := by
  have few : ∀ stored, (d.groupFor now p).Stores p stored → ¬stored.Suffices := by
    rw [groupFor, absent]
    intro stored stores enough
    cases stores with
    | data => exact Nat.not_lt_zero _ enough.1
    | parity other | close other => cases kind.symm.trans other
  have stores : (d.groupFor now p).Stores p _ := .data kind valid
  refine ⟨by rw [groupFor, absent]; rfl, fun _ stored stores => ⟨fun _ _ => ?_, ?_⟩, _, stores,
    fun enough => absurd enough (few _ stores)⟩
  · rw [groupFor, absent]
    exact frame
  · exact fun enough => absurd enough (few stored stores)

theorem groupFor_groupID (keyed : d.Keyed) (now : Time) (p : Packet) :
    (d.groupFor now p).groupID = p.groupID := by
  unfold groupFor
  cases found : d.groups.lookup p.groupID with
  | none => rfl
  | some group => exact keyed _ _ found

/-- The rest of `Handle`. -/
def arrive (codec : Codec) (now : Time) (d : Decoder) (p : Packet)
    (result : Result) : Result × Option String × Decoder :=
  match d.completed.lookup p.groupID with
  | some done =>
    if done.epoch ≠ p.epoch then
      (result, some "FEC epoch changed within completed group", d)
    else
      let (done, frames) := handleLateShard done p
      ({ result with frames := frames }, none,
        { d with completed := d.completed.insert p.groupID done })
  | none =>
    match d.openGroup now p with
    | (.error err, d) => (result, some err, d)
    | (.ok group, d) => d.handleRecord codec now group p result

theorem handle_eq_arrive {codec : Codec} {now : Time} {datagram : Bytes} {p : Packet}
    (parsed : parsePacket datagram = .ok (some p)) (kind : p.kind ≠ .feedback) :
    d.handle codec now datagram = (d.expirePhase now p).2.arrive codec now p
        { handled := true, sendFeedback := (d.expirePhase now p).1 } := by
  rw [handle, parsed]
  simp only [if_neg kind]
  rfl

/-- A record goes to the group that the decoder has, or to a new one. -/
theorem openGroup_cases (keyed : d.Keyed) (now : Time) (p : Packet) :
    d.groups.lookup p.groupID = none ∧ d.groups.entries.length ≥ maxReceiveGroups ∧
        d.openGroup now p = (.error "too many incomplete FEC groups", d) ∨
      ∃ base, (d.groups.lookup p.groupID ≠ none ∧ base = d ∨ d.groups.lookup p.groupID = none ∧
            d.groups.entries.length < maxReceiveGroups ∧
            base = d.createGroup now (d.groupFor now p)) ∧
        base.groups.lookup (d.groupFor now p).groupID = some (d.groupFor now p) ∧
        d.openGroup now p = (.ok (d.groupFor now p), base) := by
  have key := groupFor_groupID keyed now p
  unfold openGroup
  cases stored : d.groups.lookup p.groupID with
  | some group =>
    have same : d.groupFor now p = group := by
      rw [groupFor, stored]
      rfl
    rw [same] at key ⊢
    exact .inr ⟨d, .inl ⟨nofun, rfl⟩, key ▸ stored, rfl⟩
  | none =>
    by_cases many : d.groups.entries.length ≥ maxReceiveGroups
    · exact .inl ⟨rfl, many, if_pos many⟩
    · have same : d.groupFor now p =
          { created := now, epoch := p.epoch, groupID := p.groupID } := by
        rw [groupFor, stored]
        rfl
      refine .inr ⟨_, .inr ⟨rfl, Nat.lt_of_not_ge many, rfl⟩, ?_, ?_⟩
      · rw [createGroup, scheduleExpiry_groups]
        exact lookup_insert _
      · simp only [if_neg many, same]

theorem arrive_arrives (codec : Codec) (now : Time) (p : Packet) (expired : List Feedback)
    (keyed : d.Keyed) : let result : Result := { handled := true, sendFeedback := expired }
    (d.arrive codec now p result).1.sendFeedback = expired ∧
      Arrives codec now d p (d.arrive codec now p result).1.frames (d.arrive codec now p result).2.1
        (d.arrive codec now p result).2.2 := by
  intro result
  unfold arrive
  cases unfinished : d.completed.lookup p.groupID with
  | some done =>
    dsimp only
    split
    · next differs => exact ⟨rfl, .otherEpoch unfinished differs⟩
    · next same => exact ⟨rfl, .late unfinished (not_not.mp same)⟩
  | none =>
    rcases openGroup_cases keyed now p with ⟨absent, many, opens⟩ | ⟨base, entered, found, opens⟩
    · rw [opens]
      exact ⟨rfl, .full unfinished absent many⟩
    · obtain ⟨frames, feedback, error, settles⟩ :=
        handleRecord_process (d := base) codec now (d.groupFor now p) p result
      rw [opens]
      refine ⟨feedback, ?_⟩
      rw [frames, error]
      exact .record unfinished entered found settles

/-! ## Groups keep their age and their identifier -/

theorem setDimensions_ok {sized : ReceiveGroup} {k r : Nat}
    (set : group.setDimensions k r = .ok sized) :
    (0 < k ∧ k ≤ maxDataShards ∧ r ≤ maxParityShards) ∧ (group.k ≠ 0 → group.k = k ∧ group.r = r) ∧
      sized = { group with k := k, r := r } := by
  unfold setDimensions at set
  split at set
  · cases set
  · split at set
    · cases set
    · cases set
      exact ⟨by omega, by omega, rfl⟩

/-- What a record does to its group, before the attempt to complete it. -/
inductive Receives (group : ReceiveGroup) (p : Packet) :
    Except String (List Bytes) × ReceiveGroup → Prop where
  | refused {err : String} : Receives group p (.error err, group)
  | known (kind : p.kind = .data) (valid : p.index < maxDataShards ∧ 3 ≤ p.payload.length)
      (delivered : group.delivered.has p.index = true) :
      Receives group p (.ok [], { group with
        data := Function.update group.data p.index
          (some ((group.data p.index).getD p.payload)) })
  | undecodable {err : String} (kind : p.kind = .data)
      (valid : p.index < maxDataShards ∧ 3 ≤ p.payload.length)
      (undelivered : group.delivered.has p.index = false)
      (fails : decodeDataShard ((group.data p.index).getD p.payload) = .error err) :
      Receives group p (.error err, { group with
        data := Function.update group.data p.index
          (some ((group.data p.index).getD p.payload)) })
  | delivers {frame : Bytes} (kind : p.kind = .data)
      (valid : p.index < maxDataShards ∧ 3 ≤ p.payload.length)
      (undelivered : group.delivered.has p.index = false)
      (decodes : decodeDataShard ((group.data p.index).getD p.payload) = .ok frame) :
      Receives group p (.ok [frame], { group with
        data := Function.update group.data p.index
          (some ((group.data p.index).getD p.payload))
        delivered := group.delivered.insert p.index })
  | badParity {sized : ReceiveGroup} (kind : p.kind = .parity)
      (set : group.setDimensions p.k p.r = .ok sized) :
      Receives group p (.error "invalid FEC parity shard", sized)
  | parity {sized : ReceiveGroup} (kind : p.kind = .parity)
      (set : group.setDimensions p.k p.r = .ok sized)
      (valid : p.index < sized.r ∧ p.payload ≠ []) :
      Receives group p (.ok [], { sized with
        parity := Function.update sized.parity p.index
          (some ((sized.parity p.index).getD p.payload)) })
  | close {sized : ReceiveGroup} (kind : p.kind = .close)
      (set : group.setDimensions p.k p.r = .ok sized) :
      Receives group p (.ok [], { sized with closed := true })
  | feedback (kind : p.kind = .feedback) : Receives group p (.ok [], group)

variable {p : Packet}

theorem receive_receives (group : ReceiveGroup) (p : Packet) :
    Receives group p (receive group p) := by
  unfold receive
  split
  · next kind =>
    split
    · exact .refused
    next invalid =>
    have valid : p.index < maxDataShards ∧ 3 ≤ p.payload.length := by omega
    by_cases delivered : group.delivered.has p.index = true
    · rw [if_pos delivered]
      exact .known kind valid delivered
    · rw [if_neg delivered]
      have undelivered := Bool.eq_false_iff.mpr delivered
      split
      · next fails => exact .undecodable kind valid undelivered fails
      · next decodes => exact .delivers kind valid undelivered decodes
  · next kind =>
    split
    · exact .refused
    next set =>
    split
    · exact .badParity kind set
    · next valid =>
      rw [not_or, not_le] at valid
      exact .parity kind set valid
  · next kind =>
    split
    · exact .refused
    · next set => exact .close kind set
  · next kind => exact .feedback kind

/-- What a record is received as is what its group stores, up to the frames that are marked. -/
theorem Receives.stores {frames : List Bytes} {stored : ReceiveGroup}
    (receives : Receives group p (.ok frames, stored)) (kind : p.kind ≠ .feedback) :
    ∃ kept delivered, group.Stores p kept ∧ stored = { kept with delivered } := by
  cases receives with
  | known isData valid | delivers isData valid => exact ⟨_, _, .data isData valid, rfl⟩
  | parity isParity set valid => exact ⟨_, _, .parity isParity set valid, rfl⟩
  | close isClose set => exact ⟨_, _, .close isClose set, rfl⟩
  | feedback isFeedback => exact absurd isFeedback kind

theorem receive_expiryEntry (group : ReceiveGroup) (p : Packet) :
    (receive group p).2.expiryEntry = group.expiryEntry := by
  have receives := receive_receives group p
  generalize receive group p = result at receives
  cases receives with
  | refused => rfl
  | known => rfl
  | undecodable => rfl
  | delivers => rfl
  | badParity _ set
  | parity _ set
  | close _ set =>
    obtain ⟨_, _, rfl⟩ := setDimensions_ok set
    rfl
  | feedback => rfl

theorem adopt_expiryEntry (restored : List Bytes) (slots : List Nat)
    (group : ReceiveGroup) (frames : List Bytes) :
    (adopt restored slots group frames).2.expiryEntry = group.expiryEntry := by
  induction slots generalizing group frames with
  | nil => rfl
  | cons slot slots ih =>
    rw [adopt]
    split
    · exact ih group frames
    · split
      · rfl
      · split
        · exact ih _ frames
        · exact ih _ _

/-- What comes of the attempt to complete a group. -/
inductive Completes (codec : Codec) (group : ReceiveGroup) :
    Except String Completion × ReceiveGroup → Prop where
  | waits : Completes codec group (.ok {}, group)
  /-- Finished with what has arrived. -/
  | lost (dimensioned : 0 < group.k) : Completes codec group
        (.ok { feedback := some
                (group.feedback (group.k - group.receivedData) 0)
               final := true }, group)
  | refused {err : String} (enough : group.Suffices)
      (invalid : codec.new group.k group.r = some err) : Completes codec group (.error err, group)
  | broken {restored : List Bytes} {err : String} {after : ReceiveGroup}
      (enough : group.Suffices) (valid : codec.new group.k group.r = none)
      (rebuilt : codec.reconstructData group.k group.r group.shards = .ok restored)
      (adopts : adopt restored (List.range group.k) group [] = (.error err, after)) :
      Completes codec group (.error err, after)
  | restored {restored frames : List Bytes} {after : ReceiveGroup} (dimensioned : 0 < group.k)
      (rebuilt : codec.reconstructData group.k group.r group.shards = .ok restored)
      (adopts : adopt restored (List.range group.k) group [] = (.ok frames, after)) :
      Completes codec group
        (.ok { frames := frames
               feedback := some (after.feedback
                (group.k - group.receivedData) frames.length)
               final := true }, after)

theorem tryComplete_completes (codec : Codec) (group : ReceiveGroup) :
    Completes codec group (tryComplete codec group) := by
  unfold tryComplete
  by_cases unknown : group.k = 0
  · rw [if_pos unknown]
    exact .waits
  · have dimensioned := Nat.pos_of_ne_zero unknown
    rw [if_neg unknown]
    by_cases complete : group.k - group.receivedData = 0
    · rw [if_pos complete]
      split
      · exact .lost dimensioned
      · exact .waits
    · rw [if_neg complete]
      by_cases few : group.receivedData + group.receivedParity < group.k
      · rw [if_pos few]
        split
        · exact .lost dimensioned
        · exact .waits
      · have enough : group.Suffices := ⟨by omega, by omega⟩
        rw [if_neg few]
        split
        · next invalid => exact .refused enough invalid
        next valid =>
        split
        · split
          · exact .lost dimensioned
          · exact .waits
        next restored rebuilt =>
        split
        · next adopts => exact .broken enough valid rebuilt adopts
        · next adopts => exact .restored dimensioned rebuilt adopts

theorem Completes.refused_of_restorable {codec : Codec} {after : ReceiveGroup} {err : String}
    (completes : Completes codec group (.error err, after)) (restorable : group.Restorable codec) :
    after = group ∧ group.Suffices ∧ codec.new group.k group.r = some err := by
  cases completes with
  | refused enough invalid => exact ⟨rfl, enough, invalid⟩
  | broken enough valid rebuilt adopts =>
    obtain ⟨i, listed, missing, lost⟩ := adopt_error adopts
    exact absurd (restorable enough valid _ rebuilt i (List.mem_range.mp listed) missing) lost

theorem tryComplete_expiryEntry (codec : Codec) (group : ReceiveGroup) :
    (tryComplete codec group).2.expiryEntry = group.expiryEntry := by
  have completes := tryComplete_completes codec group
  generalize tryComplete codec group = result at completes
  cases completes with
  | waits | lost | refused => rfl
  | @broken restored _ _ _ _ _ adopts | @restored restored _ _ _ _ adopts =>
    have kept := adopt_expiryEntry restored (List.range group.k) group []
    rw [adopts] at kept
    exact kept

/-- What comes of a record. -/
inductive Processes (codec : Codec) (group : ReceiveGroup) (p : Packet) : Outcome → Prop where
  | otherEpoch :
      Processes codec group p { group, error := some "FEC epoch changed within group" }
  | refused {stored : ReceiveGroup} {err : String}
      (receives : Receives group p (.error err, stored)) :
      Processes codec group p { group := stored, error := some err }
  | failed {stored after : ReceiveGroup} {frames : List Bytes} {err : String}
      (receives : Receives group p (.ok frames, stored))
      (completes : Completes codec stored (.error err, after)) :
      Processes codec group p { group := after, frames, error := some err }
  | stays {stored : ReceiveGroup} {frames : List Bytes}
      (receives : Receives group p (.ok frames, stored)) :
      Processes codec group p { group := stored, frames := frames ++ [] }
  | finishes {stored after : ReceiveGroup} {frames restored : List Bytes} {feedback : Feedback}
      (receives : Receives group p (.ok frames, stored))
      (completes : Completes codec stored (.ok ⟨restored, some feedback, true⟩, after)) :
      Processes codec group p
        { group := after, frames := frames ++ restored, finished := some feedback }

theorem process_processes (codec : Codec) (group : ReceiveGroup) (p : Packet) :
    Processes codec group p (group.process codec p) := by
  have receives := receive_receives group p
  unfold process
  split
  · exact .otherEpoch
  generalize receive group p = received at receives
  obtain ⟨err | frames, stored⟩ := received
  · exact .refused receives
  have completes := tryComplete_completes codec stored
  dsimp only
  generalize tryComplete codec stored = completed at completes
  obtain ⟨err | completion, after⟩ := completed
  · exact .failed receives completes
  cases completes with
  | waits => exact .stays receives
  | lost dimensioned => exact .finishes receives (.lost dimensioned)
  | restored dimensioned rebuilt adopts =>
    exact .finishes receives (.restored dimensioned rebuilt adopts)

theorem process_keeps {holds : ReceiveGroup → Prop} (codec : Codec) {group : ReceiveGroup}
    (p : Packet) (start : holds group) (received : holds (receive group p).2)
    (completed : ∀ stored, holds stored → holds (tryComplete codec stored).2) :
    holds (group.process codec p).group := by
  unfold process
  split
  · exact start
  · split
    · next stores => simpa [stores] using received
    next frames stored stores =>
    rw [stores] at received
    have done := completed stored received
    split
    · next fails =>
      rw [fails] at done
      exact done
    next completes =>
    rw [completes] at done
    split
    · exact done
    · exact done

theorem process_expiryEntry (codec : Codec) (group : ReceiveGroup) (p : Packet) :
    (group.process codec p).group.expiryEntry = group.expiryEntry :=
  @process_keeps (fun later => later.expiryEntry = group.expiryEntry) codec group p rfl
    (receive_expiryEntry group p)
    fun stored same => (tryComplete_expiryEntry codec stored).trans same

theorem process_groupID (codec : Codec) (group : ReceiveGroup) (p : Packet) :
    (group.process codec p).group.groupID = group.groupID :=
  congrArg ExpiryEntry.groupID (process_expiryEntry codec group p)

/-! ## One call and the facts about every group -/

theorem Every.keyed {open_ : Nat → ReceiveGroup → Prop} {done : Nat → CompletedGroup → Prop}
    {d : Decoder} (every : d.Every open_ done)
    (keys : ∀ id group, open_ id group → group.groupID = id) : d.Keyed :=
  fun id group found => keys id group (every.groups id group found)

theorem Keyed.every (keyed : d.Keyed) : d.Every (fun id group => group.groupID = id)
    fun _ _ => True :=
  ⟨keyed, fun _ _ _ => trivial⟩

theorem Keyed.sweeps {final : Decoder} {reports : List Feedback} (keyed : d.Keyed)
    (sweeps : Sweeps d reports final) : final.Keyed :=
  (keyed.every.sweeps sweeps).1.groups

theorem Every.expirePhase (every : d.Every open_ done) (keyed : d.Keyed) (now : Time) (p : Packet) :
    (d.expirePhase now p).2.Every open_ done ∧
      ∀ report ∈ (d.expirePhase now p).1, Reports open_ done report := by
  have sweeps := expire_sweeps keyed now
  obtain ⟨kept, expired⟩ := every.sweeps sweeps
  have moved : ((d.expire now).2.raise p.groupID).Every open_ done := ⟨kept.groups, kept.completed⟩
  have raised : ((d.expire now).2.raise p.groupID).Keyed := (keyed.sweeps sweeps :)
  obtain ⟨swept, stalled⟩ := moved.sweeps (fastExpire_sweeps raised now)
  exact ⟨swept, List.forall_mem_append.mpr ⟨expired, stalled⟩⟩

theorem Keyed.expirePhase (keyed : d.Keyed) (now : Time) (p : Packet) :
    (d.expirePhase now p).2.Keyed :=
  (keyed.every.expirePhase keyed now p).1.groups

theorem Every.arrives {open' : Nat → ReceiveGroup → Prop} {done' : Nat → CompletedGroup → Prop}
    {codec : Codec} {now : Time} {next : Decoder} {p : Packet} {frames : List Bytes}
    {error : Option String} (every : d.Every open_ done)
    (arrives : Arrives codec now d p frames error next)
    (keys : ∀ id group, open_ id group → group.groupID = id)
    (opens : ∀ id group, open_ id group → open' id group)
    (dones : ∀ id group, done id group → done' id group)
    (fresh : open_ p.groupID { created := now, epoch := p.epoch, groupID := p.groupID })
    (processed : ∀ outcome, outcome = (d.groupFor now p).process codec p →
      open_ p.groupID (d.groupFor now p) → d.completed.lookup p.groupID = none →
      (d.groups.lookup p.groupID = none → d.groups.entries.length < maxReceiveGroups) →
      outcome.frames = frames → outcome.error = error →
      (outcome.finished = none → open' p.groupID outcome.group) ∧
        ∀ feedback, outcome.finished = some feedback →
          done' p.groupID (outcome.group.complete now feedback))
    (late : ∀ group, d.completed.lookup p.groupID = some group → done p.groupID group →
      frames = (handleLateShard group p).2 → done' p.groupID (handleLateShard group p).1) :
    next.Every open' done' := by
  have kept := every.mono opens dones
  cases arrives with
  | otherEpoch | full => exact kept
  | late found =>
    exact kept.insertCompleted (late _ found (every.completed _ _ found) rfl)
  | @record base _ unfinished entered found settles =>
    have key := groupFor_groupID (every.keyed keys) now p
    have holds : open_ p.groupID (d.groupFor now p) := by
      unfold groupFor
      cases found : d.groups.lookup p.groupID with
      | none => exact fresh
      | some group => exact every.groups _ _ found
    have keptBase : base.Every open' done' := by
      rcases entered with ⟨_, rfl⟩ | ⟨_, _, rfl⟩
      · exact kept
      · exact kept.createGroup (key ▸ opens _ _ holds)
    have room : d.groups.lookup p.groupID = none → d.groups.entries.length < maxReceiveGroups :=
      fun absent => entered.elim (fun known => absurd absent known.1) fun new => new.2.1
    obtain ⟨stays, finishes⟩ := processed _ rfl holds unfinished room rfl rfl
    have outcomeKey := (process_groupID codec (d.groupFor now p) p).trans key
    rcases settles with rfl | rfl
    · exact keptBase
    unfold settle
    split
    · next feedback finished =>
      exact keptBase.finishGroup (outcomeKey ▸ finishes feedback finished)
    · next finished => exact keptBase.storeGroup (outcomeKey ▸ stays finished)

theorem Every.expireIdle (every : d.Every open_ done) (keyed : d.Keyed) (now : Time) :
    (d.expireIdle now).2.Every open_ done ∧
      ∀ report ∈ (d.expireIdle now).1, Reports open_ done report := by
  have sweeps := fastExpire_sweeps keyed now
  exact every.sweeps (sweeps.trans (expire_sweeps (keyed.sweeps sweeps) now))

end Decoder

/-- What one call can do. -/
inductive DecoderCall.Steps (codec : Codec) (d : Decoder) :
    DecoderCall → DecoderReply → Decoder → Prop where
  /-- A datagram that is no record, or a report of the other side. -/
  | quiet {now : Time} {datagram : Bytes} {error : Option String}
      (unread : ∀ p, parsePacket datagram = .ok (some p) → p.kind = .feedback) :
      Steps codec d (.handle now datagram) { error } d
  | record {now : Time} {datagram : Bytes} {p : Packet} {frames : List Bytes}
      {error : Option String} {next : Decoder}
      (parsed : parsePacket datagram = .ok (some p))
      (kind : p.kind ≠ .feedback)
      (arrives : Decoder.Arrives codec now (d.expirePhase now p).2 p frames error next) :
      Steps codec d (.handle now datagram)
        { frames, feedback := (d.expirePhase now p).1, error } next
  | expire {now : Time} : Steps codec d (.expire now) { feedback := (d.expireIdle now).1 }
        (d.expireIdle now).2

theorem DecoderCall.apply_steps (codec : Codec) {d : Decoder} (keyed : d.Keyed)
    (call : DecoderCall) : call.Steps codec d (call.apply codec d).1 (call.next codec d) := by
  cases call with
  | expire now => exact .expire
  | handle now datagram =>
    rw [next, apply]
    cases parsed : parsePacket datagram with
    | error err =>
      rw [Decoder.handle, parsed]
      exact .quiet (by simp [parsed])
    | ok read =>
      cases read with
      | none =>
        rw [Decoder.handle, parsed]
        exact .quiet (by simp [parsed])
      | some p =>
        by_cases kind : p.kind = .feedback
        · have unread : ∀ q, parsePacket datagram = .ok (some q) → q.kind = .feedback := by
            intro q again
            rw [parsed] at again
            cases again
            exact kind
          rw [Decoder.handle, parsed]
          simp only [if_pos kind]
          split
          · exact .quiet unread
          · exact .quiet unread
        · obtain ⟨feedback, arrives⟩ := Decoder.arrive_arrives codec now p
            (d.expirePhase now p).1 (keyed.expirePhase now p)
          rw [Decoder.handle_eq_arrive parsed kind]
          dsimp only at feedback ⊢
          rw [feedback]
          exact .record parsed kind arrives

end WgQuic.Fec
