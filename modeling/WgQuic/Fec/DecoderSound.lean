import WgQuic.Fec.DecoderStep
import WgQuic.Lib.ExpiryTable

/-!
# What a decoder holds

Whatever datagrams arrive, and at whatever times, the maps of a decoder stay
small, and the expiry queue stays in step with the incomplete groups.
-/

namespace WgQuic.Fec

open List ExpiryEntry AList

/-- The queue is ordered by age, and groups of one age by their identifiers. -/
def ExpiryEntry.rank (entry : ExpiryEntry) : Int ×ₗ Nat :=
  toLex (entry.created, entry.groupID)

theorem ExpiryEntry.less_iff {left right : ExpiryEntry} :
    left.less right = true ↔ left.rank < right.rank := by
  unfold less rank
  rw [Prod.Lex.toLex_lt_toLex]
  split
  · next same => simp [same]
  · next differs => simp [differs]

theorem ExpiryEntry.less_eq_before : less = IndexedHeap.before rank := by
  funext left right
  exact Bool.eq_iff_iff.mpr (ExpiryEntry.less_iff.trans decide_eq_true_iff.symm)

namespace Decoder

structure Sound (d : Decoder) : Prop where
  fewGroups : d.groups.entries.length ≤ maxReceiveGroups
  fewCompleted : d.completed.entries.length ≤ maxCompletedGroups
  apart : ∀ id group, d.groups.lookup id = some group → d.completed.lookup id = none
  tracks : ExpiryTable rank ExpiryEntry.groupID ReceiveGroup.expiryEntry d.groups d.groupExpiry
  latestGroup : ∀ id group, d.groups.lookup id = some group → id ≤ d.lastGroupID
  latestCompleted : ∀ id done, d.completed.lookup id = some done → id ≤ d.lastGroupID
  width : d.lastGroupID < 2 ^ 64

theorem sound_new : Sound {} where
  fewGroups := Nat.zero_le _
  fewCompleted := Nat.zero_le _
  apart _ _ _ := rfl
  tracks := .empty
  latestGroup _ _ found := by cases found
  latestCompleted _ _ found := by cases found
  width := by decide

variable {d : Decoder} {group later : ReceiveGroup} {now : Time}

namespace Sound

variable {id : Nat}

section

variable (sound : d.Sound)

include sound

theorem known (found : d.groups.lookup id = some group) :
    d.groups.lookup group.groupID = some group := by
  have key : group.groupID = id := sound.tracks.keyed id group found
  rw [key]
  exact found

theorem timed (next : Time) : Sound { d with nextExpiry := next } :=
  ⟨sound.fewGroups, sound.fewCompleted, sound.apart, sound.tracks, sound.latestGroup,
    sound.latestCompleted, sound.width⟩

theorem schedule (at_ : Time) : (d.scheduleExpiry at_).Sound := by
  unfold Decoder.scheduleExpiry
  split
  · exact sound.timed _
  · exact sound

theorem raise (fits : id < 2 ^ 64) : (d.raise id).Sound :=
  ⟨sound.fewGroups, sound.fewCompleted, sound.apart, sound.tracks,
    fun other group found => le_max_of_le_left (sound.latestGroup other group found),
    fun other done found => le_max_of_le_left (sound.latestCompleted other done found),
    max_lt sound.width fits⟩

theorem removeGroup (found : d.groups.lookup group.groupID = some group) :
    (d.removeGroup group).Sound := by
  have tracks := (sound.tracks.remove (sound.tracks.listed found)).1
  rw [← less_eq_before] at tracks
  exact ⟨length_erase_le.trans sound.fewGroups, sound.fewCompleted,
    fun id other kept => sound.apart id other (lookup_erase_cases kept).2, tracks,
    fun id other kept => sound.latestGroup id other (lookup_erase_cases kept).2,
    sound.latestCompleted, sound.width⟩

theorem eraseCompleted (id : Nat) : Sound { d with completed := d.completed.erase id } := by
  refine ⟨sound.fewGroups, length_erase_le.trans sound.fewCompleted, ?_, sound.tracks,
    sound.latestGroup,
    fun other done kept => sound.latestCompleted other done (lookup_erase_cases kept).2,
    sound.width⟩
  intro other group found
  by_cases same : other = id
  · subst same
    exact lookup_erase _ _
  · exact (lookup_erase_ne same).trans (sound.apart other group found)

theorem insertCompleted (done : CompletedGroup)
    (room : (d.completed.insert id done).entries.length ≤ maxCompletedGroups)
    (absent : d.groups.lookup id = none) (old : id ≤ d.lastGroupID) :
    Sound { d with completed := d.completed.insert id done } := by
  refine ⟨sound.fewGroups, room, ?_, sound.tracks, sound.latestGroup, ?_, sound.width⟩
  · intro other group found
    have different : other ≠ id := by
      rintro rfl
      rw [absent] at found
      cases found
    rw [lookup_insert_ne different]
    exact sound.apart other group found
  · exact forall_insert old sound.latestCompleted

theorem storeGroup (found : d.groups.lookup group.groupID = some group)
    (same : later.expiryEntry = group.expiryEntry) : (d.storeGroup later).Sound := by
  have key : later.groupID = group.groupID := congrArg ExpiryEntry.groupID same
  have present : d.groups.lookup group.groupID ≠ none := by simp [found]
  unfold Decoder.storeGroup
  rw [key]
  refine ⟨(length_insert present).trans_le sound.fewGroups, sound.fewCompleted, ?_,
    sound.tracks.replace found same, ?_, sound.latestCompleted, sound.width⟩
  · exact forall_insert (sound.apart _ _ found) sound.apart
  · exact forall_insert (sound.latestGroup _ _ found) sound.latestGroup

theorem createGroup (absent : d.groups.lookup group.groupID = none)
    (unfinished : d.completed.lookup group.groupID = none)
    (room : d.groups.entries.length < maxReceiveGroups)
    (old : group.groupID ≤ d.lastGroupID) : (d.createGroup now group).Sound := by
  have tracks := sound.tracks.insert absent
  rw [← less_eq_before] at tracks
  have entered : Sound { d.storeGroup group with
      groupExpiry := d.groupExpiry.push less group.expiryEntry } := by
    refine ⟨length_insert_le.trans room, sound.fewCompleted, ?_, tracks, ?_,
      sound.latestCompleted, sound.width⟩
    · exact forall_insert unfinished sound.apart
    · exact forall_insert old sound.latestGroup
  exact entered.schedule _

end

end Sound

theorem oldest_listed (entries : List (Sigma fun _ : Nat => CompletedGroup)) (best : Nat × Time) :
    (entries.foldl (fun (best : Nat × Time) entry =>
        if best.2 = 0 ∨ entry.2.finalized < best.2 then (entry.1, entry.2.finalized)
        else best) best).1 ∈ best.1 :: entries.keys := by
  induction entries generalizing best with
  | nil => exact mem_cons_self
  | cons entry rest ih =>
    rw [foldl_cons]
    split
    · exact mem_cons_of_mem _ (ih _)
    · rcases mem_cons.mp (ih best) with same | listed
      · rw [same]
        exact mem_cons_self
      · exact mem_cons_of_mem _ (mem_cons_of_mem _ listed)

@[simp] theorem limitCompleted_groups : d.limitCompleted.groups = d.groups := by
  unfold limitCompleted
  split <;> rfl

@[simp] theorem limitCompleted_lastGroupID : d.limitCompleted.lastGroupID = d.lastGroupID := by
  unfold limitCompleted
  split <;> rfl

theorem Sound.limitCompleted (sound : d.Sound) : d.limitCompleted.Sound ∧
      d.limitCompleted.completed.entries.length < maxCompletedGroups := by
  unfold Decoder.limitCompleted
  split
  · next few => exact ⟨sound, few⟩
  next many =>
  refine ⟨sound.eraseCompleted _, ?_⟩
  cases entries : d.completed.entries with
  | nil =>
    rw [entries] at many
    exact absurd (by decide) many
  | cons entry rest =>
    have listed := oldest_listed rest (entry.1, entry.2.finalized)
    rw [← keys_cons, ← entries] at listed
    have erased := length_erase (fun absent => lookup_eq_none.mp absent listed)
    exact Nat.lt_of_lt_of_le (Nat.lt_of_succ_le erased.le) sound.fewCompleted

theorem Sound.finishGroup (sound : d.Sound) (found : d.groups.lookup group.groupID = some group)
    (same : later.expiryEntry = group.expiryEntry) (feedback : Feedback) :
    (d.finishGroup now later feedback).Sound := by
  have key : later.groupID = group.groupID := congrArg ExpiryEntry.groupID same
  have removed : d.removeGroup later = d.removeGroup group := by
    unfold Decoder.removeGroup
    rw [key, same]
  obtain ⟨limited, room⟩ := (sound.removeGroup found).limitCompleted
  unfold Decoder.finishGroup
  rw [removed, key]
  refine (limited.insertCompleted _ (length_insert_le.trans room) ?_ ?_).schedule _
  · rw [limitCompleted_groups]
    exact lookup_erase _ _
  · rw [limitCompleted_lastGroupID]
    exact sound.latestGroup _ _ found

namespace Sound

variable (sound : d.Sound)

include sound

theorem keyed : d.Keyed := sound.tracks.keyed

theorem sweeps {final : Decoder} {reports : List Feedback} (sweeps : Sweeps d reports final) :
    final.Sound := by
  induction sweeps with
  | done => exact sound
  | timed next _ ih => exact ih (sound.timed next)
  | drop _ found _ _ ih => exact ih (sound.removeGroup found)
  | forget _ _ _ _ ih => exact ih (sound.eraseCompleted _)

theorem expire (now : Time) : (d.expire now).2.Sound := sound.sweeps (expire_sweeps sound.keyed now)

theorem fastExpire (now : Time) : (d.fastExpire now).2.Sound :=
  sound.sweeps (fastExpire_sweeps sound.keyed now)

end Sound

theorem handleLateShard_finalized (done : CompletedGroup) (p : Packet) :
    (handleLateShard done p).1.finalized = done.finalized := by
  unfold handleLateShard
  split
  · rfl
  · split
    · rfl
    · split
      · rfl
      · split
        · rfl
        · rfl

namespace Sound

variable (sound : d.Sound) {p : Packet}

include sound

theorem arrives {codec : Codec} {frames : List Bytes} {error : Option String} {next : Decoder}
    (arrives : Arrives codec now d p frames error next) (old : p.groupID ≤ d.lastGroupID) :
    next.Sound := by
  cases arrives with
  | otherEpoch | full => exact sound
  | late found =>
    have absent : d.groups.lookup p.groupID = none := by
      by_contra held
      obtain ⟨group, stored⟩ := Option.ne_none_iff_exists'.mp held
      rw [sound.apart _ group stored] at found
      cases found
    exact sound.insertCompleted _
      ((length_insert (by simp [found])).trans_le sound.fewCompleted) absent
      (sound.latestCompleted _ _ found)
  | @record base _ unfinished entered found settles =>
    have key := groupFor_groupID sound.keyed now p
    have baseSound : base.Sound := by
      rcases entered with ⟨_, rfl⟩ | ⟨absent, room, rfl⟩
      · exact sound
      · exact sound.createGroup (key ▸ absent) (key ▸ unfinished) room (key ▸ old)
    have same := process_expiryEntry codec (d.groupFor now p) p
    rcases settles with rfl | rfl
    · exact baseSound
    unfold settle
    split
    · exact baseSound.finishGroup found same _
    · exact baseSound.storeGroup found same

theorem expirePhase (now : Time) (fits : p.Fits) :
    (d.expirePhase now p).2.Sound ∧ p.groupID ≤ (d.expirePhase now p).2.lastGroupID := by
  have raised := (sound.expire now).raise fits.groupID
  refine ⟨raised.fastExpire now, ?_⟩
  exact (le_max_right _ _).trans_eq (fastExpire_sweeps raised.keyed now).lastGroupID.symm

theorem step {codec : Codec} {call : DecoderCall} {reply : DecoderReply} {next : Decoder}
    (steps : call.Steps codec d reply next) : next.Sound := by
  cases steps with
  | quiet => exact sound
  | expire => exact (sound.fastExpire _).expire _
  | @record now _ p _ _ _ parsed _ arrives =>
    obtain ⟨swept, old⟩ := sound.expirePhase now (parsePacket_ok parsed).1
    exact swept.arrives arrives old

end Sound

end Decoder

theorem decoderAfter_sound (codec : Codec) (calls : List DecoderCall) :
    (decoderAfter codec calls).Sound := by
  induction calls using List.reverseRecOn with
  | nil => exact Decoder.sound_new
  | append_singleton calls call ih =>
    rw [decoderAfter_concat]
    exact ih.step (call.apply_steps codec ih.keyed)

/-- `ReconstructData` fills a slot with a shard no longer than those it has. -/
def Codec.Sized (codec : Codec) : Prop :=
  ∀ {k r width shards restored}, (∀ shard, some shard ∈ shards → shard.length ≤ width) →
    codec.reconstructData k r shards = .ok restored → ∀ shard ∈ restored, shard.length ≤ width

structure ReceiveGroup.Bounded (group : ReceiveGroup) : Prop where
  data : ∀ i shard, group.data i = some shard → i < maxDataShards ∧ shard.length ≤ maxFrameSize + 2
  parity : ∀ i shard, group.parity i = some shard →
    i < group.r ∧ shard.length ≤ maxFrameSize + 2 ∧ 0 < group.k
  dataShards : group.k ≤ maxDataShards
  parityShards : group.r ≤ maxParityShards

namespace ReceiveGroup.Bounded

variable {group sized : ReceiveGroup} {p : Packet}

theorem fresh (now : Time) (epoch groupID : Nat) :
    ReceiveGroup.Bounded { created := now, epoch, groupID } :=
  ⟨nofun, nofun, Nat.zero_le _, Nat.zero_le _⟩

variable {shard : Bytes} {slots : Nat → Option Bytes}

theorem stored_cases {i j : Nat} {stored : Bytes}
    (found : Function.update slots i (some shard) j = some stored) :
    j = i ∧ stored = shard ∨ slots j = some stored := by
  by_cases same : j = i
  · subst same
    rw [Function.update_self] at found
    exact .inl ⟨rfl, (Option.some.inj found).symm⟩
  · rw [Function.update_of_ne same] at found
    exact .inr found

theorem setData (bounded : group.Bounded) {i : Nat} (bound : i < maxDataShards)
    (short : shard.length ≤ maxFrameSize + 2) (reconstructed delivered : Bitmap) :
    ReceiveGroup.Bounded { group with
      data := Function.update group.data i (some shard), reconstructed, delivered } := by
  refine ⟨?_, bounded.parity, bounded.dataShards, bounded.parityShards⟩
  intro j stored found
  rcases stored_cases found with ⟨rfl, rfl⟩ | kept
  · exact ⟨bound, short⟩
  · exact bounded.data j stored kept

theorem getD_length {stored : Option Bytes} {limit : Nat}
    (held : ∀ shard, stored = some shard → shard.length ≤ limit)
    (fits : p.payload.length ≤ limit) : (stored.getD p.payload).length ≤ limit := by
  cases stored with
  | none => exact fits
  | some shard => exact held shard rfl

section

variable (bounded : group.Bounded)

include bounded

theorem setDimensions
    (set : group.setDimensions p.k p.r = .ok sized) : sized.Bounded ∧ 0 < sized.k := by
  obtain ⟨⟨positive, few, fewParity⟩, same, rfl⟩ := Decoder.setDimensions_ok set
  refine ⟨⟨bounded.data, ?_, few, fewParity⟩, positive⟩
  intro i shard found
  obtain ⟨below, short, dimensioned⟩ := bounded.parity i shard found
  obtain ⟨_, sameR⟩ := same (Nat.ne_of_gt dimensioned)
  exact ⟨sameR ▸ below, short, positive⟩

theorem receive (fits : p.payload.length ≤ maxFrameSize + 2) :
    (Decoder.receive group p).2.Bounded := by
  have short : ((group.data p.index).getD p.payload).length ≤ maxFrameSize + 2 :=
    getD_length (fun shard found => (bounded.data _ shard found).2) fits
  have receives := Decoder.receive_receives group p
  generalize Decoder.receive group p = result at receives
  cases receives with
  | refused | feedback => exact bounded
  | known _ valid | undecodable _ valid | delivers _ valid =>
    exact bounded.setData valid.1 short _ _
  | badParity _ set => exact (bounded.setDimensions set).1
  | @parity sized _ set valid =>
    obtain ⟨bounded, positive⟩ := bounded.setDimensions set
    refine ⟨bounded.data, ?_, bounded.dataShards, bounded.parityShards⟩
    intro i shard found
    rcases stored_cases found with ⟨rfl, rfl⟩ | kept
    · exact ⟨valid.1, getD_length (fun shard found => (bounded.parity _ shard found).2.1) fits,
        positive⟩
    · exact bounded.parity i shard kept
  | close _ set =>
    obtain ⟨bounded, _⟩ := bounded.setDimensions set
    exact ⟨bounded.data, bounded.parity, bounded.dataShards, bounded.parityShards⟩

theorem adopt {restored : List Bytes} (short : ∀ shard ∈ restored, shard.length ≤ maxFrameSize + 2)
    (slots : List Nat) (inRange : ∀ i ∈ slots, i < maxDataShards) (frames : List Bytes) :
    (ReceiveGroup.adopt restored slots group frames).2.Bounded := by
  induction slots generalizing group frames with
  | nil => exact bounded
  | cons slot slots ih =>
    have restRange : ∀ i ∈ slots, i < maxDataShards :=
      fun i member => inRange i (mem_cons_of_mem _ member)
    have shardShort : (restored.getD slot []).length ≤ maxFrameSize + 2 := by
      rw [getD_eq_getElem?_getD]
      cases found : restored[slot]? with
      | none => exact Nat.zero_le _
      | some shard => exact short shard (mem_of_getElem? found)
    have stored := bounded.setData (inRange slot mem_cons_self) shardShort
    rw [ReceiveGroup.adopt]
    split
    · exact ih bounded restRange frames
    · split
      · exact bounded
      · split
        · exact ih (stored _ _) restRange frames
        · exact ih (stored _ _) restRange _

theorem shards_short (listed : some shard ∈ group.shards) : shard.length ≤ maxFrameSize + 2 := by
  have limit : group.shardSize ≤ maxFrameSize + 2 := by
    refine shardSizeOf_le fun stored member => ?_
    rcases mem_append.mp member with inData | inParity
    · obtain ⟨i, _, found⟩ := mem_filterMap.mp inData
      exact (bounded.data i stored found).2
    · obtain ⟨i, _, found⟩ := mem_filterMap.mp inParity
      exact (bounded.parity i stored found).2.1
  have padded : ∀ {stored : Bytes}, stored ∈ (List.range maxDataShards).filterMap group.data ++
      (List.range maxParityShards).filterMap group.parity →
      (padShard stored group.shardSize).length ≤ maxFrameSize + 2 :=
    fun member => (padShard_length (le_shardSizeOf member)).trans_le limit
  rcases mem_append.mp listed with inData | inParity
  · obtain ⟨i, _, found⟩ := mem_map.mp inData
    obtain ⟨stored, here, rfl⟩ := Option.map_eq_some_iff.mp found
    refine padded (mem_append_left _ (mem_filterMap.mpr ⟨i, ?_, here⟩))
    exact mem_range.mpr (bounded.data i stored here).1
  · obtain ⟨i, _, found⟩ := mem_map.mp inParity
    obtain ⟨stored, here, rfl⟩ := Option.map_eq_some_iff.mp found
    refine padded (mem_append_right _ (mem_filterMap.mpr ⟨i, ?_, here⟩))
    exact mem_range.mpr ((bounded.parity i stored here).1.trans_le bounded.parityShards)

theorem tryComplete {codec : Codec} (fills : codec.Sized) :
    (tryComplete codec group).2.Bounded := by
  have inRange : ∀ i ∈ List.range group.k, i < maxDataShards :=
    fun i member => (mem_range.mp member).trans_le bounded.dataShards
  have completes := Decoder.tryComplete_completes codec group
  generalize WgQuic.Fec.tryComplete codec group = result at completes
  cases completes with
  | waits | lost | refused => exact bounded
  | broken _ _ rebuilt adopts | restored _ rebuilt adopts =>
    have after := bounded.adopt
      (fills (fun shard listed => bounded.shards_short listed) rebuilt) _ inRange []
    rw [adopts] at after
    exact after

theorem process {codec : Codec} (fills : codec.Sized)
    (fits : p.payload.length ≤ maxFrameSize + 2) : (group.process codec p).group.Bounded :=
  Decoder.process_keeps codec p bounded (bounded.receive fits)
    fun _ stored => stored.tryComplete fills

end

theorem count_le {limit : Nat} (below : ∀ i shard, slots i = some shard → i < limit) :
    {i | (slots i).isSome}.encard ≤ limit := by
  have inside : {i | (slots i).isSome} ⊆ (Finset.range limit : Set Nat) := by
    intro i held
    obtain ⟨shard, found⟩ := Option.isSome_iff_exists.mp held
    exact Finset.mem_coe.mpr (Finset.mem_range.mpr (below i shard found))
  refine (Set.encard_le_encard inside).trans ?_
  rw [Set.encard_coe_eq_coe_finsetCard, Finset.card_range]

end ReceiveGroup.Bounded

/-- The group of an identifier and its shards. -/
def Decoder.Holding (id : Nat) (group : ReceiveGroup) : Prop :=
  group.groupID = id ∧ group.Bounded

theorem Decoder.Every.holding {codec : Codec} (fills : codec.Sized) {d next : Decoder}
    {call : DecoderCall} {reply : DecoderReply} (every : d.Every Holding fun _ _ => True)
    (steps : call.Steps codec d reply next) : next.Every Holding fun _ _ => True := by
  have keyed := every.keyed fun _ _ holding => holding.1
  cases steps with
  | quiet => exact every
  | expire => exact (every.expireIdle keyed _).1
  | @record now datagram p _ _ _ parsed _ arrives =>
    refine Every.arrives (every.expirePhase keyed now p).1 arrives (fun _ _ holding => holding.1)
      (fun _ _ holding => holding) (fun _ _ _ => trivial)
      ⟨rfl, .fresh now p.epoch p.groupID⟩ ?_ (fun _ _ _ _ => trivial)
    rintro outcome rfl ⟨key, bounded⟩ - - - -
    refine ⟨fun _ => ⟨?_, bounded.process fills (parsePacket_ok parsed).1.payload⟩,
      fun _ _ => trivial⟩
    exact (process_groupID codec _ p).trans key

theorem decoderAfter_holding {codec : Codec} (fills : codec.Sized) (calls : List DecoderCall) :
    (decoderAfter codec calls).Every Decoder.Holding fun _ _ => True := by
  induction calls using List.reverseRecOn with
  | nil => exact .new
  | append_singleton calls call ih =>
    rw [decoderAfter_concat]
    exact ih.holding fills
      (call.apply_steps codec (Decoder.Every.keyed ih fun _ _ holding => holding.1))

/-- The maps of a decoder are bounded and disjoint, the expiry queue is that of the
incomplete groups, and the shards of a group are few and short. -/
theorem decoder_invariants {codec : Codec} (fills : codec.Sized) (calls : List DecoderCall) :
    let d := decoderAfter codec calls
    d.groups.entries.length ≤ maxReceiveGroups ∧ d.completed.entries.length ≤ maxCompletedGroups ∧
      (∀ id, d.groups.lookup id = none ∨ d.completed.lookup id = none) ∧
      (d.groupExpiry.items.Nodup ∧ ∀ entry, entry ∈ d.groupExpiry.items ↔
          ∃ group, d.groups.lookup entry.groupID = some group ∧ group.expiryEntry = entry) ∧
      (∀ (place : Nat) entry, d.groupExpiry.items[place]? = some entry →
        d.groupExpiry.position entry = place) ∧
      (∀ child upper lower, 0 < child → d.groupExpiry.items[(child - 1) / 2]? = some upper →
        d.groupExpiry.items[child]? = some lower → lower.less upper = false) ∧
      (∀ id, d.groups.lookup id ≠ none ∨ d.completed.lookup id ≠ none → id ≤ d.lastGroupID) ∧
      ∀ id group, d.groups.lookup id = some group → group.groupID = id ∧
        {i | (group.data i).isSome}.encard ≤ maxDataShards ∧
        (∀ i shard, group.data i = some shard → i < maxDataShards ∧ shard.length ≤ 4098) ∧
        {i | (group.parity i).isSome}.encard ≤ maxParityShards ∧
        ∀ i shard, group.parity i = some shard → i < group.r ∧ shard.length ≤ 4098 := by
  intro d
  have sound : d.Sound := decoderAfter_sound codec calls
  have heap := sound.tracks.wellFormed
  refine ⟨sound.fewGroups, sound.fewCompleted, ?_, ⟨heap.nodup, sound.tracks.tracked⟩,
    heap.position, ?_, ?_, ?_⟩
  · intro id
    cases found : d.groups.lookup id with
    | none => exact .inl rfl
    | some group => exact .inr (sound.apart id group found)
  · intro child upper lower positive atUpper atLower
    have bound : child < d.groupExpiry.size := (List.getElem?_eq_some_iff.mp atLower).1
    refine Bool.eq_false_iff.mpr fun earlier => ?_
    exact (ExpiryEntry.less_iff.mp earlier).not_ge
      (heap.ordered child positive bound upper lower atUpper atLower)
  · rintro id (held | held)
    · obtain ⟨group, found⟩ := Option.ne_none_iff_exists'.mp held
      exact sound.latestGroup id group found
    · obtain ⟨done, found⟩ := Option.ne_none_iff_exists'.mp held
      exact sound.latestCompleted id done found
  · intro id group found
    obtain ⟨key, bounded⟩ := (decoderAfter_holding fills calls).groups id group found
    refine ⟨key, ReceiveGroup.Bounded.count_le fun i shard held => (bounded.data i shard held).1,
      bounded.data, ReceiveGroup.Bounded.count_le fun i shard held => ?_, fun i shard held => ?_⟩
    · exact (bounded.parity i shard held).1.trans_le bounded.parityShards
    · exact ⟨(bounded.parity i shard held).1, (bounded.parity i shard held).2.1⟩

theorem interpolationCodec_sized : interpolationCodec.Sized := by
  intro k r width shards restored short rebuilt shard member
  cases rebuilt
  obtain ⟨symbols, listed, rfl⟩ := mem_map.mp member
  obtain ⟨i, _, rfl⟩ := mem_map.mp listed
  rw [ofField, length_map, length_map, length_range, shardWidth]
  cases present : shards.filterMap id with
  | nil => exact Nat.zero_le _
  | cons first rest =>
    have here : first ∈ shards.filterMap id := present ▸ mem_cons_self
    obtain ⟨_, there, rfl⟩ := mem_filterMap.mp here
    exact short first there

/-- A group of one frame is complete, and another one waits for its close record. -/
def openAndComplete : List DecoderCall :=
  [.handle 1 (marshalPacket { kind := .data, groupID := 7, payload := [0, 1, 9] }),
    .handle 2 (marshalPacket { kind := .close, groupID := 7, k := 1, r := 0 }),
    .handle 3 (marshalPacket { kind := .data, groupID := 8, index := 3, payload := [0, 1, 9] })]

theorem decoder_invariants_first : let d := decoderAfter interpolationCodec openAndComplete
    (d.completed.lookup 7).isSome ∧ d.groups.lookup 7 = none ∧ 7 ≤ d.lastGroupID ∧
      ∃ group, d.groups.lookup 8 = some group ∧ group.groupID = 8 ∧
        {i | (group.data i).isSome}.encard ≤ maxDataShards ∧
        group.expiryEntry ∈ d.groupExpiry.items := by
  have invariants := decoder_invariants interpolationCodec_sized openAndComplete
  have complete : ((decoderAfter interpolationCodec openAndComplete).completed.lookup 7).isSome :=
    by decide +kernel
  have held : ((decoderAfter interpolationCodec openAndComplete).groups.lookup 8).isSome := by
    decide +kernel
  generalize decoderAfter interpolationCodec openAndComplete = d at *
  obtain ⟨_, _, apart, ⟨_, tracked⟩, _, _, latest, shards⟩ := invariants
  obtain ⟨group, found⟩ := Option.isSome_iff_exists.mp held
  obtain ⟨key, few, -⟩ := shards 8 group found
  have known := Option.isSome_iff_ne_none.mp complete
  exact ⟨complete, (apart 7).resolve_right known, latest 7 (.inr known), group, found, key, few,
    (tracked _).mpr ⟨group, by rwa [show group.expiryEntry.groupID = 8 from key], rfl⟩⟩

end WgQuic.Fec
