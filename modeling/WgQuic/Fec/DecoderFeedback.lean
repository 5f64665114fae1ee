import WgQuic.Fec.DecoderStep

/-!
# The feedback a decoder sends

The counters of a finished group follow its bitmaps: `recovered` counts the
frames that were reconstructed, and `missing` these and the ones that were
never delivered.  A shard whose frame cannot be decoded breaks this, because it
is kept as received but not as delivered.
-/

namespace WgQuic.Fec

open List Bitmap

theorem countP_range_erase {k i : Nat} (holds : Nat → Bool) (bound : i < k)
    (at_i : holds i = true) :
    (List.range k).countP holds =
      (List.range k).countP (fun j => holds j && decide (j ≠ i)) + 1 := by
  induction k with
  | zero => exact (Nat.not_lt_zero i bound).elim
  | succ k ih =>
    rw [range_succ, countP_append]
    by_cases last : i = k
    · subst last
      have same : (List.range i).countP holds =
          (List.range i).countP (fun j => holds j && decide (j ≠ i)) := by
        apply countP_congr
        intro j member
        have different := Nat.ne_of_lt (mem_range.mp member)
        simp [different]
      rw [same]
      simp [at_i]
    · rw [ih (by omega)]
      have other : k ≠ i := fun same => last same.symm
      simp [other]
      omega

theorem countP_add_countP_le {α : Type} (list : List α) (left right : α → Bool)
    (apart : ∀ item ∈ list, left item = true → right item = false) :
    list.countP left + list.countP right ≤ list.length := by
  induction list with
  | nil => rfl
  | cons item list ih =>
    have rest := ih fun other member =>
      apart other (mem_cons_of_mem _ member)
    have here := apart item mem_cons_self
    rw [countP_cons, countP_cons]
    cases atLeft : left item with
    | true =>
      rw [here atLeft]
      simp
      omega
    | false =>
      cases right item <;> simp <;> omega

theorem Bitmap.has_erase (bitmap : Bitmap) {i j : Nat} (bound : j < 64) :
    (erase bitmap i).has j = (bitmap.has j && decide (j ≠ i)) := by
  simp only [Bitmap.has, erase, BitVec.getLsbD_and,
    BitVec.getLsbD_not, BitVec.getLsbD_shiftLeft, BitVec.getLsbD_one]
  by_cases same : j = i
  · simp [same]
  · by_cases less : j < i
    · simp [same, bound, less]
    · have later : j - i ≠ 0 := by omega
      simp [same, bound, less, later]

/-- Every shard that is kept has been delivered. -/
structure ReceiveGroup.Tidy (id : Nat) (group : ReceiveGroup) : Prop where
  key : group.groupID = id
  small : group.k ≤ maxDataShards
  delivered : ∀ i < maxDataShards, group.delivered.has i = (group.data i).isSome
  original : ∀ i < maxDataShards, group.reconstructed.has i = false

structure CompletedGroup.Tidy (done : CompletedGroup) : Prop where
  dimensioned : 0 < done.k
  small : done.k ≤ maxDataShards
  recovered : done.recovered = (List.range done.k).countP fun i => done.reconstructed.has i
  missing : done.missing = done.recovered +
    (List.range done.k).countP fun i => !done.delivered.has i
  restored : ∀ i < done.k, done.reconstructed.has i = true → done.delivered.has i = true

variable {done : CompletedGroup}

theorem CompletedGroup.Tidy.bounds (tidy : done.Tidy) :
    done.recovered ≤ done.missing ∧ done.missing ≤ done.k := by
  have total := countP_add_countP_le (List.range done.k)
    (fun i => done.reconstructed.has i) (fun i => !done.delivered.has i) <| by
    intro i member restored
    rw [tidy.restored i (mem_range.mp member) restored]
    rfl
  rw [length_range] at total
  rw [tidy.missing, tidy.recovered]
  omega

namespace ReceiveGroup.Tidy

variable {id : Nat} {group : ReceiveGroup}

theorem receivedData (tidy : group.Tidy id) : group.receivedData =
      (List.range group.k).countP fun i => group.delivered.has i := by
  apply countP_congr
  intro i member
  have bound := Nat.lt_of_lt_of_le (mem_range.mp member) tidy.small
  rw [tidy.delivered i bound]

theorem setDimensions (tidy : group.Tidy id) {sized : ReceiveGroup} {k r : Nat}
    (set : group.setDimensions k r = .ok sized) : sized.Tidy id := by
  obtain ⟨⟨_, small, _⟩, _, rfl⟩ := Decoder.setDimensions_ok set
  exact ⟨tidy.key, small, tidy.delivered, tidy.original⟩

theorem receive (tidy : group.Tidy id) {p : Packet}
    {result : Except String (List Bytes) × ReceiveGroup}
    (receives : Decoder.Receives group p result)
    (decodes : ∀ stored, group.Stores p stored → p.kind = .data →
      group.delivered.has p.index = false → HasFrame ((group.data p.index).getD p.payload)) :
    result.2.Tidy id := by
  cases receives with
  | refused => exact tidy
  | known _ _ delivered =>
    -- The frame is there already, and so is its shard.
    refine ⟨tidy.key, tidy.small, ?_, tidy.original⟩
    intro i small
    by_cases same : i = p.index
    · subst same
      simpa using delivered
    · simpa [Function.update_of_ne same] using tidy.delivered i small
  | undecodable kind valid undelivered fails =>
    obtain ⟨frame, ok⟩ := decodes _ (.data kind valid) kind undelivered
    cases fails.symm.trans ok
  | delivers =>
    refine ⟨tidy.key, tidy.small, ?_, tidy.original⟩
    intro i small
    dsimp only
    rw [has_insert _ (Nat.lt_trans small (by decide))]
    by_cases same : i = p.index
    · simp [same]
    · rw [Function.update_of_ne same, tidy.delivered i small]
      simp [Ne.symm same]
  | badParity _ set => exact tidy.setDimensions set
  | parity _ set
  | close _ set =>
    have kept := tidy.setDimensions set
    exact ⟨kept.key, kept.small, kept.delivered, kept.original⟩
  | feedback => exact tidy

/-- A finished group starts with the right counters. -/
theorem finishes (tidy : group.Tidy id) {codec : Codec} {frames : List Bytes} {feedback : Feedback}
    {after : ReceiveGroup}
    (completes : Decoder.Completes codec group (.ok ⟨frames, some feedback, true⟩, after))
    (now : Time) : (after.complete now feedback).Tidy := by
  have small : group.k ≤ maxDataShards := tidy.small
  have missing : group.k - group.receivedData =
      (List.range group.k).countP fun i => !group.delivered.has i := by
    rw [tidy.receivedData]
    have total := length_eq_countP_add_countP
      (fun i => group.delivered.has i) (l := List.range group.k)
    rw [length_range] at total
    simp only [Bool.not_eq_true, Bool.decide_eq_false] at total
    omega
  have below : (group.k - group.receivedData) % 2 ^ 16 = group.k - group.receivedData :=
    Nat.mod_eq_of_lt (Nat.lt_of_le_of_lt (Nat.le_trans (Nat.sub_le _ _) small) (by decide))
  have inRange : ∀ i ∈ List.range group.k, i < maxDataShards :=
    fun i member => Nat.lt_of_lt_of_le (mem_range.mp member) small
  cases completes with
  | lost dimensioned =>
    have none_ : (List.range group.k).countP (fun i => group.reconstructed.has i) = 0 := by
      rw [countP_eq_zero]
      intro i member
      rw [tidy.original i (inRange i member)]
      simp
    refine ⟨dimensioned, small, none_.symm, ?_, ?_⟩
    · simp only [ReceiveGroup.complete, ReceiveGroup.feedback]
      rw [below, missing]
      simp
    · intro i bound restored
      rw [ReceiveGroup.complete, tidy.original i (Nat.lt_of_lt_of_le bound small)] at restored
      cases restored
  | restored dimensioned _ adopts =>
    have within : ∀ i ∈ List.range group.k, i < 64 :=
      fun i member => Nat.lt_trans (inRange i member) (by decide)
    obtain ⟨rest, returned, bits, marks⟩ := adopt_ok adopts nodup_range within
      fun i member => tidy.delivered i (inRange i member)
    have k : after.k = group.k := by rw [rest]
    have empty : (List.range group.k).countP (fun i => (group.data i).isNone) =
        group.k - group.receivedData := by
      rw [missing]
      apply countP_congr
      intro i member
      rw [tidy.delivered i (inRange i member)]
      simp
    have marked : (List.range group.k).countP (fun i => after.reconstructed.has i) =
        group.k - group.receivedData := by
      rw [← empty]
      apply countP_congr
      intro i member
      rw [marks i (within i member), tidy.original i (inRange i member)]
      simp [mem_range.mp member]
    have all : ∀ i < group.k, after.delivered.has i = true := by
      intro i bound
      rw [bits i (within i (mem_range.mpr bound))]
      simp [bound]
    have none_ : (List.range group.k).countP (fun i => !after.delivered.has i) = 0 := by
      rw [countP_eq_zero]
      intro i member
      rw [all i (mem_range.mp member)]
      simp
    have counted : frames.length % 2 ^ 16 = group.k - group.receivedData := by
      rw [returned, nil_append, length_map, ← countP_eq_length_filter, empty, below]
    constructor
    · exact k ▸ dimensioned
    · exact k ▸ small
    · simp only [ReceiveGroup.complete, ReceiveGroup.feedback]
      rw [k, marked, counted]
    · simp only [ReceiveGroup.complete, ReceiveGroup.feedback]
      rw [k, none_, counted, below]
      rfl
    · intro i bound _
      exact all i (k ▸ bound)

end ReceiveGroup.Tidy

theorem CompletedGroup.Tidy.late (tidy : done.Tidy)
    (p : Packet) : (Decoder.handleLateShard done p).1.Tidy := by
  have bounds := tidy.bounds
  have small : done.k ≤ 32 := tidy.small
  unfold Decoder.handleLateShard
  split
  · exact tidy
  next valid =>
  have bound : p.index < done.k := by omega
  have below : ∀ i < done.k, i < 64 := fun i less => by omega
  split
  · exact tidy
  · by_cases restored : done.reconstructed.has p.index = true
    · -- The frame was reconstructed too early: it was not missing.
      rw [if_pos restored]
      have counted := countP_range_erase (fun i => done.reconstructed.has i) bound restored
      have recovered := tidy.recovered
      have missing := tidy.missing
      have erased : (List.range done.k).countP (fun i => (done.reconstructed.erase p.index).has i) =
          (List.range done.k).countP (fun i =>
            done.reconstructed.has i && decide (i ≠ p.index)) := by
        apply countP_congr
        intro i member
        rw [has_erase _ (below i (mem_range.mp member))]
      refine ⟨tidy.dimensioned, tidy.small, ?_, ?_, ?_⟩
      · dsimp only
        omega
      · dsimp only
        omega
      · intro i less marked
        rw [has_erase _ (below i less), Bool.and_eq_true] at marked
        exact tidy.restored i less marked.1
    · rw [if_neg restored]
      by_cases delivered : done.delivered.has p.index = true
      · rw [if_pos delivered]
        exact tidy
      · rw [if_neg delivered]
        have counted := countP_range_erase
          (fun i => !done.delivered.has i) bound (by simp [delivered])
        have missing := tidy.missing
        have entered : (List.range done.k).countP
            (fun i => !(done.delivered.insert p.index).has i) =
            (List.range done.k).countP (fun i =>
              !done.delivered.has i && decide (i ≠ p.index)) := by
          apply countP_congr
          intro i member
          rw [has_insert _ (below i (mem_range.mp member))]
          by_cases same : i = p.index
          · simp [same]
          · simp [same, Ne.symm same]
        refine ⟨tidy.dimensioned, tidy.small, tidy.recovered, ?_, ?_⟩
        · dsimp only
          omega
        · intro i less marked
          rw [has_insert _ (below i less), tidy.restored i less marked]
          rfl

theorem validFeedback_of {total missing recovered : Nat} (positive : 0 < total)
    (small : total ≤ maxDataShards) (explained : recovered ≤ missing) (bound : missing ≤ total) :
    Decoder.validFeedback total missing recovered = true := by
  rw [Decoder.validFeedback, if_neg (Nat.ne_of_gt positive)]
  simp [small, explained, bound]

theorem Reports.valid {report : Feedback}
    (reports : Reports (fun id group => group.Tidy id) (fun _ done => done.Tidy) report) :
    Decoder.validFeedback report.total report.missing report.recovered = true := by
  cases reports with
  | @stalled _ group tidy dimensioned =>
    have small : group.k ≤ 32 := tidy.small
    have total : group.k % 2 ^ 16 = group.k := by omega
    simp only [Decoder.stalledFeedback, ReceiveGroup.feedback]
    refine validFeedback_of ?_ ?_ (Nat.zero_le _) ?_
    · rwa [total]
    · rwa [total]
    · omega
  | unknown => rfl
  | @completed _ done tidy =>
    have small : done.k ≤ 32 := tidy.small
    have total : done.k % 2 ^ 16 = done.k := by omega
    obtain ⟨explained, bound⟩ := tidy.bounds
    rw [total]
    exact validFeedback_of tidy.dimensioned small explained bound

variable {codec : Codec}

theorem ReceiveGroup.Tidy.process {id : Nat} {group : ReceiveGroup} (tidy : group.Tidy id)
    {p : Packet} (kind : p.kind ≠ .feedback) (decodes : group.Decodes codec p) :
    ((group.process codec p).finished = none → (group.process codec p).group.Tidy id) ∧
      ∀ now feedback, (group.process codec p).finished = some feedback →
        ((group.process codec p).group.complete now feedback).Tidy := by
  by_cases differs : group.epoch ≠ p.epoch
  · rw [ReceiveGroup.process, if_pos differs]
    exact ⟨fun _ => tidy, nofun⟩
  have decodes := decodes (not_not.mp differs)
  have received := fun {result} (receives : Decoder.Receives group p result) =>
    tidy.receive receives fun stored stores => (decodes stored stores).1
  have processes := Decoder.process_processes codec group p
  generalize group.process codec p = outcome at processes
  cases processes with
  | otherEpoch => exact ⟨fun _ => tidy, nofun⟩
  | refused receives => exact ⟨fun _ => received receives, nofun⟩
  | failed receives completes =>
    refine ⟨fun _ => ?_, nofun⟩
    obtain ⟨kept, delivered, stores, rfl⟩ := receives.stores kind
    obtain ⟨rfl, -⟩ := completes.refused_of_restorable (decodes kept stores).2
    exact received receives
  | stays receives => exact ⟨fun _ => received receives, nofun⟩
  | finishes receives completes =>
    refine ⟨nofun, ?_⟩
    rintro now _ ⟨⟩
    exact (received receives).finishes completes now

abbrev Decoder.Tidy (d : Decoder) : Prop :=
  d.Every (fun id group => group.Tidy id) fun _ done => done.Tidy

theorem Decoder.Tidy.keyed {d : Decoder} (tidy : d.Tidy) : d.Keyed :=
  Decoder.Every.keyed tidy fun _ _ group => group.key

/-- No shard without a frame is kept by the group of a record that gets to it. -/
def DecoderCall.Decodes (codec : Codec) (d : Decoder) : DecoderCall → Prop
  | .expire _ => True
  | .handle now datagram =>
    ∀ p, parsePacket datagram = .ok (some p) → p.kind ≠ .feedback →
      let settled := (d.expirePhase now p).2
      settled.completed.lookup p.groupID = none →
      (settled.groups.lookup p.groupID = none → settled.groups.entries.length < maxReceiveGroups) →
      (settled.groupFor now p).Decodes codec p

theorem Decoder.Tidy.step {d next : Decoder} (tidy : d.Tidy) {call : DecoderCall}
    {reply : DecoderReply} (steps : call.Steps codec d reply next) :
    (∀ report ∈ reply.feedback, validFeedback report.total report.missing report.recovered = true) ∧
      (call.Decodes codec d → next.Tidy) := by
  cases steps with
  | quiet => exact ⟨nofun, fun _ => tidy⟩
  | expire =>
    obtain ⟨kept, reports⟩ := Every.expireIdle tidy tidy.keyed _
    exact ⟨fun report member => (reports report member).valid, fun _ => kept⟩
  | @record now _ p _ _ _ parsed kind arrives =>
    obtain ⟨kept, reports⟩ := Every.expirePhase tidy tidy.keyed now p
    refine ⟨fun report member => (reports report member).valid, ?_⟩
    intro decodes
    refine Every.arrives kept arrives (fun _ _ group => group.key)
      (fun _ _ group => group) (fun _ _ done => done) ?fresh ?processed ?late
    case fresh =>
      refine ⟨rfl, Nat.zero_le _, ?_, ?_⟩
      · intro i _
        simp [Bitmap.has]
      · intro i _
        simp [Bitmap.has]
    case processed =>
      rintro outcome rfl group unfinished room - -
      obtain ⟨stays, finishes⟩ := group.process kind (decodes p parsed kind unfinished room)
      exact ⟨stays, finishes now⟩
    case late =>
      intro done _ group _
      exact group.late p

theorem decoderAfter_tidy {calls : List DecoderCall}
    (decodes : Throughout codec (DecoderCall.Decodes codec) calls) :
    (decoderAfter codec calls).Tidy := by
  induction calls using List.reverseRecOn with
  | nil => exact Decoder.Every.new
  | append_singleton calls call ih =>
    have tidy := ih decodes.before
    rw [decoderAfter_concat]
    exact (tidy.step (call.apply_steps codec tidy.keyed)).2 decodes.last

/-- As long as every shard that is kept can be decoded, every report is within
the protocol's bounds, and so are the counters of the finished groups. -/
theorem decoder_feedback_valid (codec : Codec) (calls : List DecoderCall)
    (decodes : Throughout codec (DecoderCall.Decodes codec) calls) :
    (∀ call : DecoderCall, ∀ report ∈ (call.apply codec (decoderAfter codec calls)).1.feedback,
          Decoder.validFeedback report.total report.missing report.recovered = true) ∧
      ∀ id done, (decoderAfter codec calls).completed.lookup id = some done →
          done.recovered ≤ done.missing ∧ done.missing ≤ done.k ∧ done.k ≤ maxDataShards := by
  have tidy := decoderAfter_tidy decodes
  constructor
  · intro call
    exact (tidy.step (call.apply_steps codec tidy.keyed)).1
  · intro id done found
    have group := tidy.completed id done found
    exact ⟨group.bounds.1, group.bounds.2, group.small⟩

/-- One of two frames arrives before the group is closed without parity. -/
def lossyCalls : List DecoderCall :=
  [.handle 1 (marshalPacket
    { kind := .data, epoch := 0, groupID := 0, index := 0, k := 0, r := 0
      payload := [0, 1, 7] }), .handle 2 (marshalPacket
    { kind := .close, epoch := 0, groupID := 0, index := 0, k := 2, r := 0
      payload := [] })]

theorem decoder_feedback_valid_lossy :
    (∀ report ∈ ((DecoderCall.expire 20000000).apply interpolationCodec
        (decoderAfter interpolationCodec lossyCalls)).1.feedback,
      Decoder.validFeedback report.total report.missing report.recovered = true) ∧
      ((DecoderCall.expire 20000000).apply interpolationCodec
        (decoderAfter interpolationCodec lossyCalls)).1.feedback =
        [{ epoch := 0, groupID := 0, missing := 1, total := 2 }] := by
  refine ⟨(decoder_feedback_valid interpolationCodec lossyCalls ?_).1 _, by decide +kernel⟩
  refine .of_take (.expire 0) ?_
  intro i bound
  obtain rfl | rfl : i = 0 ∨ i = 1 := by
    have : lossyCalls.length = 2 := rfl
    omega
  · intro p parsed
    rw [parsePacket_marshalPacket (by constructor <;> decide)] at parsed
    cases parsed
    refine fun _ _ _ => (Decoder.groupFor_accepts ?_ rfl (by decide) ⟨[7], by decide⟩).2.1
    exact Option.isNone_iff_eq_none.mp (by decide +kernel)
  · intro p parsed
    rw [parsePacket_marshalPacket (by constructor <;> decide)] at parsed
    cases parsed
    refine fun _ _ _ _ stored stores => ⟨nofun, fun enough => ?_⟩
    cases stores with
    | data other | parity other => cases other
    | close _ set =>
      obtain ⟨-, -, rfl⟩ := Decoder.setDimensions_ok set
      exact absurd enough (by decide +kernel)

/-- A shard that cannot be decoded is refused but stays in its group.  Once the
group is closed it counts as received, and the frame itself, arriving late, is
subtracted from the missing ones again. -/
def wrappingCalls : List DecoderCall :=
  [.handle 1 (marshalPacket
    { kind := .data, epoch := 0, groupID := 0, index := 0, k := 0, r := 0
      payload := [0, 0, 1] }), .handle 2 (marshalPacket
    { kind := .close, epoch := 0, groupID := 0, index := 0, k := 1, r := 0
      payload := [] }), .handle 3 (marshalPacket
    { kind := .data, epoch := 0, groupID := 0, index := 0, k := 0, r := 0
      payload := [0, 1, 7] })]

theorem late_frame_wraps_missing : ((DecoderCall.expire 20000000).apply interpolationCodec
      (decoderAfter interpolationCodec wrappingCalls)).1.feedback =
        [{ epoch := 0, groupID := 0, missing := 65535, total := 1 }] ∧
      Decoder.validFeedback 1 65535 0 = false := by
  decide +kernel

end WgQuic.Fec
