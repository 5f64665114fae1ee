import WgQuic.Fec.DecoderFeedback

/-!
# Rejected datagrams

A datagram that is rejected before its group is created or changed leaves no
trace.  The later rejections do: an undecodable shard stays in its slot, a bad
parity shard leaves its dimensions, and a reconstruction that fails half-way
keeps the frames it has marked as delivered without returning them.
-/

namespace WgQuic.Fec

open Decoder

/-- The decoder once the groups whose time is over are gone. -/
def DecoderCall.settled (d : Decoder) : DecoderCall → Decoder
  | .expire now => (d.expireIdle now).2
  | .handle now datagram =>
    match parsePacket datagram with
    | .ok (some p) =>
      if p.kind = .feedback then d else (d.expirePhase now p).2
    | _ => d

variable {d next : Decoder} {now : Time} {p : Packet} {group after : ReceiveGroup} {codec : Codec}
  {frames : List Bytes} {call : DecoderCall} {i : Nat} {calls : List DecoderCall}

theorem DecoderCall.settled_record {datagram : Bytes} (parsed : parsePacket datagram = .ok (some p))
    (kind : p.kind ≠ .feedback) :
    (DecoderCall.handle now datagram).settled d = (d.expirePhase now p).2 := by
  simp only [settled, parsed, if_neg kind]

/-- The shard that a call has in slot `i` of group `id`. -/
def DecoderCall.shard (codec : Codec) (d : Decoder) (id i : Nat) : DecoderCall → Option Bytes
  | .expire _ => none
  | .handle now datagram =>
    match parsePacket datagram with
    | .ok (some p) =>
      let d := (d.expirePhase now p).2
      if p.groupID ≠ id then none
      else if (d.completed.lookup id).isSome then
        if p.index = i then some p.payload else none
      else ((d.groupFor now p).process codec p).group.data i
    | _ => none

/-- The call returns the frame of slot `i` of group `id`. -/
def DecoderCall.Returns (codec : Codec) (d : Decoder) (id i : Nat) (call : DecoderCall) : Prop :=
  ∃ shard frame, call.shard codec d id i = some shard ∧
    decodeDataShard shard = .ok frame ∧ frame ∈ (call.apply codec d).1.frames

/-! ## Early rejections -/

inductive ReceiveGroup.Rejects (group : ReceiveGroup) (p : Packet) : Prop where
  | epoch (differs : group.epoch ≠ p.epoch)
  | shard (kind : p.kind = .data) (invalid : p.index ≥ maxDataShards ∨ p.payload.length < 3)
  | dimensions {err : String} (kind : p.kind = .parity ∨ p.kind = .close)
      (fails : group.setDimensions p.k p.r = .error err)
  | parity (kind : p.kind = .parity) (dimensioned : group.k ≠ 0)
      (invalid : p.index ≥ p.r ∨ p.payload = [])

theorem ReceiveGroup.Rejects.process (rejects : group.Rejects p) (codec : Codec) :
    ∃ err, group.process codec p = { group, error := some err } := by
  by_cases differs : group.epoch ≠ p.epoch
  · rw [ReceiveGroup.process, if_pos differs]
    exact ⟨_, rfl⟩
  · have refused : ∃ err, receive group p = (.error err, group) := by
      unfold receive
      cases rejects with
      | epoch other => exact (differs other).elim
      | shard kind invalid =>
        simp only [kind, if_pos invalid]
        exact ⟨_, rfl⟩
      | dimensions kind fails =>
        rcases kind with kind | kind
        · simp only [kind, fails]
          exact ⟨_, rfl⟩
        · simp only [kind, fails]
          exact ⟨_, rfl⟩
      | parity kind dimensioned invalid =>
        simp only [kind]
        cases set : group.setDimensions p.k p.r with
        | error err => exact ⟨_, rfl⟩
        | ok sized =>
          obtain ⟨_, known, rfl⟩ := setDimensions_ok set
          obtain ⟨sameK, sameR⟩ := known dimensioned
          simp only [if_pos invalid]
          rw [← sameK, ← sameR]
          exact ⟨_, rfl⟩
    obtain ⟨err, refused⟩ := refused
    rw [ReceiveGroup.process, if_neg differs, refused]
    exact ⟨err, rfl⟩

/-- A record that is rejected before its group is created or changed. -/
inductive Decoder.RejectsEarly (d : Decoder) (p : Packet) : Prop where
  | completed (found : (d.completed.lookup p.groupID).isSome)
  | full (absent : d.groups.lookup p.groupID = none)
      (many : d.groups.entries.length ≥ maxReceiveGroups)
  | group {group : ReceiveGroup} (found : d.groups.lookup p.groupID = some group)
      (rejects : group.Rejects p)

/-- A record that is not rejected early is accepted. -/
def DecoderCall.Clean (codec : Codec) (d : Decoder) : DecoderCall → Prop
  | .expire _ => True
  | .handle now datagram =>
    ∀ p, parsePacket datagram = .ok (some p) → p.kind ≠ .feedback →
      let settled := (d.expirePhase now p).2
      settled.RejectsEarly p ∨ (settled.groupFor now p).Accepts codec p

theorem receive_of_stores {kept : ReceiveGroup} (stores : group.Stores p kept)
    (frame : p.kind = .data → group.delivered.has p.index = false →
      HasFrame ((group.data p.index).getD p.payload)) :
    ∃ frames delivered, receive group p = (.ok frames, { kept with delivered }) := by
  unfold receive
  cases stores with
  | data kind valid =>
    simp only [kind]
    rw [if_neg (by omega)]
    by_cases delivered : group.delivered.has p.index = true
    · rw [if_pos delivered]
      exact ⟨_, _, rfl⟩
    · obtain ⟨frame, decodes⟩ := frame kind (Bool.eq_false_iff.mpr delivered)
      rw [if_neg delivered, decodes]
      exact ⟨_, _, rfl⟩
  | parity kind set valid =>
    simp only [kind, set]
    rw [if_neg (not_or.mpr ⟨Nat.not_le.mpr valid.1, valid.2⟩)]
    exact ⟨_, _, rfl⟩
  | close kind set =>
    simp only [kind, set]
    exact ⟨_, _, rfl⟩

theorem ReceiveGroup.Accepts.process (accepts : group.Accepts codec p) :
    (group.process codec p).error = none := by
  obtain ⟨epoch, decodes, kept, stores, sized⟩ := accepts
  obtain ⟨frame, restorable⟩ := decodes epoch kept stores
  obtain ⟨frames, delivered, receives⟩ := receive_of_stores stores frame
  have completes := tryComplete_completes codec { kept with delivered }
  rw [ReceiveGroup.process, if_neg (not_not.mpr epoch), receives]
  dsimp only
  generalize tryComplete codec { kept with delivered } = completed at completes
  obtain ⟨err | completion, after⟩ := completed
  · obtain ⟨-, enough, invalid⟩ := completes.refused_of_restorable restorable
    cases (sized enough).symm.trans invalid
  · dsimp only
    split
    · rfl
    · rfl

theorem Decoder.RejectsEarly.same {error : Option String} (early : d.RejectsEarly p)
    (arrives : Arrives codec now d p frames error next) (keyed : d.Keyed)
    (rejected : error ≠ none) : SameGroups next d := by
  cases arrives with
  | otherEpoch | full => exact .refl d
  | late => exact (rejected rfl).elim
  | record unfinished entered _ settles =>
    cases early with
    | completed found =>
      rw [unfinished] at found
      cases found
    | full absent many =>
      rcases entered with ⟨present, _⟩ | ⟨_, room, _⟩
      · exact (present absent).elim
      · exact (Nat.not_lt.mpr many room).elim
    | @group group found rejects =>
      rcases entered with ⟨_, based⟩ | ⟨absent, _⟩
      · obtain ⟨err, outcome⟩ := rejects.process codec
        have same : d.groupFor now p = group := by
          rw [groupFor, found]
          rfl
        rw [based, same, outcome] at settles
        rcases settles with rfl | rfl
        · exact .refl _
        · exact storeGroup_same (keyed _ _ found ▸ found)
      · rw [found] at absent
        cases absent

theorem DecoderCall.Steps.same {reply : DecoderReply} (steps : call.Steps codec d reply next)
    (keyed : d.Keyed) (clean : call.Clean codec d) (rejected : reply.error ≠ none) :
    Decoder.SameGroups next (call.settled d) := by
  cases steps with
  | expire => exact (rejected rfl).elim
  | @quiet now datagram error unread =>
    have same : (DecoderCall.handle now datagram).settled d = d := by
      simp only [settled]
      split
      · next p parsed => rw [if_pos (unread p parsed)]
      · rfl
    rw [same]
    exact .refl d
  | @record now _ p _ _ _ parsed kind arrives =>
    rw [settled_record parsed kind]
    rcases clean p parsed kind with early | accepts
    · exact early.same arrives (keyed.expirePhase now p) rejected
    · cases arrives with
      | otherEpoch | full => exact .refl _
      | late => exact (rejected rfl).elim
      | record => exact (rejected accepts.process).elim

/-! ## Delivered frames -/

theorem Bitmap.has_lt {bitmap : Bitmap} (has : bitmap.has i = true) : i < 64 :=
  BitVec.lt_of_getLsbD has

theorem Bitmap.has_of_insert {bitmap : Bitmap} {j : Nat} (has : (bitmap.insert i).has j = true) :
    bitmap.has j = true ∨ i = j := by
  rw [Bitmap.has_insert _ (Bitmap.has_lt has)] at has
  simpa using has

/-- Slot `i` holds a shard whose frame is among `frames`. -/
def ReceiveGroup.Yields (group : ReceiveGroup) (frames : List Bytes) (i : Nat) : Prop :=
  ∃ shard frame, group.data i = some shard ∧ decodeDataShard shard = .ok frame ∧ frame ∈ frames

theorem adopt_yields {restored : List Bytes} {slots : List Nat} {out : List Bytes}
    (adopts : ReceiveGroup.adopt restored slots group frames = (.ok out, after)) :
    (∀ i shard, group.data i = some shard → after.data i = some shard) ∧ frames ⊆ out ∧
      ∀ i, after.delivered.has i = true → group.delivered.has i = true ∨ after.Yields out i := by
  induction slots generalizing group frames with
  | nil =>
    cases adopts
    exact ⟨fun _ _ found => found, fun _ member => member, fun _ delivered => .inl delivered⟩
  | cons slot slots ih =>
    rw [ReceiveGroup.adopt] at adopts
    split at adopts
    · exact ih adopts
    next empty =>
    have others : ∀ i, (group.data i).isSome → i ≠ slot := by
      rintro i filled rfl
      exact empty filled
    split at adopts
    · cases adopts
    next frame decodes =>
    have keeps : ∀ i shard, group.data i = some shard → Function.update group.data slot
          (some (restored.getD slot [])) i = some shard := by
      intro i shard found
      rw [Function.update_of_ne (others i (by simp [found])), found]
    split at adopts
    · obtain ⟨data, kept, delivers⟩ := ih adopts
      exact ⟨fun i shard found => data i shard (keeps i shard found), kept, delivers⟩
    · obtain ⟨data, kept, delivers⟩ := ih adopts
      refine ⟨fun i shard found => data i shard (keeps i shard found),
        fun _ member => kept (List.mem_append_left _ member), ?_⟩
      intro i delivered
      rcases delivers i delivered with before | yields
      · rcases Bitmap.has_of_insert before with before | rfl
        · exact .inl before
        · refine .inr ⟨restored.getD slot [], frame, ?_, decodes, kept (by simp)⟩
          exact data slot _ (Function.update_self ..)
      · exact .inr yields

variable {stored : ReceiveGroup}

theorem receive_yields (receives : Decoder.Receives group p (.ok frames, stored))
    (delivered : stored.delivered.has i = true) :
    group.delivered.has i = true ∨ stored.Yields frames i := by
  cases receives with
  | known => exact .inl delivered
  | @delivers frame _ _ _ decodes =>
    rcases Bitmap.has_of_insert delivered with before | rfl
    · exact .inl before
    · exact .inr ⟨_, frame, Function.update_self .., decodes, by simp⟩
  | parity _ set
  | close _ set =>
    obtain ⟨_, _, rfl⟩ := setDimensions_ok set
    exact .inl delivered
  | feedback => exact .inl delivered

theorem completes_yields {completion : Completion}
    (completes : Decoder.Completes codec stored (.ok completion, after)) :
    (∀ i shard, stored.data i = some shard → after.data i = some shard) ∧
      ∀ i, after.delivered.has i = true →
        stored.delivered.has i = true ∨ after.Yields completion.frames i := by
  cases completes with
  | waits
  | lost =>
    exact ⟨fun _ _ found => found, fun _ delivered => .inl delivered⟩
  | restored _ _ adopts =>
    obtain ⟨data, _, delivers⟩ := adopt_yields adopts
    exact ⟨data, delivers⟩

theorem ReceiveGroup.Yields.mono {more : List Bytes} (yields : group.Yields frames i)
    (data : ∀ i shard, group.data i = some shard → after.data i = some shard)
    (kept : frames ⊆ more) : after.Yields more i := by
  obtain ⟨shard, frame, found, decodes, member⟩ := yields
  exact ⟨shard, frame, data i shard found, decodes, kept member⟩

theorem process_yields (accepted : (group.process codec p).error = none)
    (delivered : (group.process codec p).group.delivered.has i = true) :
    group.delivered.has i = true ∨
      (group.process codec p).group.Yields (group.process codec p).frames
        i := by
  have processes := process_processes codec group p
  generalize group.process codec p = outcome at processes accepted delivered
  cases processes with
  | otherEpoch | refused | failed => cases accepted
  | stays receives =>
    rw [List.append_nil]
    exact receive_yields receives delivered
  | finishes receives completes =>
    obtain ⟨data, delivers⟩ := completes_yields completes
    rcases delivers i delivered with before | yields
    · rcases receive_yields receives before with earlier | yields
      · exact .inl earlier
      · exact .inr (yields.mono data (List.subset_append_left ..))
    · exact .inr (yields.mono (fun _ _ found => found) (List.subset_append_right ..))

theorem handleLateShard_yields {done : CompletedGroup}
    (delivered : (handleLateShard done p).1.delivered.has i = true) :
    done.delivered.has i = true ∨ p.index = i ∧ ∃ frame, decodeDataShard p.payload = .ok frame ∧
        frame ∈ (handleLateShard done p).2 := by
  unfold handleLateShard at delivered ⊢
  by_cases invalid : p.kind ≠ .data ∨ p.index ≥ done.k ∨ p.payload.length < 3
  · rw [if_pos invalid] at delivered
    exact .inl delivered
  · rw [if_neg invalid] at delivered ⊢
    cases decodes : decodeDataShard p.payload with
    | error err =>
      rw [decodes] at delivered
      exact .inl delivered
    | ok frame =>
      simp only [decodes] at delivered ⊢
      by_cases restored : done.reconstructed.has p.index = true
      · rw [if_pos restored] at delivered
        exact .inl delivered
      · rw [if_neg restored] at delivered ⊢
        by_cases known : done.delivered.has p.index = true
        · rw [if_pos known] at delivered
          exact .inl delivered
        · rw [if_neg known] at delivered ⊢
          rcases Bitmap.has_of_insert delivered with before | same
          · exact .inl before
          · exact .inr ⟨same, frame, rfl, by simp⟩

/-! ## Runs -/

/-- Some call of the sequence returned the frame of slot `i` of group `id`. -/
def Returned (codec : Codec) (calls : List DecoderCall) (id i : Nat) : Prop :=
  ∃ before call after, calls = before ++ call :: after ∧
    call.Returns codec (decoderAfter codec before) id i

theorem Returned.append {id : Nat} (returned : Returned codec calls id i) (call : DecoderCall) :
    Returned codec (calls ++ [call]) id i := by
  obtain ⟨before, earlier, after, rfl, returns⟩ := returned
  exact ⟨before, earlier, after ++ [call], by simp, returns⟩

theorem Returned.last {id : Nat} (returns : call.Returns codec (decoderAfter codec calls) id i) :
    Returned codec (calls ++ [call]) id i :=
  ⟨calls, call, [], rfl, returns⟩

/-- Every delivered frame has been returned. -/
abbrev Decoder.Honest (codec : Codec) (calls : List DecoderCall) (d : Decoder) : Prop :=
  d.Every
    (fun id group => group.groupID = id ∧
      ∀ i, group.delivered.has i = true → Returned codec calls id i)
    (fun id done =>
      ∀ i, done.delivered.has i = true → Returned codec calls id i)

theorem Decoder.Honest.keyed {codec : Codec} {calls : List DecoderCall}
    {d : Decoder} (honest : d.Honest codec calls) : d.Keyed :=
  Decoder.Every.keyed honest fun _ _ group => group.1

theorem Decoder.Honest.append (honest : d.Honest codec calls) (call : DecoderCall) :
    d.Honest codec (calls ++ [call]) :=
  Decoder.Every.mono honest (fun _ _ group => ⟨group.1, fun i has => (group.2 i has).append call⟩)
    (fun _ _ done i has => (done i has).append call)

/-- The group a record went to is the only one with new frames. -/
theorem Decoder.Honest.arrives {datagram : Bytes} (parsed : parsePacket datagram = .ok (some p))
    (settled : ((decoderAfter codec calls).expirePhase now p).2.Honest codec calls)
    (reads : ((DecoderCall.handle now datagram).apply codec (decoderAfter codec calls)).1.frames =
      frames)
    (arrives : Arrives codec now ((decoderAfter codec calls).expirePhase now p).2 p frames none
      next) :
    next.Honest codec (calls ++ [.handle now datagram]) := by
  have shard : ∀ i, (DecoderCall.handle now datagram).shard codec
      (decoderAfter codec calls) p.groupID i =
        (if (((decoderAfter codec calls).expirePhase now p).2.completed.lookup
          p.groupID).isSome then if p.index = i then some p.payload else none
          else ((((decoderAfter codec calls).expirePhase now p).2.groupFor now
            p).process codec p).group.data i) := by
    intro i
    simp [DecoderCall.shard, parsed]
  refine Every.arrives settled arrives (fun _ _ group => group.1) ?opens ?dones
    ?fresh ?processed ?late
  case opens =>
    exact fun _ _ group => ⟨group.1, fun i has => (group.2 i has).append _⟩
  case dones => exact fun _ _ done i has => (done i has).append _
  case fresh =>
    refine ⟨rfl, ?_⟩
    intro i has
    simp [Bitmap.has] at has
  case processed =>
    rintro outcome same ⟨key, known⟩ unfinished - returned accepted
    have delivers : ∀ i, outcome.group.delivered.has i = true →
        Returned codec (calls ++ [.handle now datagram]) p.groupID i := by
      intro i has
      subst same
      rcases process_yields accepted has with before | yields
      · exact (known i before).append _
      · obtain ⟨bytes, frame, found, decodes, member⟩ := yields
        refine .last ⟨bytes, frame, ?_, decodes, ?_⟩
        · rw [shard i, unfinished]
          exact found
        · rw [reads, ← returned]
          exact member
    refine ⟨fun _ => ⟨?_, delivers⟩, fun _ _ => delivers⟩
    rw [same, process_groupID, key]
  case late =>
    intro done found known returned i has
    rcases handleLateShard_yields has with
      before | ⟨same, frame, decodes, member⟩
    · exact (known i before).append _
    · refine .last ⟨p.payload, frame, ?_, decodes, ?_⟩
      · rw [shard i, found]
        simp [same]
      · rw [reads, returned]
        exact member

theorem Decoder.Honest.step (honest : (decoderAfter codec calls).Honest codec calls)
    (clean : call.Clean codec (decoderAfter codec calls)) :
    (decoderAfter codec (calls ++ [call])).Honest codec (calls ++ [call]) := by
  rw [decoderAfter_concat]
  have steps := call.apply_steps codec honest.keyed
  generalize same : (call.apply codec (decoderAfter codec calls)).1 = reply at steps
  generalize call.next codec (decoderAfter codec calls) = next at steps ⊢
  by_cases rejected : reply.error = none
  · cases steps with
    | quiet => exact honest.append _
    | expire => exact Decoder.Honest.append (Every.expireIdle honest honest.keyed _).1 _
    | @record now datagram p frames error _ parsed kind arrives =>
      cases rejected
      exact Decoder.Honest.arrives parsed (Every.expirePhase honest honest.keyed now p).1
        (by rw [same]) arrives
  · -- A rejected datagram leaves what the expiry has left.
    have settled : (call.settled (decoderAfter codec calls)).Honest codec (calls ++ [call]) := by
      cases steps with
      | expire => exact (rejected rfl).elim
      | quiet unread =>
        simp only [DecoderCall.settled]
        split
        · next p parsed =>
          rw [if_pos (unread p parsed)]
          exact honest.append _
        · exact honest.append _
      | @record now datagram p frames error _ parsed kind arrives =>
        rw [DecoderCall.settled_record parsed kind]
        exact Decoder.Honest.append (Every.expirePhase honest honest.keyed now p).1 _
    exact (steps.same honest.keyed clean rejected).every settled

theorem decoderAfter_honest (clean : Throughout codec (DecoderCall.Clean codec) calls) :
    (decoderAfter codec calls).Honest codec calls := by
  induction calls using List.reverseRecOn with
  | nil => exact Decoder.Every.new
  | append_singleton calls call ih => exact (ih clean.before).step clean.last

/-- When every record is rejected early or accepted, a rejected datagram leaves
nothing behind, and a frame is only marked as delivered by a call that returns
it. -/
theorem decoder_errors_atomic (codec : Codec) (calls : List DecoderCall)
    (clean : Throughout codec (DecoderCall.Clean codec) calls) :
    Throughout codec (fun d call =>
        (call.apply codec d).1.error ≠ none →
          Decoder.SameGroups (call.next codec d) (call.settled d)) calls ∧
      (∀ id group i, (decoderAfter codec calls).groups.lookup id = some group →
          group.delivered.has i = true → Returned codec calls id i) ∧
      ∀ id done i, (decoderAfter codec calls).completed.lookup id = some done →
          done.delivered.has i = true → Returned codec calls id i := by
  refine ⟨?_, ?_, ?_⟩
  · intro before call after split rejected
    have earlier : Throughout codec (DecoderCall.Clean codec) before := by
      intro first middle rest same
      exact clean first middle (rest ++ call :: after) (by simp [split, same])
    have keyed := (decoderAfter_honest earlier).keyed
    exact (call.apply_steps codec keyed).same keyed (clean before call after split) rejected
  · intro id group i found has
    exact ((decoderAfter_honest clean).groups id group found).2 i has
  · intro id done i found has
    exact (decoderAfter_honest clean).completed id done found i has

/-- A close record that comes with another epoch than its group. -/
def staleClose : Packet :=
  { kind := .close, epoch := 1, groupID := 0, index := 0, k := 2, r := 0
    payload := [] }

def mixedEpochs : List DecoderCall :=
  [.handle 1 (marshalPacket
    { kind := .data, epoch := 0, groupID := 0, index := 0, k := 0, r := 0
      payload := [0, 1, 7] }), .handle 2 (marshalPacket staleClose)]

theorem mixedEpochs_clean : Throughout interpolationCodec (DecoderCall.Clean interpolationCodec)
      mixedEpochs := by
  refine .of_take (.expire 0) ?_
  intro i bound
  obtain rfl | rfl : i = 0 ∨ i = 1 := by
    have : mixedEpochs.length = 2 := rfl
    omega
  · intro p parsed _
    rw [parsePacket_marshalPacket (by constructor <;> decide)] at parsed
    cases parsed
    refine .inr (groupFor_accepts ?_ rfl (by decide) ⟨[7], by decide⟩)
    exact Option.isNone_iff_eq_none.mp (by decide +kernel)
  · intro p parsed _
    have fits : staleClose.Fits := by constructor <;> decide
    rw [parsePacket_marshalPacket fits] at parsed
    cases parsed
    have epoch : (((decoderAfter interpolationCodec
        (mixedEpochs.take 1)).expirePhase 2 staleClose).2.groups.lookup 0).map
          (·.epoch) = some 0 := by
      decide +kernel
    obtain ⟨group, found, same⟩ := Option.map_eq_some_iff.mp epoch
    exact .inl (.group found (.epoch (by rw [same]; decide)))

theorem decoder_errors_atomic_mixed_epochs :
    ((DecoderCall.handle 2 (marshalPacket staleClose)).apply interpolationCodec
        (decoderAfter interpolationCodec (mixedEpochs.take 1))).1.error =
          some "FEC epoch changed within group" ∧
      Decoder.SameGroups ((DecoderCall.handle 2 (marshalPacket staleClose)).next interpolationCodec
          (decoderAfter interpolationCodec (mixedEpochs.take 1)))
        ((DecoderCall.handle 2 (marshalPacket staleClose)).settled
          (decoderAfter interpolationCodec (mixedEpochs.take 1))) := by
  have error : ((DecoderCall.handle 2 (marshalPacket staleClose)).apply interpolationCodec
      (decoderAfter interpolationCodec (mixedEpochs.take 1))).1.error =
        some "FEC epoch changed within group" := by
    decide +kernel
  refine ⟨error, ?_⟩
  exact (decoder_errors_atomic interpolationCodec mixedEpochs
    mixedEpochs_clean).1 (mixedEpochs.take 1) _ [] rfl (by simp [error])

/-- A refused shard stays in its slot, and keeps the valid one out. -/
theorem undecodable_shard_stays :
    let shard (payload : Bytes) : DecoderCall := .handle 1 (marshalPacket
      { kind := .data, epoch := 0, groupID := 0, index := 0, k := 0, r := 0
        payload })
    let refused := (shard [0, 0, 1]).next interpolationCodec {}
    ((shard [0, 0, 1]).apply interpolationCodec {}).1.error =
        some "invalid reconstructed FEC frame length" ∧
      ((shard [0, 0, 1]).settled {}).groups.lookup 0 = none ∧
      ((refused.groups.lookup 0).bind fun group => group.data 0) = some [0, 0, 1] ∧
      ((shard [0, 1, 7]).apply interpolationCodec refused).1.error =
        some "invalid reconstructed FEC frame length" := by
  decide +kernel

end WgQuic.Fec
