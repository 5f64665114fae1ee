import WgQuic.Fec.DecoderSound
import WgQuic.Fec.EncoderRun

/-!
# One report for each group

A decoder forgets a group when it reports it.  It reports the group once, unless
a record of the group arrives afterwards and opens it again.
-/

namespace WgQuic.Fec

open List

def reportsFrom (codec : Codec) (d : Decoder) : List DecoderCall → List Feedback
  | [] => []
  | call :: calls => (call.apply codec d).1.feedback ++ reportsFrom codec (call.next codec d) calls

def Decoder.Knows (d : Decoder) (id : Nat) : Prop :=
  (d.groups.lookup id).isSome ∨ (d.completed.lookup id).isSome

instance (d : Decoder) (id : Nat) : Decidable (d.Knows id) :=
  inferInstanceAs (Decidable (_ ∨ _))

/-- A record belongs to a group that the decoder knows, once the groups whose time is over are
gone, or to one that it has never known. -/
def NoneReopens (codec : Codec) (calls : List DecoderCall) : Prop :=
  ∀ before now datagram after p, calls = before ++ .handle now datagram :: after →
    parsePacket datagram = .ok (some p) → p.kind ≠ .feedback →
    ((decoderAfter codec before).expirePhase now p).2.Knows p.groupID ∨
      ∀ earlier, earlier <+: before → ¬(decoderAfter codec earlier).Knows p.groupID

variable {codec : Codec}

theorem reportsFrom_concat (d : Decoder) (calls : List DecoderCall) (call : DecoderCall) :
    reportsFrom codec d (calls ++ [call]) = reportsFrom codec d calls ++
      (call.apply codec (calls.foldl (DecoderCall.next codec) d)).1.feedback := by
  induction calls generalizing d with
  | nil => simp [reportsFrom]
  | cons first calls ih => simp [reportsFrom, ih]

namespace Decoder

def Gone (id : Nat) (d : Decoder) : Prop :=
  d.Every (fun key group => group.groupID = key ∧ key ≠ id) fun key _ => key ≠ id

variable {d final next : Decoder} {reports more : List Feedback} {id : Nat}

theorem Gone.not_knows (gone : d.Gone id) : ¬d.Knows id := by
  rintro (held | held)
  · obtain ⟨group, found⟩ := Option.isSome_iff_exists.mp held
    exact (gone.groups id group found).2 rfl
  · obtain ⟨done, found⟩ := Option.isSome_iff_exists.mp held
    exact gone.completed id done found rfl

/-- Only groups that the decoder knows are reported. -/
theorem knows_of_reply {call : DecoderCall} {reply : DecoderReply} (keyed : d.Keyed)
    (steps : call.Steps codec d reply next) : ∀ report ∈ reply.feedback,
      d.Knows report.groupID := by
  have every : d.Every (fun id group => group.groupID = id ∧ d.Knows id) fun id _ => d.Knows id :=
    ⟨fun id group found => ⟨keyed id group found, .inl (Option.isSome_of_eq_some found)⟩,
      fun id done found => .inr (Option.isSome_of_eq_some found)⟩
  have known : ∀ report, Reports (fun id group => group.groupID = id ∧ d.Knows id)
      (fun id _ => d.Knows id) report → d.Knows report.groupID := by
    intro report reports
    cases reports with
    | stalled holds | unknown holds =>
      obtain ⟨rfl, known⟩ := holds
      exact known
    | completed holds => exact holds
  cases steps with
  | quiet => exact nofun
  | expire => exact fun report listed => known _ ((every.expireIdle keyed _).2 report listed)
  | record => exact fun report listed => known _ ((every.expirePhase keyed _ _).2 report listed)

theorem Gone.sweeps (gone : d.Gone id) (sweeps : Sweeps d reports final) :
    final.Gone id ∧ ∀ report ∈ reports, report.groupID ≠ id := by
  obtain ⟨kept, about⟩ := Every.sweeps gone sweeps
  refine ⟨kept, fun report listed => ?_⟩
  cases about report listed with
  | stalled holds | unknown holds => exact holds.1.trans_ne holds.2
  | completed other => exact other

/-- What was reported is gone, and no group was reported twice. -/
structure Reported (reports : List Feedback) (d : Decoder) : Prop where
  once : (reports.map Feedback.groupID).Nodup
  gone : ∀ report ∈ reports, d.Gone report.groupID

/-- One group is dropped, with a report or without. -/
theorem Reported.cons {report : Option Feedback} (own : ∀ own ∈ report, own.groupID = id)
    (gone : d.Gone id) (sweeps : Sweeps d reports final) (rest : Reported reports final) :
    Reported (report.toList ++ reports) final := by
  cases report with
  | none => exact rest
  | some feedback =>
    obtain ⟨stays, others⟩ := gone.sweeps sweeps
    rw [← own feedback rfl] at stays others
    refine ⟨nodup_cons.mpr ⟨fun again => ?_, rest.once⟩, forall_mem_cons.mpr ⟨stays, rest.gone⟩⟩
    obtain ⟨other, listed, same⟩ := mem_map.mp again
    exact others other listed same

theorem Sweeps.reported (sound : d.Sound) (sweeps : Sweeps d reports final) :
    Reported reports final := by
  induction sweeps with
  | done => exact ⟨nodup_nil, nofun⟩
  | timed next _ ih => exact ih (sound.timed next)
  | @drop d _ _ group report found about rest ih =>
    have gone : (d.removeGroup group).Gone group.groupID := by
      refine ⟨fun key other kept => ?_, fun key done held same => ?_⟩
      · obtain ⟨different, held⟩ := AList.lookup_erase_cases kept
        exact ⟨sound.keyed key other held, different⟩
      · subst same
        exact nomatch (sound.apart _ group found).symm.trans held
    refine .cons (fun own member => ?_) gone rest (ih (sound.removeGroup found))
    cases about own member with
    | stalled holds | unknown holds => exact holds.2 ▸ rfl
    | completed holds => exact holds.elim
  | @forget d _ _ id done report found about rest ih =>
    have gone : Gone id { d with completed := d.completed.erase id } := by
      refine ⟨fun key other held => ⟨sound.keyed key other held, fun same => ?_⟩,
        fun key other kept => (AList.lookup_erase_cases kept).1⟩
      subst same
      exact nomatch (sound.apart _ other held).symm.trans found
    refine .cons (fun own member => ?_) gone rest (ih (sound.eraseCompleted id))
    cases about own member with
    | stalled holds | unknown holds => exact holds.elim
    | completed holds => exact holds.1

theorem Reported.sweeps (reported : Reported reports d) (sound : d.Sound)
    (sweeps : Sweeps d more final) : Reported (reports ++ more) final := by
  have later := sweeps.reported sound
  refine ⟨?_, forall_mem_append.mpr ⟨fun report listed =>
    ((reported.gone report listed).sweeps sweeps).1, later.gone⟩⟩
  rw [map_append]
  refine nodup_append.mpr ⟨reported.once, later.once, ?_⟩
  intro id earlier other again same
  obtain ⟨report, listed, rfl⟩ := mem_map.mp earlier
  obtain ⟨twice, listedAgain, rfl⟩ := mem_map.mp again
  exact ((reported.gone report listed).sweeps sweeps).2 twice listedAgain same.symm

theorem Reported.arrives {now : Time} {p : Packet} {frames : List Bytes} {error : Option String}
    (reported : Reported reports d) (arrives : Arrives codec now d p frames error next)
    (unreported : p.groupID ∉ reports.map Feedback.groupID) : Reported reports next := by
  refine ⟨reported.once, fun report listed => ?_⟩
  have other : p.groupID ≠ report.groupID := fun same =>
    unreported (mem_map.mpr ⟨report, listed, same.symm⟩)
  refine Every.arrives (reported.gone report listed) arrives (fun _ _ holds => holds.1)
    (fun _ _ holds => holds) (fun _ _ holds => holds) ⟨rfl, other⟩ ?_ fun _ _ _ _ => other
  rintro outcome rfl holds - - - -
  exact ⟨fun _ => ⟨(process_groupID codec _ p).trans holds.1, other⟩, fun _ _ => other⟩

theorem Reported.step {call : DecoderCall} {reply : DecoderReply} (reported : Reported reports d)
    (sound : d.Sound) (steps : call.Steps codec d reply next)
    (unreported : ∀ now datagram p, call = .handle now datagram →
      parsePacket datagram = .ok (some p) → p.kind ≠ .feedback →
      (d.expirePhase now p).2.Knows p.groupID ∨
        p.groupID ∉ (reports ++ reply.feedback).map Feedback.groupID) :
    Reported (reports ++ reply.feedback) next := by
  cases steps with
  | quiet => simpa using reported
  | @expire now =>
    have swept := reported.sweeps sound (fastExpire_sweeps sound.keyed now)
    have sound := sound.fastExpire now
    rw [expireIdle, ← append_assoc]
    exact swept.sweeps sound (expire_sweeps sound.keyed now)
  | @record now _ p _ _ _ parsed kind arrives =>
    have expired := reported.sweeps sound (expire_sweeps sound.keyed now)
    have raised := (sound.expire now).raise (parsePacket_ok parsed).1.groupID
    have kept : Reported (reports ++ (d.expire now).1) ((d.expire now).2.raise p.groupID) :=
      ⟨expired.once, fun report listed =>
        ⟨(expired.gone report listed).groups, (expired.gone report listed).completed⟩⟩
    have swept := kept.sweeps raised (fastExpire_sweeps raised.keyed now)
    rw [append_assoc] at swept
    refine swept.arrives arrives ?_
    rcases unreported now _ p rfl parsed kind with known | unreported
    · intro listed
      obtain ⟨report, listed, same⟩ := mem_map.mp listed
      rw [← same] at known
      exact (swept.gone report listed).not_knows known
    · exact unreported

end Decoder

theorem known_of_report (calls : List DecoderCall) : ∀ report ∈ reportsFrom codec {} calls,
      ∃ earlier, earlier <+: calls ∧ (decoderAfter codec earlier).Knows report.groupID := by
  induction calls using List.reverseRecOn with
  | nil => exact nofun
  | append_singleton calls call ih =>
    have keyed := (decoderAfter_sound codec calls).keyed
    rw [reportsFrom_concat, forall_mem_append]
    refine ⟨fun report listed => ?_, fun report listed => ?_⟩
    · obtain ⟨earlier, before, known⟩ := ih report listed
      exact ⟨earlier, before.trans (prefix_append _ _), known⟩
    · exact ⟨calls, prefix_append _ _,
        Decoder.knows_of_reply keyed (call.apply_steps codec keyed) report listed⟩

theorem reported_after {calls : List DecoderCall} (opens : NoneReopens codec calls) :
    Decoder.Reported (reportsFrom codec {} calls) (decoderAfter codec calls) := by
  induction calls using List.reverseRecOn with
  | nil => exact ⟨nodup_nil, nofun⟩
  | append_singleton calls call ih =>
    have reported := ih fun before now datagram after p split =>
      opens before now datagram (after ++ [call]) p (by simp [split])
    have sound := decoderAfter_sound codec calls
    have steps := call.apply_steps codec sound.keyed
    rw [decoderAfter_concat, reportsFrom_concat]
    refine reported.step sound steps fun now datagram p same parsed kind => ?_
    refine (opens calls now datagram [] p (by rw [same]) parsed kind).imp_right ?_
    intro never listed
    obtain ⟨report, listed, own⟩ := mem_map.mp listed
    rcases mem_append.mp listed with before | last
    · obtain ⟨earlier, before, known⟩ := known_of_report calls report before
      exact never earlier before (own ▸ known)
    · exact never calls prefix_rfl (own ▸ Decoder.knows_of_reply sound.keyed steps report last)

theorem one_report_per_group {calls : List DecoderCall} (opens : NoneReopens codec calls) :
    ((reportsFrom codec {} calls).map Feedback.groupID).Nodup :=
  (reported_after opens).once

/-- The data and the close record of a group of one frame. -/
def loneData : Packet :=
  { kind := .data, epoch := 1, groupID := 0, payload := encodeDataShard [7] }

def loneClose : Packet :=
  { kind := .close, epoch := 1, groupID := 0, k := 1, r := 1 }

/-- The close record arrives twice before the group is reported. -/
def loneCalls : List DecoderCall :=
  [.handle 1 (marshalPacket loneData), .handle 2 (marshalPacket loneClose),
    .handle 3 (marshalPacket loneClose), .expire 20000000]

theorem lost_group_reported_once :
    ((reportsFrom interpolationCodec {} loneCalls).map Feedback.groupID).Nodup ∧
      (reportsFrom interpolationCodec {} loneCalls).length = 1 := by
  refine ⟨one_report_per_group fun before now datagram after p split parsed _ => ?_,
    by decide +kernel⟩
  have reads : ∀ q, q.Fits → datagram = marshalPacket q → p = q := by
    rintro q fits rfl
    rw [parsePacket_marshalPacket fits] at parsed
    cases parsed
    rfl
  match before with
  | [] =>
    refine .inr fun earlier nothing => ?_
    rw [prefix_nil.mp nothing]
    exact Decoder.Gone.not_knows .new
  | [_] =>
    simp only [loneCalls, cons_append, nil_append, List.cons.injEq,
      DecoderCall.handle.injEq] at split
    obtain ⟨rfl, ⟨rfl, same⟩, -⟩ := split
    rw [reads loneClose (by constructor <;> decide) same.symm]
    exact .inl (by decide +kernel)
  | [_, _] =>
    simp only [loneCalls, cons_append, nil_append, List.cons.injEq,
      DecoderCall.handle.injEq] at split
    obtain ⟨rfl, rfl, ⟨rfl, same⟩, -⟩ := split
    rw [reads loneClose (by constructor <;> decide) same.symm]
    exact .inl (by decide +kernel)
  | [_, _, _] | _ :: _ :: _ :: _ :: before => simp [loneCalls] at split

/-- The frame has arrived and was reported so.  A second copy of the close record then makes
the decoder report it as missing. -/
theorem group_reported_again :
    let sent := (encoderRun interpolationCodec (newEncoder interpolationCodec 8 1 1)
      [.add [7] 1 1, .flush]).sent
    (.record loneData ∈ sent ∧ .record loneClose ∈ sent ∧ groupsOpened sent = 1) ∧
      reportsFrom interpolationCodec {}
        [.handle 1 (marshalPacket loneData), .handle 2 (marshalPacket loneClose),
          .expire 20000000, .handle 20000001 (marshalPacket loneClose), .expire 4000000000] =
        [{ epoch := 1, groupID := 0, missing := 0, total := 1 },
          { epoch := 1, groupID := 0, missing := 1, total := 1 }] := by
  decide +kernel

end WgQuic.Fec
