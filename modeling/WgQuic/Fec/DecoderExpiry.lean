import WgQuic.Fec.DecoderSound

/-!
# Expiry of groups

`expire` looks at the groups only when the earliest deadline that was scheduled
has passed.  `fastExpire` takes groups from the expiry queue until it finds one
that has not stalled.
-/

namespace WgQuic.Fec

open Time AList

namespace Decoder

/-! ## The scan of the maps -/

/-- `expire` without its shortcut.  The maps are visited in any order. -/
def fullScan (now : Time) (groups : List (Nat × ReceiveGroup))
    (completed : List (Nat × CompletedGroup)) (d : Decoder) : List Feedback × Decoder :=
  let (stalled, d) := expireGroups now groups { d with nextExpiry := 0 }
  let (reported, d) := expireCompleted now completed d
  (stalled ++ reported, d)

def expiryReport (now : Time) (group : ReceiveGroup) : Option Feedback :=
  if sub now group.created > groupTTL ∧ group.k > 0 then some (stalledFeedback group)
  else none

/-- The report of a finished group that has had its grace. -/
def graceReport (now : Time) (id : Nat) (done : CompletedGroup) : Option Feedback :=
  if sub now done.finalized > completionGrace ∧ ¬sub now done.finalized > groupTTL then
    some { epoch := done.epoch, groupID := id, missing := done.missing
           recovered := done.recovered, total := done.k % 2 ^ 16 }
  else none

variable {d : Decoder} {now : Time}

/-- What the scan does at an incomplete group. -/
def visitGroup (now : Time) (d : Decoder) (entry : Nat × ReceiveGroup) : Decoder :=
  if sub now entry.2.created > groupTTL then d.removeGroup entry.2
  else d.scheduleExpiry (entry.2.created + groupTTL)

/-- What the scan does at a finished group. -/
def visitCompleted (now : Time) (d : Decoder) (entry : Nat × CompletedGroup) : Decoder :=
  if sub now entry.2.finalized > completionGrace then
    { d with completed := d.completed.erase entry.1 }
  else d.scheduleExpiry (entry.2.finalized + completionGrace)

theorem expireGroups_eq (groups : List (Nat × ReceiveGroup)) : expireGroups now groups d =
    (groups.filterMap fun entry => expiryReport now entry.2, groups.foldl (visitGroup now) d) := by
  induction groups generalizing d with
  | nil => rfl
  | cons entry rest ih =>
    rw [expireGroups, List.foldl_cons, List.filterMap_cons, ih, ih, visitGroup, expiryReport]
    split
    · next expired =>
      simp only [expired, true_and]
      split <;> rfl
    · next fresh => simp only [fresh, false_and, if_false]

theorem expireCompleted_eq (completed : List (Nat × CompletedGroup)) :
    expireCompleted now completed d =
      (completed.filterMap fun entry => graceReport now entry.1 entry.2,
        completed.foldl (visitCompleted now) d) := by
  induction completed generalizing d with
  | nil => rfl
  | cons entry rest ih =>
    rw [expireCompleted, List.foldl_cons, List.filterMap_cons, ih, ih, visitCompleted, graceReport]
    split
    · next expired =>
      have above : sub now entry.2.finalized > completionGrace := lt_trans (by decide) expired
      simp only [above, expired, not_true_eq_false, and_false, if_true, if_false]
    next fresh =>
    split
    · next above => simp only [above, fresh, not_false_eq_true, and_self, if_true]
    · next within => simp only [within, false_and, if_false]

theorem expireGroups_completed (groups : List (Nat × ReceiveGroup)) :
    (expireGroups now groups d).2.completed = d.completed := by
  rw [expireGroups_eq]
  refine groups.foldlRecOn (motive := (completed · = d.completed)) _ rfl ?_
  intro e same entry _
  unfold visitGroup
  split
  · exact same
  · exact (scheduleExpiry_completed _).trans same

theorem expireCompleted_groups (completed : List (Nat × CompletedGroup)) :
    (expireCompleted now completed d).2.groups = d.groups := by
  rw [expireCompleted_eq]
  refine completed.foldlRecOn (motive := (groups · = d.groups)) _ rfl ?_
  intro e same entry _
  unfold visitCompleted
  split
  · exact same
  · exact (scheduleExpiry_groups _).trans same

section

variable {β γ : Type} {visit : Decoder → γ → Decoder} {gone : γ → Prop} {id : Nat}

theorem lookup_foldl {held : β} {m : Decoder → AList fun _ : Nat => β} {key : γ → Nat}
    (one : ∀ d entry, (m (visit d entry)).lookup id = some held ↔
      (m d).lookup id = some held ∧ (gone entry → key entry ≠ id)) (entries : List γ) :
    (m (entries.foldl visit d)).lookup id = some held ↔
      (m d).lookup id = some held ∧ ∀ entry ∈ entries, gone entry → key entry ≠ id := by
  induction entries generalizing d with
  | nil => simp
  | cons entry rest ih => rw [List.foldl_cons, ih, one, List.forall_mem_cons, and_assoc]

theorem expireGroups_lookup (groups : List (Nat × ReceiveGroup)) {held : ReceiveGroup} :
    (expireGroups now groups d).2.groups.lookup id = some held ↔ d.groups.lookup id = some held ∧
        ∀ entry ∈ groups, sub now entry.2.created > groupTTL → entry.2.groupID ≠ id := by
  rw [expireGroups_eq]
  refine lookup_foldl (fun d entry => ?_) groups
  unfold visitGroup
  split
  · next expired =>
    rw [removeGroup, lookup_erase_eq_some]
    tauto
  · next fresh => simp only [scheduleExpiry_groups, fresh, false_implies, and_true]

theorem expireCompleted_lookup (completed : List (Nat × CompletedGroup)) {held : CompletedGroup} :
    (expireCompleted now completed d).2.completed.lookup id = some held ↔
      d.completed.lookup id = some held ∧
        ∀ entry ∈ completed, sub now entry.2.finalized > completionGrace → entry.1 ≠ id := by
  rw [expireCompleted_eq]
  refine lookup_foldl (fun d entry => ?_) completed
  unfold visitCompleted
  split
  · next above =>
    rw [lookup_erase_eq_some]
    tauto
  · next within => simp only [scheduleExpiry_completed, within, false_implies, and_true]

end

variable {id : Nat}

/-! ## Deadlines -/

def Due (next deadline : Time) : Prop :=
  deadline ≠ 0 ∧ next ≠ 0 ∧ next ≤ deadline

/-- The earlier of two deadlines, the first of which may be unset. -/
def earliest (next at_ : Time) : Time :=
  if next = 0 ∨ at_ < next then at_ else next

theorem scheduleExpiry_nextExpiry (at_ : Time) :
    (d.scheduleExpiry at_).nextExpiry = earliest d.nextExpiry at_ := by
  unfold scheduleExpiry earliest
  split
  · rfl
  · rfl

theorem Due.earliest {next deadline at_ : Time} (due : Due next deadline) (set : at_ ≠ 0) :
    Due (earliest next at_) deadline := by
  unfold Decoder.earliest
  split
  · next earlier =>
    rcases earlier with unset | earlier
    · exact absurd unset due.2.1
    · exact ⟨due.1, set, (le_of_lt earlier).trans due.2.2⟩
  · exact due

theorem due_earliest {next at_ : Time} (set : at_ ≠ 0) : Due (earliest next at_) at_ := by
  unfold earliest
  split
  · exact ⟨set, set, le_refl _⟩
  · next later =>
    rw [not_or, not_lt] at later
    exact ⟨set, later⟩

theorem earliest_earliest {next at_ sooner : Time} (order : sooner ≤ at_) :
    earliest (earliest next at_) sooner = earliest next sooner := by
  grind [earliest]

/-- Every group that a decoder has is looked at in time. -/
def Timely (d : Decoder) : Prop :=
  d.Every (fun _ group => Due d.nextExpiry (group.created + groupTTL))
    fun _ done => Due d.nextExpiry (done.finalized + completionGrace)

theorem due_foldl {γ : Type} {visit : Decoder → γ → Decoder} {gone : γ → Prop} [DecidablePred gone]
    {deadline : γ → Time} (one : ∀ d entry, (visit d entry).nextExpiry =
      if gone entry then d.nextExpiry else earliest d.nextExpiry (deadline entry))
    {entries : List γ} (set : ∀ entry ∈ entries, deadline entry ≠ 0) :
    (∀ at_, Due d.nextExpiry at_ → Due (entries.foldl visit d).nextExpiry at_) ∧
      ∀ entry ∈ entries, ¬gone entry → Due (entries.foldl visit d).nextExpiry (deadline entry) := by
  induction entries generalizing d with
  | nil => exact ⟨fun _ due => due, nofun⟩
  | cons entry rest ih =>
    rw [List.forall_mem_cons] at set
    obtain ⟨kept, covered⟩ := @ih (visit d entry) set.2
    rw [one] at kept
    rw [List.foldl_cons, List.forall_mem_cons]
    split at kept
    · next expired => exact ⟨kept, fun fresh => absurd expired fresh, covered⟩
    · exact ⟨fun at_ due => kept at_ (due.earliest set.1),
        fun _ => kept _ (due_earliest set.1), covered⟩

theorem expireGroups_due {groups : List (Nat × ReceiveGroup)}
    (set : ∀ entry ∈ groups, entry.2.created + groupTTL ≠ 0) :
    ∀ entry ∈ groups, ¬sub now entry.2.created > groupTTL →
      Due (expireGroups now groups d).2.nextExpiry (entry.2.created + groupTTL) := by
  rw [expireGroups_eq]
  refine (due_foldl (fun d entry => ?_) set).2
  rw [visitGroup, apply_ite nextExpiry, scheduleExpiry_nextExpiry]
  rfl

theorem expireCompleted_due {completed : List (Nat × CompletedGroup)}
    (set : ∀ entry ∈ completed, entry.2.finalized + completionGrace ≠ 0) :
    (∀ deadline, Due d.nextExpiry deadline →
      Due (expireCompleted now completed d).2.nextExpiry deadline) ∧
    ∀ entry ∈ completed, ¬sub now entry.2.finalized > completionGrace →
      Due (expireCompleted now completed d).2.nextExpiry (entry.2.finalized + completionGrace) := by
  rw [expireCompleted_eq]
  refine due_foldl (fun d entry => ?_) set
  rw [visitCompleted, apply_ite nextExpiry, scheduleExpiry_nextExpiry]

theorem mem_visited {β : Type} {m : AList fun _ : Nat => β} {value : β}
    (found : m.lookup id = some value) :
    (id, value) ∈ m.entries.map fun entry => (entry.1, entry.2) :=
  List.mem_map.mpr ⟨⟨id, value⟩, mem_lookup_iff.mp found, rfl⟩

namespace Timely

/-- After a scan the deadlines are those of the groups that are left. -/
theorem expire (timely : d.Timely) (sound : d.Sound) (now : Time) : (d.expire now).2.Timely := by
  unfold Decoder.expire
  split
  · exact timely
  · have coveredGroups := @expireGroups_due { d with nextExpiry := 0 } now
      (d.groups.entries.map fun entry => (entry.1, entry.2))
      fun entry member => (timely.groups _ _ (Every.mem_entries member)).1
    dsimp only
    rw [expireGroups_completed]
    obtain ⟨kept, coveredCompleted⟩ := @expireCompleted_due
      (expireGroups now (d.groups.entries.map fun entry => (entry.1, entry.2))
        { d with nextExpiry := 0 }).2 now
      (d.completed.entries.map fun entry => (entry.1, entry.2))
      fun entry member => (timely.completed _ _ (Every.mem_entries member)).1
    constructor
    · intro id group found
      rw [expireCompleted_groups, expireGroups_lookup] at found
      have listed := mem_visited found.1
      refine kept _ (coveredGroups _ listed fun expired => ?_)
      exact found.2 _ listed expired (sound.keyed id group found.1)
    · intro id done found
      rw [expireCompleted_lookup, expireGroups_completed] at found
      have listed := mem_visited found.1
      exact coveredCompleted _ listed fun above => found.2 _ listed above rfl

theorem fastExpire_nextExpiry (now : Time) (d : Decoder) :
    (d.fastExpire now).2.nextExpiry = d.nextExpiry := by
  unfold Decoder.fastExpire
  generalize d.groupExpiry.size = fuel
  induction fuel generalizing d with
  | zero => rfl
  | succ fuel ih =>
    rw [fastExpireLoop]
    split
    · rfl
    split
    · rfl
    split
    · rfl
    · exact ih _

theorem fastExpire (timely : d.Timely) (keyed : d.Keyed) (now : Time) :
    (d.fastExpire now).2.Timely := by
  unfold Timely
  rw [fastExpire_nextExpiry]
  exact (Every.sweeps timely (fastExpire_sweeps keyed now)).1

variable {group : ReceiveGroup}

theorem finishGroup_nextExpiry (feedback : Feedback) :
    (d.finishGroup now group feedback).nextExpiry =
      earliest d.nextExpiry (now + completionGrace) := by
  rw [Decoder.finishGroup, scheduleExpiry_nextExpiry]
  unfold limitCompleted
  split
  · rfl
  · rfl

theorem finishGroup (timely : d.Timely) {feedback : Feedback}
    (set : now + completionGrace ≠ 0) : (d.finishGroup now group feedback).Timely := by
  unfold Timely
  rw [finishGroup_nextExpiry]
  exact (timely.mono (fun _ _ due => due.earliest set)
    fun _ _ due => due.earliest set).finishGroup (due_earliest set)

/-- The deadline of a group does not count if the group is finished at once. -/
theorem finishNew (timely : d.Timely) {new : ReceiveGroup} {feedback : Feedback}
    (same : group.groupID = new.groupID) (set : now + completionGrace ≠ 0) :
    ((d.createGroup now new).finishGroup now group feedback).Timely := by
  have kept : ((d.createGroup now new).finishGroup now group feedback).Every
      (fun id held => id ≠ new.groupID →
        Due (earliest d.nextExpiry (now + completionGrace)) (held.created + groupTTL))
      fun _ done =>
        Due (earliest d.nextExpiry (now + completionGrace)) (done.finalized + completionGrace) := by
    refine .finishGroup (.createGroup ?_ fun other => absurd rfl other) (due_earliest set)
    exact timely.mono (fun _ _ due _ => due.earliest set) fun _ _ due => due.earliest set
  unfold Timely
  rw [finishGroup_nextExpiry, Decoder.createGroup, scheduleExpiry_nextExpiry,
    earliest_earliest (Int.add_le_add_left (by decide) now)]
  refine ⟨fun id held found => kept.groups id held found ?_, kept.completed⟩
  rintro rfl
  rw [Decoder.finishGroup, scheduleExpiry_groups, limitCompleted_groups, removeGroup, ← same,
    lookup_erase] at found
  cases found

theorem createGroup (timely : d.Timely) (created : group.created = now)
    (set : now + groupTTL ≠ 0) : (d.createGroup now group).Timely := by
  unfold Timely
  rw [Decoder.createGroup, scheduleExpiry_nextExpiry]
  refine (timely.mono (fun _ _ due => due.earliest set)
    fun _ _ due => due.earliest set).createGroup ?_
  rw [created]
  exact due_earliest set

end Timely

/-- No deadline is the zero instant, which stands for none. -/
def Dated (d : Decoder) : Prop :=
  d.Every (fun _ group => group.created + groupTTL ≠ 0)
    fun _ done => done.finalized + completionGrace ≠ 0

variable {codec : Codec} {next : Decoder}

/-- The deadlines are known when the group is created or finished. -/
theorem Timely.arrives {p : Packet} {frames : List Bytes} {error : Option String}
    (timely : d.Timely) (arrives : Arrives codec now d p frames error next)
    (dated : next.Dated) : next.Timely := by
  cases arrives with
  | otherEpoch | full => exact timely
  | late found =>
    refine timely.insertCompleted ?_
    rw [handleLateShard_finalized]
    exact timely.completed _ _ found
  | @record base _ unfinished entered found settles =>
    have timelyBase : (d.groupFor now p).created + groupTTL ≠ 0 → base.Timely := by
      intro set
      rcases entered with ⟨_, rfl⟩ | ⟨absent, _, rfl⟩
      · exact timely
      · have created : (d.groupFor now p).created = now := by
          rw [groupFor, absent]
          rfl
        exact timely.createGroup created (created ▸ set)
    rcases settles with rfl | rfl
    · exact timelyBase (dated.groups _ _ found)
    have created : ((d.groupFor now p).process codec p).group.created =
        (d.groupFor now p).created :=
      congrArg ExpiryEntry.created (process_expiryEntry codec _ p)
    unfold settle at dated ⊢
    split at dated
    · next feedback finished =>
      have set : now + completionGrace ≠ 0 := by
        refine dated.completed ((d.groupFor now p).process codec p).group.groupID
          (((d.groupFor now p).process codec p).group.complete now feedback) ?_
        rw [Decoder.finishGroup, scheduleExpiry_completed]
        exact lookup_insert _
      rcases entered with ⟨_, rfl⟩ | ⟨_, _, rfl⟩
      · exact timely.finishGroup set
      · exact timely.finishNew (process_groupID codec _ p) set
    · next unfinished =>
      have set := dated.groups _ _ (lookup_insert _)
      rw [created] at set
      refine Every.storeGroup (timelyBase set) ?_
      rw [created]
      exact (timelyBase set).groups _ _ found

theorem Timely.step {call : DecoderCall} {reply : DecoderReply}
    (timely : d.Timely) (sound : d.Sound) (steps : call.Steps codec d reply next)
    (dated : next.Dated) : next.Timely := by
  cases steps with
  | quiet => exact timely
  | expire => exact (timely.fastExpire sound.keyed _).expire (sound.fastExpire _) _
  | @record now _ p _ _ _ parsed _ arrives =>
    have expired := timely.expire sound now
    have raised : ((d.expire now).2.raise p.groupID).Timely := ⟨expired.groups, expired.completed⟩
    have keyed : ((d.expire now).2.raise p.groupID).Keyed := ((sound.expire now).keyed :)
    exact Timely.arrives (raised.fastExpire keyed now) arrives dated

theorem timely_after {calls : List DecoderCall}
    (dated : ∀ before, before <+: calls → (decoderAfter codec before).Dated) :
    (decoderAfter codec calls).Timely := by
  induction calls using List.reverseRecOn with
  | nil => exact .new
  | append_singleton calls call ih =>
    have last := dated _ List.prefix_rfl
    rw [decoderAfter_concat] at last ⊢
    have sound := decoderAfter_sound codec calls
    exact (ih fun before earlier => dated before (earlier.trans (List.prefix_append _ _))).step
      sound (call.apply_steps codec sound.keyed) last

/-! ## The shortcut -/

theorem sub_le {now created limit : Int} (within : now ≤ created + limit) (least : 0 ≤ limit) :
    ¬sub now created > limit := by
  rw [not_lt]
  exact max_le (by omega) ((min_le_right _ _).trans (by omega))

theorem fullScan_feedback (groups : List (Nat × ReceiveGroup))
    (completed : List (Nat × CompletedGroup)) :
    (d.fullScan now groups completed).1 =
      (groups.filterMap fun entry => expiryReport now entry.2) ++
        completed.filterMap fun entry => graceReport now entry.1 entry.2 := by
  simp only [fullScan, expireGroups_eq, expireCompleted_eq]

variable {id : Nat} {group : ReceiveGroup} {completed : List (Nat × CompletedGroup)}
  {groups : List (Nat × ReceiveGroup)}

theorem fullScan_groups
    {held : ReceiveGroup} :
    (d.fullScan now groups completed).2.groups.lookup id = some held ↔
      d.groups.lookup id = some held ∧
        ∀ entry ∈ groups, sub now entry.2.created > groupTTL → entry.2.groupID ≠ id := by
  rw [fullScan, expireCompleted_groups, expireGroups_lookup]

theorem fullScan_completed
    {held : CompletedGroup} :
    (d.fullScan now groups completed).2.completed.lookup id = some held ↔
      d.completed.lookup id = some held ∧
        ∀ entry ∈ completed, sub now entry.2.finalized > completionGrace → entry.1 ≠ id := by
  rw [fullScan, expireCompleted_lookup, expireGroups_completed]

/-- The order in which a scan visits the maps does not matter. -/
theorem fullScan_perm {groups groups' : List (Nat × ReceiveGroup)}
    {completed completed' : List (Nat × CompletedGroup)} (permGroups : groups.Perm groups')
    (permCompleted : completed.Perm completed') :
    (d.fullScan now groups completed).1.Perm (d.fullScan now groups' completed').1 ∧
      SameGroups (d.fullScan now groups completed).2 (d.fullScan now groups' completed').2 := by
  refine ⟨?_, fun id => ?_, fun id => ?_⟩
  · rw [fullScan_feedback, fullScan_feedback]
    exact (permGroups.filterMap _).append (permCompleted.filterMap _)
  · refine Option.ext fun held => ?_
    rw [fullScan_groups, fullScan_groups]
    simp only [permGroups.mem_iff]
  · refine Option.ext fun held => ?_
    rw [fullScan_completed, fullScan_completed]
    simp only [permCompleted.mem_iff]

theorem Timely.fullScan_idle (timely : d.Timely) (idle : d.nextExpiry = 0 ∨ ¬now > d.nextExpiry) :
    let scan := d.fullScan now (d.groups.entries.map fun entry => (entry.1, entry.2))
      (d.completed.entries.map fun entry => (entry.1, entry.2))
    scan.1 = [] ∧ SameGroups scan.2 d := by
  intro scan
  have early : ∀ {deadline}, Due d.nextExpiry deadline → now ≤ deadline := by
    intro deadline due
    exact (not_lt.mp (idle.resolve_left due.2.1)).trans due.2.2
  have fresh : ∀ entry ∈ d.groups.entries.map fun entry => (entry.1, entry.2),
      ¬sub now entry.2.created > groupTTL := by
    intro entry member
    exact sub_le (early (timely.groups _ _ (Every.mem_entries member))) (by decide)
  have within : ∀ entry ∈ d.completed.entries.map fun entry => (entry.1, entry.2),
      ¬sub now entry.2.finalized > completionGrace := by
    intro entry member
    exact sub_le (early (timely.completed _ _ (Every.mem_entries member))) (by decide)
  refine ⟨?_, fun id => ?_, fun id => ?_⟩
  · simp only [scan, fullScan_feedback, List.append_eq_nil_iff, List.filterMap_eq_nil_iff]
    constructor
    · intro entry member
      exact if_neg fun expired => fresh entry member expired.1
    · intro entry member
      exact if_neg fun above => within entry member above.1
  · refine Option.ext fun held => fullScan_groups.trans (and_iff_left ?_)
    exact fun entry member expired => absurd expired (fresh entry member)
  · refine Option.ext fun held => fullScan_completed.trans (and_iff_left ?_)
    exact fun entry member above => absurd above (within entry member)

/-- Unless the deadline of a group falls on the zero instant, `expire` reports and drops
what the scan without its shortcut does. -/
theorem lazy_expiry_exact (codec : Codec) {calls : List DecoderCall}
    (dated : ∀ before, before <+: calls → (decoderAfter codec before).Dated) (now : Time)
    {groups : List (Nat × ReceiveGroup)} {completed : List (Nat × CompletedGroup)}
    (allGroups : groups.Perm
      ((decoderAfter codec calls).groups.entries.map fun entry => (entry.1, entry.2)))
    (allCompleted : completed.Perm
      ((decoderAfter codec calls).completed.entries.map fun entry => (entry.1, entry.2))) :
    let d := decoderAfter codec calls
    (d.expire now).1.Perm (d.fullScan now groups completed).1 ∧
      (∀ id, (d.expire now).2.groups.lookup id =
        (d.fullScan now groups completed).2.groups.lookup id) ∧
      ∀ id, (d.expire now).2.completed.lookup id =
        (d.fullScan now groups completed).2.completed.lookup id := by
  intro d
  obtain ⟨reports, sameGroups, sameCompleted⟩ := @fullScan_perm d now _ _ _ _ allGroups allCompleted
  by_cases idle : d.nextExpiry = 0 ∨ ¬now > d.nextExpiry
  · obtain ⟨silent, keptGroups, keptCompleted⟩ := (timely_after dated).fullScan_idle idle
    rw [silent] at reports
    rw [Decoder.expire, if_pos idle]
    exact ⟨reports.symm, fun id => (keptGroups id).symm.trans (sameGroups id).symm,
      fun id => (keptCompleted id).symm.trans (sameCompleted id).symm⟩
  · have scanned : d.expire now = d.fullScan now
        (d.groups.entries.map fun entry => (entry.1, entry.2))
        (d.completed.entries.map fun entry => (entry.1, entry.2)) := by
      rw [Decoder.expire, if_neg idle, fullScan]
      dsimp only
      rw [expireGroups_completed]
    rw [scanned]
    exact ⟨reports.symm, fun id => (sameGroups id).symm, fun id => (sameCompleted id).symm⟩

/-- A group of which only the close record has arrived. -/
def closeRecord : Bytes :=
  marshalPacket { kind := .close, groupID := 7, k := 2, r := 1 }

theorem lazy_expiry_exact_closed : let d := decoderAfter interpolationCodec [.handle 1 closeRecord]
    (d.expire 4000000000).1.Perm (d.fullScan 4000000000
        (d.groups.entries.map fun entry => (entry.1, entry.2))
        (d.completed.entries.map fun entry => (entry.1, entry.2))).1 ∧
      (d.expire 4000000000).1 = [{ epoch := 0, groupID := 7, missing := 2, total := 2 }] := by
  refine ⟨(lazy_expiry_exact interpolationCodec ?_ 4000000000 (.refl _) (.refl _)).1,
    by decide +kernel⟩
  intro before earlier
  rcases List.prefix_cons_iff.mp earlier with rfl | ⟨rest, rfl, none⟩
  · exact .new
  · obtain rfl := List.prefix_nil.mp none
    have dated : (∀ entry ∈ (decoderAfter interpolationCodec
        [.handle 1 closeRecord]).groups.entries, entry.2.created + groupTTL ≠ 0) ∧
        (decoderAfter interpolationCodec [.handle 1 closeRecord]).completed.entries = [] := by
      decide +kernel
    refine ⟨fun id group found => dated.1 _ (mem_lookup_iff.mp found), ?_⟩
    intro id done found
    have listed := mem_lookup_iff.mp found
    cases listed

/-- A group whose deadline is the zero instant is never looked at. -/
theorem zero_deadline_unseen :
    let d := decoderAfter interpolationCodec [.handle (-groupTTL) closeRecord]
    let scan := d.fullScan 1 (d.groups.entries.map fun entry => (entry.1, entry.2))
      (d.completed.entries.map fun entry => (entry.1, entry.2))
    ((d.expire 1).1 = [] ∧ ((d.expire 1).2.groups.lookup 7).isSome) ∧
      scan.1 = [{ epoch := 0, groupID := 7, missing := 2, total := 2 }] ∧
        (scan.2.groups.lookup 7).isNone := by
  decide +kernel

/-! ## Stalled groups -/

/-- The group is so far behind the newest that no record of it is still expected. -/
def Lags (d : Decoder) (group : ReceiveGroup) : Prop :=
  group.groupID + maxInterleave ≤ d.lastGroupID

instance (d : Decoder) (group : ReceiveGroup) : Decidable (d.Lags group) :=
  inferInstanceAs (Decidable (_ ≤ _))

section

variable (sound : d.Sound)

include sound

/-- The test of `fastExpire` for the oldest group. -/
theorem Sound.lags_iff (found : d.groups.lookup id = some group) :
    ¬(d.lastGroupID + 2 ^ 64 - group.groupID) % 2 ^ 64 < maxInterleave ↔ d.Lags group := by
  have old : group.groupID ≤ d.lastGroupID := by
    rw [sound.keyed id group found]
    exact sound.latestGroup id group found
  have width := sound.width
  unfold Lags
  omega

theorem Sound.oldest {oldest : ExpiryEntry} {rest : List ExpiryEntry}
    (items : d.groupExpiry.items = oldest :: rest) :
    ∃ group, d.groups.lookup oldest.groupID = some group ∧ group.expiryEntry = oldest ∧
      ∀ id other, d.groups.lookup id = some other →
        group.expiryEntry.rank ≤ other.expiryEntry.rank := by
  have first : d.groupExpiry.items[0]? = some oldest := by
    rw [items]
    rfl
  obtain ⟨group, found, isOldest⟩ := (sound.tracks.tracked oldest).mp (List.mem_of_getElem? first)
  refine ⟨group, found, isOldest, fun id other held => ?_⟩
  rw [isOldest]
  exact sound.tracks.wellFormed.first_le first (sound.tracks.listed held)

theorem Sound.eq_of_key {left right : ReceiveGroup} {other : Nat}
    (first : d.groups.lookup id = some left) (second : d.groups.lookup other = some right)
    (same : left.groupID = right.groupID) : left = right := by
  have firstKnown := sound.known first
  rw [same, sound.known second] at firstKnown
  exact (Option.some.inj firstKnown).symm

/-- A group stays that comes after one that is not behind. -/
theorem Sound.fastExpireLoop_blocked {young : Nat} {blocker : ReceiveGroup} (fuel : Nat)
    (found : d.groups.lookup id = some group) (blocks : d.groups.lookup young = some blocker)
    (recent : ¬d.Lags blocker) (order : blocker.expiryEntry.rank ≤ group.expiryEntry.rank) :
    (Decoder.fastExpireLoop now fuel d).2.groups.lookup id = some group := by
  induction fuel generalizing d with
  | zero => exact found
  | succ fuel ih =>
    rw [Decoder.fastExpireLoop]
    split
    · exact found
    next oldest rest items =>
      obtain ⟨stalled, known, isOldest, least⟩ := sound.oldest items
      rw [known, ← isOldest]
      split
      · exact found
      next goes =>
        have behind : d.Lags stalled := (sound.lags_iff known).mp fun close => goes (.inl close)
        have notBlocker : stalled.groupID ≠ blocker.groupID := by
          intro same
          exact recent (sound.eq_of_key known blocks same ▸ behind)
        have notGroup : stalled.groupID ≠ group.groupID := by
          intro same
          have isGroup := sound.eq_of_key known found same
          have equal := le_antisymm (least young blocker blocks) (isGroup ▸ order)
          exact notBlocker (congrArg Prod.snd equal)
        have kept : ∀ {key other}, d.groups.lookup key = some other →
            stalled.groupID ≠ other.groupID →
            (d.removeGroup stalled).groups.lookup key = some other := by
          intro key other held different
          rw [sound.keyed key other held] at different
          exact lookup_erase_eq_some.mpr ⟨different.symm, held⟩
        exact ih (sound.removeGroup (sound.known known)) (kept found notGroup)
          (kept blocks notBlocker) recent

theorem Sound.fastExpireLoop_stops {fuel : Nat} (enough : d.groupExpiry.size ≤ fuel)
    (left : (Decoder.fastExpireLoop now fuel d).2.groups.lookup id = some group) :
    ∃ young blocker, d.groups.lookup young = some blocker ∧
      blocker.expiryEntry.rank ≤ group.expiryEntry.rank ∧
      ¬(d.Lags blocker ∧ sub now blocker.created > completionGrace) := by
  induction fuel generalizing d with
  | zero =>
    have listed := sound.tracks.listed left
    rw [List.length_eq_zero_iff.mp (Nat.le_zero.mp enough)] at listed
    cases listed
  | succ fuel ih =>
    rw [Decoder.fastExpireLoop] at left
    split at left
    next empty =>
      have listed := sound.tracks.listed left
      rw [empty] at listed
      cases listed
    next oldest rest items =>
      obtain ⟨stalled, known, isOldest, least⟩ := sound.oldest items
      rw [known, ← isOldest] at left
      split at left
      next stops =>
        refine ⟨_, stalled, known, least id group left, ?_⟩
        rintro ⟨behind, aged⟩
        rcases stops with close | young
        · exact (sound.lags_iff known).mpr behind close
        · exact absurd aged (not_lt.mpr young)
      next goes =>
        have listed := sound.tracks.listed known
        have shorter : (d.removeGroup stalled).groupExpiry.size ≤ fuel := by
          have length := sound.tracks.length_remove listed
          rw [← ExpiryEntry.less_eq_before] at length
          exact Nat.le_of_succ_le_succ (length.trans_le enough)
        obtain ⟨young, blocker, found, order, blocks⟩ :=
          ih (sound.removeGroup (sound.known known)) shorter left
        exact ⟨young, blocker, (lookup_erase_cases found).2, order, blocks⟩

end

/-- Each group that is behind came before those that are not. -/
def CreatedInOrder (d : Decoder) : Prop :=
  ∀ id group young recent, d.groups.lookup id = some group →
    d.groups.lookup young = some recent → d.Lags group → ¬d.Lags recent →
    group.expiryEntry.less recent.expiryEntry = true

theorem Sound.expireIdle_subset (sound : d.Sound)
    (left : (d.expireIdle now).2.groups.lookup id = some group) :
    (d.fastExpire now).2.groups.lookup id = some group ∧ d.groups.lookup id = some group := by
  have self : ∀ e : Decoder, e.Every (fun id group => e.groups.lookup id = some group)
      fun _ _ => True := fun e => ⟨fun _ _ found => found, fun _ _ _ => trivial⟩
  have sweeps := fastExpire_sweeps sound.keyed now
  have swept := ((self _).sweeps (expire_sweeps (sound.fastExpire now).keyed now)).1.groups id group
    left
  exact ⟨swept, ((self d).sweeps sweeps).1.groups id group swept⟩

theorem Sound.expire_fresh (sound : d.Sound) (found : d.groups.lookup id = some group)
    (fresh : ¬sub now group.created > groupTTL) :
    (d.expire now).2.groups.lookup id = some group := by
  unfold Decoder.expire
  split
  · exact found
  · rw [expireCompleted_groups, expireGroups_lookup]
    refine ⟨found, fun entry member expired same => fresh ?_⟩
    have isGroup := sound.eq_of_key (Every.mem_entries member) found
      (same.trans (sound.keyed id group found).symm)
    rwa [isGroup] at expired

theorem created_le {left right : ExpiryEntry} (order : left.rank ≤ right.rank) :
    left.created ≤ right.created := by
  rcases Prod.Lex.toLex_le_toLex.mp order with less | ⟨same, _⟩
  · exact le_of_lt less
  · exact le_of_eq same

/-- `Expire` leaves no stalled group, at any time, just when no group that is behind was
created after one that is not. -/
theorem stalled_reported_iff (codec : Codec) (calls : List DecoderCall) :
    let d := decoderAfter codec calls
    (∀ now id group, (d.expireIdle now).2.groups.lookup id = some group →
      ¬((d.expireIdle now).2.Lags group ∧ sub now group.created > completionGrace)) ↔
    d.CreatedInOrder := by
  intro d
  have sound : d.Sound := decoderAfter_sound codec calls
  have last : ∀ now, (d.expireIdle now).2.lastGroupID = d.lastGroupID := by
    intro now
    exact (expire_sweeps (sound.fastExpire now).keyed now).lastGroupID.trans
      (fastExpire_sweeps sound.keyed now).lastGroupID
  constructor
  · intro reported id group young recent found held behind close
    by_contra later
    have order : recent.expiryEntry.rank ≤ group.expiryEntry.rank :=
      not_lt.mp fun earlier => later (ExpiryEntry.less_iff.mpr earlier)
    -- right after the grace of the group, which is long before it expires
    have age : sub (group.created + completionGrace + 1) group.created = completionGrace + 1 := by
      unfold sub completionGrace
      omega
    have swept : (d.fastExpire (group.created + completionGrace + 1)).2.groups.lookup id =
        some group := sound.fastExpireLoop_blocked _ found held close order
    have left := (sound.fastExpire _).expire_fresh swept (by rw [age]; decide)
    refine reported _ id group left ⟨?_, by rw [age]; decide⟩
    unfold Lags
    rw [last]
    exact behind
  · rintro ordered now id group left ⟨behind, aged⟩
    unfold Lags at behind
    rw [last] at behind
    obtain ⟨swept, found⟩ := sound.expireIdle_subset left
    obtain ⟨young, blocker, held, order, blocks⟩ := sound.fastExpireLoop_stops (le_refl _) swept
    have older : sub now blocker.created > completionGrace :=
      aged.trans_le (sub_mono (le_refl _) (created_le order))
    have recent : ¬d.Lags blocker := fun lags => blocks ⟨lags, older⟩
    have earlier :=
      ExpiryEntry.less_iff.mp (ordered id group young blocker found held behind recent)
    exact earlier.not_ge order

/-- The first shards of two groups, in the order in which they come. -/
def twoGroups (first second : Nat) : List DecoderCall :=
  [.handle 1 (marshalPacket { kind := .data, groupID := first, payload := [0, 1, 9] }),
    .handle 2 (marshalPacket { kind := .data, groupID := second, payload := [0, 1, 9] })]

/-- The older group came first and is stalled, and goes. -/
theorem single_group_reported : let d := decoderAfter interpolationCodec (twoGroups 3 10)
    (∀ now id group, (d.expireIdle now).2.groups.lookup id = some group →
      ¬((d.expireIdle now).2.Lags group ∧ sub now group.created > completionGrace)) ∧
    ((d.groups.lookup 3).any fun group => d.Lags group) = true ∧
    ((d.expireIdle 20000000).2.groups.lookup 3).isNone ∧
    ((d.expireIdle 20000000).2.groups.lookup 10).isSome := by
  refine ⟨(stalled_reported_iff interpolationCodec (twoGroups 3 10)).mpr ?_, by decide +kernel⟩
  have ordered : ∀ entry ∈ (decoderAfter interpolationCodec (twoGroups 3 10)).groups.entries,
      ∀ other ∈ (decoderAfter interpolationCodec (twoGroups 3 10)).groups.entries,
        (decoderAfter interpolationCodec (twoGroups 3 10)).Lags entry.2 →
          ¬(decoderAfter interpolationCodec (twoGroups 3 10)).Lags other.2 →
            entry.2.expiryEntry.less other.2.expiryEntry = true := by
    decide +kernel
  intro id group young recent found held
  exact ordered _ (mem_lookup_iff.mp found) _ (mem_lookup_iff.mp held)

/-- The older group waits behind the newer one, which is not stalled. -/
theorem stalled_behind_recent :
    let after := ((decoderAfter interpolationCodec (twoGroups 10 3)).expireIdle 20000000).2
    ∃ group, after.groups.lookup 3 = some group ∧ after.Lags group ∧
      sub 20000000 group.created > completionGrace := by
  intro after
  have stays : (after.groups.lookup 3).any (fun group =>
      after.Lags group ∧ sub 20000000 group.created > completionGrace) = true := by
    decide +kernel
  obtain ⟨group, found, stalled⟩ := Option.any_eq_true _ _ |>.mp stays
  exact ⟨group, found, of_decide_eq_true stalled⟩

end Decoder

end WgQuic.Fec
