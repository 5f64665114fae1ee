import WgQuic.FreeBSDRoutes.Leaser

/-!
# Live leases keep their route

The reference count of an entry is the number of leases that are not released,
and its route is in the kernel until the last of them is being released.  A
release that has deleted the route but cannot save the ledger leaves its entry
behind; a lease that joins such an entry has no route.
-/

namespace WgQuic.FreeBSDRoutes

open Net AList
open WgQuic.Configuration (Text)
open Platform (EndpointRouteLedger)

/-- Every lease that nobody has tried to release has its route. -/
def World.Live (world : World) : Prop :=
  ∀ lease ∈ world.leases, lease.released = false → lease.attempted = false →
    world.routes lease.address = true

/-- The command that failed, with the text of its failure. -/
def failure : (request : Call) → request.Answer → Option (RouteCommand × String)
  | .execute command, reply =>
    match (reply : Except String Unit) with
    | .error text => some (command, text)
    | .ok () => none
  | .defaultGateway _, _ => none
  | .writeLedger _, _ => none
  | .loadLedger, _ => none
  | .queryRoute _, _ => none

/-- A route that is said to exist is there, and a failed deletion leaves it. -/
def faithful (before after : World) : Option (RouteCommand × String) → Bool
  | some (.add address _, text) => !mentionsExist text || after.routes address
  | some (.delete address, _) =>
    after.routes address == before.routes address
  | none => true

/-- The acquisition does not join an entry whose route has been deleted. -/
def joinsPresent (world : World) : Operation → Bool
  | .acquire (some address) =>
    (world.leaser.entries.lookup address.unmap).all fun entry =>
      !entry.deleted
  | _ => true

def condition : SystemCondition where
  start world operation := joinsPresent world operation = true
  answer _ before request reply after :=
    faithful before after (failure request reply) = true

/-- The world as it was in `base`, up to the route of one address and the saved
ledger. -/
structure At (address : Addr) (base : World) (present : Bool)
    (world : World) : Prop where
  leaser : world.leaser = base.leaser
  leases : world.leases = base.leases
  others : ∀ other, other ≠ address → world.routes other = base.routes other
  here : world.routes address = present

/-- Whatever happens to the route of `address`, no live lease misses it. -/
def Unwatched (address : Addr) (base : World) : Prop :=
  base.Live ∧ ∀ lease ∈ base.leases, lease.address = address →
    lease.released = false → lease.attempted = true

variable {base world : World}

theorem At.live {address : Addr} {present : Bool}
    (at_ : At address base present world) (unwatched : Unwatched address base) : world.Live := by
  intro lease member unreleased unattempted
  rw [at_.leases] at member
  by_cases same : lease.address = address
  · have attempted := unwatched.2 lease member same unreleased
    rw [unattempted] at attempted
    cases attempted
  · rw [at_.others _ same]
    exact unwatched.1 lease member unreleased unattempted

theorem At.routes_eq {address : Addr}
    (at_ : At address base (base.routes address) world) : world.routes = base.routes := by
  funext other
  by_cases same : other = address
  · rw [same, at_.here]
  · exact at_.others other same

/-- A program that only changes the route of `address`.  The assertions speak
about whether the route is there. -/
def Keeps {α : Type} (operation : Operation) (address : Addr) (base : World)
    (program : Routine α) (present : Bool) (post : α → Bool → Prop) : Prop :=
  ∀ world, At address base present world → program.Meets (system.around condition operation)
      (fun world _ => world.Live)
      (fun value world =>
        ∃ after, At address base after world ∧ post value after) world

section Rules

variable {α β : Type} {operation : Operation} {address : Addr} {base : World} {present : Bool}

theorem stable (assertion : World → Prop) : (system.around condition operation).Stable assertion :=
  fun _ _ drifts _ => nomatch drifts.choose

theorem Keeps.pure {value : α} {post : α → Bool → Prop} (holds : post value present) :
    Keeps operation address base (pure value) present post :=
  fun _ at_ => Program.Meets.done (stable _) at_ fun _ at_ =>
    ⟨present, at_, holds⟩

variable {program : Routine α}

theorem Keeps.bind {continuation : α → Routine β} {mid : α → Bool → Prop} {post : β → Bool → Prop}
    (first : Keeps operation address base program present mid)
    (rest : ∀ value after, mid value after →
      Keeps operation address base (continuation value) after post) :
    Keeps operation address base (program >>= continuation) present post := by
  intro world at_
  refine Program.Meets.bind (first world at_) ?_
  rintro value later ⟨after, at_, holds⟩
  exact rest value after holds later at_

theorem Keeps.weaken {post final : α → Bool → Prop}
    (keeps : Keeps operation address base program present post)
    (implied : ∀ value after, post value after → final value after) :
    Keeps operation address base program present final := by
  intro world at_
  refine (keeps world at_).weaken (fun _ _ permitted => permitted) ?_
  rintro value later ⟨after, at_, holds⟩
  exact ⟨after, at_, implied value after holds⟩

theorem Keeps.ask {request : Call} {post : request.Answer → Bool → Prop}
    (unwatched : Unwatched address base)
    (answered : ∀ before reply after, At address base present before →
      (∃ choice, respond before request choice = some (reply, after)) →
      faithful before after (failure request reply) = true →
      ∃ later, At address base later after ∧ post reply later) :
    Keeps operation address base (Program.ask request) present post := by
  intro world at_
  refine Program.Meets.ask_bind (stable _) at_ (fun later at_ => at_.live unwatched) ?_
  intro before reply after at_ answers
  exact Program.Meets.done (stable _)
    (answered before reply after at_ answers.1 answers.2) fun _ holds => holds

theorem At.setRoute {world : World} (at_ : At address base present world)
    (after : Bool) : At address base after (world.setRoute address after) := by
  refine ⟨at_.leaser, at_.leases, ?_, Function.update_self ..⟩
  intro other different
  exact (Function.update_of_ne different ..).trans (at_.others other different)

theorem At.write {world : World} (at_ : At address base present world)
    (ledger : EndpointRouteLedger) : At address base present (world.write ledger) :=
  ⟨at_.leaser, at_.leases, at_.others, at_.here⟩

section

variable (unwatched : Unwatched address base)

include unwatched

theorem getDefaultGateway_keeps (ipv6 : Bool) :
    Keeps operation address base (getDefaultGateway ipv6) present
      fun _ after => after = present := by
  refine Keeps.ask unwatched ?_
  rintro before reply after at_ ⟨choice, responds⟩ _
  cases choice <;> cases responds <;> exact ⟨present, at_, rfl⟩

theorem writeLedger_keeps (ledger : EndpointRouteLedger) :
    Keeps operation address base (writeFreeBSDEndpointRouteLedger ledger)
      present fun _ after => after = present := by
  refine Keeps.ask unwatched ?_
  rintro before reply after at_ ⟨choice, responds⟩ _
  cases choice with
  | succeed =>
    cases responds
    exact ⟨present, at_.write ledger, rfl⟩
  | gateway _ => cases responds
  | fail text tookEffect =>
    cases responds
    refine ⟨present, ?_, rfl⟩
    cases tookEffect
    · exact at_
    · exact at_.write ledger

theorem add_keeps (gateway : Gateway) :
    Keeps operation address base (execute (.add address gateway)) present
      fun reply after => (reply = .ok () → after = true) ∧
        ∀ text, reply = .error text → mentionsExist text = true → after = true := by
  refine Keeps.ask unwatched ?_
  rintro before reply after at_ ⟨choice, responds⟩ faithful_
  cases choice with
  | succeed =>
    cases responds
    exact ⟨true, at_.setRoute true, fun _ => rfl, nofun⟩
  | gateway _ => cases responds
  | fail text tookEffect =>
    cases responds
    cases tookEffect
    · refine ⟨present, at_, nofun, ?_⟩
      rintro _ ⟨⟩ mentions
      simp only [failure, faithful, mentions, Bool.not_true, Bool.false_or] at faithful_
      exact at_.here ▸ faithful_
    · exact ⟨true, at_.setRoute true, nofun, fun _ _ _ => rfl⟩

theorem delete_keeps {command : RouteCommand} (undo : command = .delete address) :
    Keeps operation address base (execute command) present
      fun reply after => (reply = .ok () → after = false) ∧
        ∀ text, reply = .error text → after = present := by
  subst undo
  refine Keeps.ask unwatched ?_
  rintro before reply after at_ ⟨choice, responds⟩ faithful_
  cases choice with
  | succeed =>
    cases responds
    exact ⟨false, at_.setRoute false, fun _ => rfl, nofun⟩
  | gateway _ => cases responds
  | fail text tookEffect =>
    cases responds
    cases tookEffect
    · exact ⟨present, at_, nofun, fun _ _ => rfl⟩
    · refine ⟨false, at_.setRoute false, nofun, ?_⟩
      intro _ _
      simp only [failure, faithful, beq_iff_eq] at faithful_
      rw [at_.here] at faithful_
      exact (at_.setRoute false).here.symm.trans faithful_

end

end Rules

/-! ## The programs of the leaser -/

namespace Leaser

variable {operation : Operation} {address : Addr} {base : World} {present : Bool}

/-- The outcome leaves the entries and the route. -/
abbrev Untouched {α : Type} (m : Leaser) (present : Bool) (value : α × Leaser)
    (after : Bool) : Prop :=
  value.2.entries = m.entries ∧ after = present

section

variable (unwatched : Unwatched address base) (m : Leaser)

include unwatched m

theorem saveLedgerLocked_keeps :
    Keeps operation address base m.saveLedgerLocked present (m.Untouched present) := by
  rw [saveLedgerLocked]
  split
  · exact .pure ⟨rfl, rfl⟩
  · dsimp only
    split
    · exact .pure ⟨rfl, rfl⟩
    · refine (writeLedger_keeps unwatched _).bind ?_
      rintro saved after rfl
      exact .pure ⟨rfl, rfl⟩

theorem removeLedgerRecordLocked_keeps (recorded : Addr) :
    Keeps operation address base (m.removeLedgerRecordLocked recorded) present
      (m.Untouched present) := by
  rw [removeLedgerRecordLocked]
  split
  · exact .pure ⟨rfl, rfl⟩
  · split
    · exact saveLedgerLocked_keeps unwatched _
    · exact saveLedgerLocked_keeps unwatched m

theorem journalAdd_keeps (gateway : Gateway) :
    Keeps operation address base (m.journalAdd address gateway) present (m.Untouched present) := by
  rw [journalAdd]
  split
  · exact .pure ⟨rfl, rfl⟩
  · refine (saveLedgerLocked_keeps unwatched _).bind ?_
    rintro ⟨saved, next⟩ after ⟨entries, rfl⟩
    dsimp only
    split
    · exact .pure ⟨entries, rfl⟩
    · exact .pure ⟨entries, rfl⟩

end

/-- A new lease has an entry of its own and a route. -/
def Grants (m : Leaser) (address : Addr) (value : Acquired × Leaser) (after : Bool) : Prop :=
  (∃ err, value.1 = .failed err) ∧ value.2.entries = m.entries ∨
    value.1 = .lease address ∧ after = true ∧ ∃ managed, value.2.entries = m.entries.insert address
        { refs := 1, managed, undo := .delete address }

theorem borrow_keeps (unwatched : Unwatched address base) (m : Leaser) :
    Keeps operation address base (m.borrow address (.delete address)) true (m.Grants address) := by
  refine (removeLedgerRecordLocked_keeps unwatched m address).bind ?_
  rintro ⟨removed, next⟩ after ⟨entries, rfl⟩
  dsimp only at entries ⊢
  split
  · exact .pure (.inl ⟨⟨_, rfl⟩, entries⟩)
  · refine .pure (.inr ⟨rfl, rfl, false, ?_⟩)
    rw [enter, entries]

theorem markActive_entries (m : Leaser) (address : Addr) :
    (m.markActive address).entries = m.entries := by
  unfold markActive
  split <;> rfl

theorem confirm_keeps (unwatched : Unwatched address base) (m : Leaser) :
    Keeps operation address base (m.confirm address (.delete address)) true (m.Grants address) := by
  rw [confirm]
  split
  · exact .pure (.inr ⟨rfl, rfl, true, rfl⟩)
  · refine (saveLedgerLocked_keeps unwatched (m.markActive address)).bind ?_
    rintro ⟨saved, next⟩ after ⟨entries, rfl⟩
    have same : next.entries = m.entries := entries.trans (m.markActive_entries address)
    dsimp only
    split
    · refine .pure (.inr ⟨rfl, rfl, true, ?_⟩)
      rw [enter, same]
    · refine (delete_keeps unwatched rfl).bind ?_
      rintro undone after -
      split
      · exact .pure (.inl ⟨⟨_, rfl⟩, same⟩)
      · refine (removeLedgerRecordLocked_keeps unwatched next address).bind ?_
        rintro ⟨removed, last⟩ after ⟨entries, rfl⟩
        exact .pure (.inl ⟨⟨_, rfl⟩, entries.trans same⟩)

theorem addRoute_keeps (unwatched : Unwatched address base) (m : Leaser) :
    Keeps operation address base (m.addRoute address) present (m.Grants address) := by
  refine (getDefaultGateway_keeps unwatched _).bind ?_
  rintro answer after rfl
  split
  · exact .pure (.inl ⟨⟨_, rfl⟩, rfl⟩)
  next gateway =>
  refine (journalAdd_keeps unwatched m gateway).bind ?_
  rintro ⟨saved, next⟩ after ⟨entries, rfl⟩
  dsimp only at entries ⊢
  have grants : ∀ value after, next.Grants address value after → m.Grants address value after := by
    intro value after granted
    rw [Grants, entries] at granted
    exact granted
  split
  · exact .pure (.inl ⟨⟨_, rfl⟩, entries⟩)
  · refine (add_keeps unwatched gateway).bind ?_
    rintro reply after ⟨added, existing⟩
    split
    · cases added rfl
      exact (confirm_keeps unwatched next).weaken grants
    next err =>
    split
    · next mentions =>
      cases existing err rfl mentions
      exact (borrow_keeps unwatched next).weaken grants
    · refine (removeLedgerRecordLocked_keeps unwatched next address).bind ?_
      rintro ⟨removed, last⟩ after ⟨same, rfl⟩
      exact .pure (.inl ⟨⟨_, rfl⟩, same.trans entries⟩)

/-- A release has forgotten its entry, or has left it as it was, or is left
with an entry whose route is gone. -/
inductive Forgets (m : Leaser) (address : Addr) (entry : Entry)
    (present : Bool) : Except String Unit × Leaser → Bool → Prop where
  | done {next : Leaser} {after : Bool} (absent : next.entries.lookup address = none)
      (others : ∀ other, other ≠ address → next.entries.lookup other = m.entries.lookup other) :
      Forgets m address entry present (.ok (), next) after
  | kept {err : String} {next : Leaser} (entries : next.entries = m.entries) :
      Forgets m address entry present (.error err, next) present
  | gone {err : String} {next : Leaser}
      (entries : next.entries = m.entries.insert address { entry with deleted := true }) :
      Forgets m address entry present (.error err, next) false

section

variable (unwatched : Unwatched address base) (m : Leaser)

include unwatched m

theorem forget_keeps : Keeps operation address base (m.forget address) present
      fun value after => after = present ∧
        (value.1 = .ok () ∧ value.2.entries = m.entries.erase address ∨
          (∃ err, value.1 = .error err) ∧ value.2.entries = m.entries) := by
  refine (removeLedgerRecordLocked_keeps unwatched m address).bind ?_
  rintro ⟨removed, next⟩ after ⟨entries, rfl⟩
  dsimp only at entries ⊢
  split
  · exact .pure ⟨rfl, .inr ⟨⟨_, rfl⟩, entries⟩⟩
  · refine .pure ⟨rfl, .inl ⟨rfl, ?_⟩⟩
    rw [drop, entries]

theorem journalDelete_keeps :
    Keeps operation address base (m.journalDelete address) present (m.Untouched present) := by
  rw [journalDelete]
  split
  · exact .pure ⟨rfl, rfl⟩
  · split
    · exact .pure ⟨rfl, rfl⟩
    · exact saveLedgerLocked_keeps unwatched _

theorem deleteRoute_keeps {entry : Entry} (undo : entry.undo = .delete address) :
    Keeps operation address base (m.deleteRoute address entry) present
      (m.Forgets address entry present) := by
  refine (journalDelete_keeps unwatched m).bind ?_
  rintro ⟨saved, next⟩ after ⟨entries, rfl⟩
  dsimp only at entries ⊢
  split
  · exact .pure (.kept entries)
  · refine (delete_keeps unwatched undo).bind ?_
    rintro reply after ⟨deleted, failed⟩
    split
    · cases failed _ rfl
      exact .pure (.kept entries)
    · cases deleted rfl
      refine (forget_keeps unwatched _).weaken ?_
      rintro ⟨outcome, last⟩ after ⟨rfl, done | kept⟩
      · obtain ⟨rfl, erased⟩ := done
        dsimp only [enter] at erased
        rw [entries] at erased
        refine .done ?_ ?_
        · rw [erased, lookup_erase]
        · intro other different
          rw [erased, lookup_erase_ne different, lookup_insert_ne different]
      · obtain ⟨⟨err, rfl⟩, kept⟩ := kept
        dsimp only [enter] at kept
        rw [entries] at kept
        exact .gone kept

end

end Leaser

def openCount (leases : List Lease) (address : Addr) : Nat :=
  leases.countP fun lease =>
    decide (lease.address = address ∧ lease.released = false)

structure World.SoundAt (world : World) (address : Addr) : Prop where
  counts : (world.leaser.entries.lookup address).elim 0 Entry.refs = openCount world.leases address
  positive : ∀ entry, world.leaser.entries.lookup address = some entry → 0 < entry.refs
  undo : ∀ entry, world.leaser.entries.lookup address = some entry → entry.undo = .delete address
  present : ∀ entry, world.leaser.entries.lookup address = some entry →
    entry.deleted = false → world.routes address = true
  gone : ∀ entry, world.leaser.entries.lookup address = some entry →
    entry.deleted = true → ∀ lease ∈ world.leases, lease.address = address →
      lease.released = false → lease.attempted = true

def World.Sound (world : World) : Prop := ∀ address, world.SoundAt address

variable {lease : Lease}

theorem openCount_pos {leases : List Lease} (member : lease ∈ leases)
    (unreleased : lease.released = false) : 0 < openCount leases lease.address :=
  List.countP_pos_iff.mpr ⟨lease, member, by simp [unreleased]⟩

variable {world : World}

theorem World.Sound.entry (sound : world.Sound)
    (member : lease ∈ world.leases) (unreleased : lease.released = false) :
    ∃ entry, world.leaser.entries.lookup lease.address = some entry ∧
      entry.refs = openCount world.leases lease.address := by
  have counts := (sound lease.address).counts
  have positive := openCount_pos member unreleased
  cases found : world.leaser.entries.lookup lease.address with
  | none =>
    rw [found] at counts
    rw [← counts] at positive
    cases positive
  | some entry =>
    rw [found] at counts
    exact ⟨entry, rfl, counts⟩

theorem World.Sound.live (sound : world.Sound) : world.Live := by
  intro lease member unreleased unattempted
  obtain ⟨entry, found, _⟩ := sound.entry member unreleased
  cases deleted : entry.deleted with
  | false => exact (sound lease.address).present entry found deleted
  | true =>
    have attempted := (sound lease.address).gone entry found deleted lease member rfl unreleased
    rw [unattempted] at attempted
    cases attempted

theorem World.SoundAt.congr {address : Addr} (sound : base.SoundAt address)
    (entries : world.leaser.entries.lookup address = base.leaser.entries.lookup address)
    (routes : world.routes address = base.routes address)
    (counts : openCount world.leases address = openCount base.leases address)
    (leases : ∀ lease ∈ world.leases, lease.address = address →
      lease.released = false → lease.attempted = false → lease ∈ base.leases) :
    world.SoundAt address := by
  constructor
  · rw [entries, counts]
    exact sound.counts
  · rw [entries]
    exact sound.positive
  · rw [entries]
    exact sound.undo
  · rw [entries, routes]
    exact sound.present
  · rw [entries]
    intro entry found deleted lease member same unreleased
    cases attempted : lease.attempted with
    | true => rfl
    | false =>
      have known := leases lease member same unreleased attempted
      rw [← attempted]
      exact sound.gone entry found deleted lease known same unreleased

theorem World.SoundAt.none {address : Addr} (absent : world.leaser.entries.lookup address = none)
    (counts : openCount world.leases address = 0) : world.SoundAt address := by
  constructor
  · rw [absent, counts]
    rfl
  all_goals
    intro entry found
    rw [absent] at found
    cases found

/-! ## Acquiring -/

theorem openCount_append (leases : List Lease) (granted address : Addr) :
    openCount (leases ++ [{ address := granted }]) address =
      openCount leases address + if granted = address then 1 else 0 := by
  simp [openCount, List.countP_append, List.countP_cons]

/-- A new lease of `granted` next to the leases of `base`. -/
theorem sound_granted (sound : base.Sound) {granted : Addr} {entry : Entry}
    (entries : world.leaser.entries = base.leaser.entries.insert granted entry)
    (leases : world.leases = base.leases ++ [{ address := granted }])
    (others : ∀ other, other ≠ granted → world.routes other = base.routes other)
    (here : world.routes granted = true) (undo : entry.undo = .delete granted)
    (kept : entry.deleted = false) (refs : entry.refs = openCount base.leases granted + 1) :
    world.Sound := by
  intro address
  by_cases same : address = granted
  · subst same
    have found : world.leaser.entries.lookup address = some entry := by
      rw [entries, lookup_insert]
    constructor
    · rw [found, leases, openCount_append, if_pos rfl]
      exact refs
    all_goals
      intro other otherFound
      rw [found] at otherFound
      cases otherFound
    · omega
    · exact undo
    · exact fun _ => here
    · intro deleted
      rw [kept] at deleted
      cases deleted
  · refine (sound address).congr ?_ (others address same) ?_ ?_
    · rw [entries, lookup_insert_ne same]
    · rw [leases, openCount_append, if_neg (Ne.symm same), Nat.add_zero]
    · intro lease member sameAddress _ _
      rw [leases] at member
      rcases List.mem_append.mp member with member | member
      · exact member
      · rw [List.mem_singleton.mp member] at sameAddress
        exact (same sameAddress.symm).elim

/-- What an operation's program does to a sound world. -/
abbrev Settles (operation : Operation) (program : Routine Result) (world : World) : Prop :=
  program.Meets (system.around condition operation) (fun world _ => world.Live)
    (fun result world => (world.finish operation result).Sound ∧ world.Live)
    world

theorem settles_pure {operation : Operation} {result : Result}
    (sound : (world.finish operation result).Sound) (live : world.Live) :
    Settles operation (pure result) world := by
  refine Program.Meets.done (stable (· = world)) rfl ?_
  rintro later rfl
  exact ⟨sound, live⟩

variable {base : World} {requested : Option Addr}

theorem addRoute_settles (sound : base.Sound)
    {address : Addr} (absent : base.leaser.entries.lookup address = none) :
    Settles (.acquire requested) (do
      let (outcome, leaser) ← base.leaser.addRoute address
      return .acquired outcome leaser) base := by
  have unwatched : Unwatched address base := by
    refine ⟨sound.live, ?_⟩
    rintro lease member rfl unreleased
    obtain ⟨entry, found, _⟩ := sound.entry member unreleased
    rw [absent] at found
    cases found
  have counts := (sound address).counts
  rw [absent] at counts
  refine Program.Meets.bind (Leaser.addRoute_keeps unwatched base.leaser base
    ⟨rfl, rfl, fun _ _ => rfl, rfl⟩) ?_
  rintro ⟨outcome, leaser⟩ world ⟨after, at_, grants⟩
  refine settles_pure ?_ (at_.live unwatched)
  rcases grants with ⟨⟨err, rfl⟩, entries⟩ | ⟨rfl, rfl, managed, entries⟩
  · -- Only the route of the address may have changed, and nobody has it.
    intro other
    by_cases same : other = address
    · subst same
      refine World.SoundAt.none ?_ ?_
      · exact (congrArg (lookup other) entries).trans absent
      · exact (congrArg (openCount · other) at_.leases).trans counts.symm
    · refine (sound other).congr ?_ (at_.others other same) ?_ ?_
      · exact congrArg (lookup other) entries
      · exact congrArg (openCount · other) at_.leases
      · intro lease member _ _ _
        exact at_.leases ▸ member
  · refine sound_granted sound entries ?_ at_.others at_.here rfl rfl ?_
    · exact congrArg (· ++ [{ address }]) at_.leases
    · rw [← counts]
      rfl

theorem acquire_settles (sound : base.Sound)
    (joins : joinsPresent base (.acquire requested) = true) :
    Settles (.acquire requested) (do
      let (outcome, leaser) ← base.leaser.acquireEndpointRoute requested
      return .acquired outcome leaser) base := by
  rw [Leaser.acquireEndpointRoute]
  cases requested with
  | none => exact settles_pure sound sound.live
  | some requested =>
    simp only [Option.map_some]
    split
    · exact settles_pure sound sound.live
    · split
      · exact settles_pure sound sound.live
      · split
        · next entry found =>
          -- The entry is shared.
          have kept : entry.deleted = false := by
            simpa [joinsPresent, found] using joins
          have at_ := sound requested.unmap
          have counts := at_.counts
          rw [found] at counts
          refine settles_pure ?_ sound.live
          exact sound_granted sound rfl rfl (fun _ _ => rfl)
            (at_.present entry found kept) (at_.undo entry found) kept
            (congrArg (· + 1) counts)
        · next absent => exact addRoute_settles sound absent

/-! ## Releasing -/

theorem openCount_middle (before after : List Lease) (lease : Lease) (address : Addr) :
    openCount (before ++ lease :: after) address = openCount (before ++ after) address +
        if lease.address = address ∧ lease.released = false then 1 else 0 := by
  simp only [openCount, List.countP_append, List.countP_cons, decide_eq_true_eq]
  omega

/-- Marking a lease as attempted changes nothing else. -/
theorem World.Sound.start (sound : world.Sound)
    (operation : Operation) : (world.start operation).Sound := by
  cases operation with
  | acquire requested => exact sound
  | release index =>
    by_cases bound : index < world.leases.length
    · obtain ⟨before, lease, after, split_, _, modified⟩ := List.exists_of_modify
          (fun lease : Lease => { lease with attempted := true }) bound
      have leases : (world.start (.release index)).leases =
          before ++ { lease with attempted := true } :: after := modified
      intro address
      refine (sound address).congr rfl rfl ?_ ?_
      · rw [leases, split_, openCount_middle, openCount_middle]
      · intro other member _ _ unattempted
        rw [leases, List.mem_append, List.mem_cons] at member
        rw [split_, List.mem_append, List.mem_cons]
        rcases member with member | rfl | member
        · exact .inl member
        · cases unattempted
        · exact .inr (.inr member)
    · have same : world.start (.release index) = world := by
        rw [World.start, List.modify_eq_self (Nat.le_of_not_lt bound)]
      rw [same]
      exact sound

/-- The lease at `index` is being released for the first time or again. -/
structure Releasing (base : World) (index : Nat) (address : Addr) : Prop where
  sound : base.Sound
  split : ∃ before lease after, base.leases = before ++ lease :: after ∧
    before.length = index ∧ lease.address = address ∧
    lease.released = false ∧ lease.attempted = true

theorem modify_middle (before after : List Lease) (lease : Lease) (change : Lease → Lease) :
    (before ++ lease :: after).modify before.length change = before ++ change lease :: after := by
  induction before with
  | nil => rfl
  | cons first rest ih => exact congrArg (first :: ·) ih

theorem start_releasing (sound : world.Sound) {index : Nat}
    (found : world.leases[index]? = some lease) (unreleased : lease.released = false) :
    Releasing (world.start (.release index)) index lease.address := by
  obtain ⟨bound, rfl⟩ := List.getElem?_eq_some_iff.mp found
  obtain ⟨before, other, after, split_, rfl, modified⟩ := List.exists_of_modify
      (fun lease : Lease => { lease with attempted := true }) bound
  have same : world.leases[before.length] = other := by simp [split_]
  rw [same] at unreleased ⊢
  exact ⟨sound.start _, before, { other with attempted := true }, after,
    modified, rfl, rfl, unreleased, rfl⟩

namespace Releasing

variable {base : World} {index : Nat} {address : Addr}

section

variable (releasing : Releasing base index address)

include releasing

theorem entry : ∃ entry, base.leaser.entries.lookup address = some entry ∧
      entry.refs = openCount base.leases address := by
  obtain ⟨before, lease, after, leases, _, rfl, unreleased, _⟩ := releasing.split
  exact releasing.sound.entry (by simp [leases]) unreleased

theorem released : let leases := base.leases.modify index fun lease =>
      { lease with released := true }
    (∀ other, openCount base.leases other =
      openCount leases other + if address = other then 1 else 0) ∧
      ∀ lease ∈ leases, lease.released = false → lease ∈ base.leases := by
  obtain ⟨before, lease, after, leases, rfl, rfl, unreleased, _⟩ := releasing.split
  rw [leases, modify_middle]
  constructor
  · intro other
    rw [openCount_middle, openCount_middle]
    simp [unreleased]
  · intro other member open_
    rw [List.mem_append, List.mem_cons] at member ⊢
    rcases member with member | rfl | member
    · exact .inl member
    · cases open_
    · exact .inr (.inr member)

/-- The last lease of an entry is the one that is being released. -/
theorem unwatched (last : openCount base.leases address = 1) : Unwatched address base := by
  refine ⟨releasing.sound.live, ?_⟩
  obtain ⟨before, lease, after, leases, _, rfl, unreleased, attempted⟩ := releasing.split
  rw [leases, openCount_middle, if_pos ⟨rfl, unreleased⟩] at last
  have none_ : openCount (before ++ after) lease.address = 0 := by omega
  intro other member same open_
  rw [leases, List.mem_append, List.mem_cons] at member
  have absent : other ∉ before ++ after := by
    intro member
    have positive := openCount_pos member open_
    rw [same, none_] at positive
    cases positive
  rcases member with member | rfl | member
  · exact (absent (List.mem_append_left _ member)).elim
  · exact attempted
  · exact (absent (List.mem_append_right _ member)).elim

theorem sound_forgotten (last : openCount base.leases address = 1)
    (absent : world.leaser.entries.lookup address = none)
    (entries : ∀ other, other ≠ address →
      world.leaser.entries.lookup other = base.leaser.entries.lookup other)
    (routes : ∀ other, other ≠ address → world.routes other = base.routes other)
    (leases : world.leases = base.leases.modify index fun lease =>
      { lease with released := true }) : world.Sound := by
  obtain ⟨counts, kept⟩ := releasing.released
  intro other
  by_cases same : other = address
  · subst same
    refine .none absent ?_
    rw [leases]
    have counted := counts other
    rw [if_pos rfl] at counted
    omega
  · refine (releasing.sound other).congr (entries other same) (routes other same) ?_ ?_
    · rw [leases]
      have counted := counts other
      rw [if_neg (Ne.symm same)] at counted
      exact counted.symm
    · intro lease member _ unreleased _
      exact kept lease (leases ▸ member) unreleased

theorem sound_shared
    {entry : Entry} (found : base.leaser.entries.lookup address = some entry)
    (shared : entry.refs > 1)
    (entries : world.leaser.entries = base.leaser.entries.insert address
      { entry with refs := entry.refs - 1 })
    (routes : world.routes = base.routes)
    (leases : world.leases = base.leases.modify index fun lease =>
      { lease with released := true }) : world.Sound := by
  obtain ⟨counts, kept⟩ := releasing.released
  intro other
  have counted := counts other
  rw [← leases] at counted
  have open_ : ∀ lease ∈ world.leases, lease.released = false →
      lease ∈ base.leases := fun lease member => kept lease (leases ▸ member)
  by_cases same : other = address
  · subst same
    have at_ := releasing.sound other
    have looked : world.leaser.entries.lookup other =
        some { entry with refs := entry.refs - 1 } := by
      rw [entries, lookup_insert]
    have refs := at_.counts
    rw [found] at refs
    change entry.refs = _ at refs
    rw [if_pos rfl] at counted
    constructor
    · rw [looked]
      change entry.refs - 1 = _
      omega
    all_goals
      intro changed changedFound
      rw [looked] at changedFound
      cases changedFound
    · change 0 < entry.refs - 1
      omega
    · exact at_.undo entry found
    · intro present
      rw [routes]
      exact at_.present entry found present
    · intro deleted lease member same unreleased
      exact at_.gone entry found deleted lease (open_ lease member unreleased) same unreleased
  · refine (releasing.sound other).congr ?_ (congrFun routes other) ?_ ?_
    · rw [entries, lookup_insert_ne same]
    · rw [if_neg (Ne.symm same)] at counted
      exact counted.symm
    · intro lease member _ unreleased _
      exact open_ lease member unreleased

/-- The route is gone, but the entry is still there. -/
theorem sound_gone (unwatched : Unwatched address base) {entry : Entry}
    (found : base.leaser.entries.lookup address = some entry)
    (entries : world.leaser.entries = base.leaser.entries.insert address
      { entry with deleted := true })
    (routes : ∀ other, other ≠ address → world.routes other = base.routes other)
    (leases : world.leases = base.leases) : world.Sound := by
  intro other
  by_cases same : other = address
  · subst same
    have at_ := releasing.sound other
    have looked : world.leaser.entries.lookup other = some { entry with deleted := true } := by
      rw [entries, lookup_insert]
    have refs := at_.counts
    rw [found] at refs
    constructor
    · rw [looked, leases]
      exact refs
    all_goals
      intro changed changedFound
      rw [looked] at changedFound
      cases changedFound
    · exact at_.positive entry found
    · exact at_.undo entry found
    · nofun
    · intro _ lease member same unreleased
      exact unwatched.2 lease (leases ▸ member) same unreleased
  · refine (releasing.sound other).congr ?_ (routes other same) ?_ ?_
    · rw [entries, lookup_insert_ne same]
    · rw [leases]
    · intro lease member _ _ _
      exact leases ▸ member

theorem sound_kept (entries : world.leaser.entries = base.leaser.entries)
    (routes : world.routes = base.routes) (leases : world.leases = base.leases) : world.Sound := by
  intro other
  refine (releasing.sound other).congr ?_ (congrFun routes other) ?_ ?_
  · rw [entries]
  · rw [leases]
  · intro lease member _ _ _
    exact leases ▸ member

theorem release_settles : Settles (.release index) (do
      let (outcome, leaser) ← base.leaser.release address
      return .released outcome leaser) base := by
  obtain ⟨entry, found, refs⟩ := releasing.entry
  have live := releasing.sound.live
  have start : At address base (base.routes address) base := ⟨rfl, rfl, fun _ _ => rfl, rfl⟩
  simp only [Leaser.release, found]
  split
  · next shared =>
    exact settles_pure (releasing.sound_shared found shared rfl rfl rfl) live
  next few =>
  have last : openCount base.leases address = 1 := by
    have positive := (releasing.sound address).positive entry found
    omega
  have unwatched := releasing.unwatched last
  split
  · refine settles_pure (releasing.sound_forgotten last ?_ ?_ (fun _ _ => rfl) rfl) live
    · exact lookup_erase _ _
    · exact fun other different => lookup_erase_ne different
  · split
    · refine Program.Meets.bind (Leaser.forget_keeps unwatched base.leaser base start) ?_
      rintro ⟨outcome, leaser⟩ world ⟨after, at_, rfl, done | kept⟩
      · obtain ⟨rfl, erased⟩ := done
        refine settles_pure (releasing.sound_forgotten last ?_ ?_
          at_.others ?_) (at_.live unwatched)
        · exact (congrArg (lookup address) erased).trans (lookup_erase _ _)
        · intro other different
          exact (congrArg (lookup other) erased).trans (lookup_erase_ne different)
        · exact congrArg (List.modify · index _) at_.leases
      · obtain ⟨⟨err, rfl⟩, kept⟩ := kept
        exact settles_pure (releasing.sound_kept kept at_.routes_eq at_.leases) (at_.live unwatched)
    · refine Program.Meets.bind (Leaser.deleteRoute_keeps unwatched
        base.leaser ((releasing.sound address).undo entry found) base start) ?_
      rintro ⟨outcome, leaser⟩ world ⟨after, at_, forgets⟩
      refine settles_pure ?_ (at_.live unwatched)
      cases forgets with
      | done absent others =>
        refine releasing.sound_forgotten last absent others at_.others ?_
        exact congrArg (List.modify · index _) at_.leases
      | kept entries =>
        exact releasing.sound_kept entries at_.routes_eq at_.leases
      | gone entries =>
        exact releasing.sound_gone unwatched found entries at_.others at_.leases

end

end Releasing

/-! ## Every run -/

def outline : Scheduler.Outline system condition where
  idle := World.Sound
  permits _ world _ := world.Live
  post operation result world :=
    (world.finish operation result).Sound ∧ world.Live
  starting := by
    intro world operation after program sound starts joins
    obtain ⟨found, programmed, started⟩ := Option.map_eq_some_iff.mp starts
    cases started
    cases operation with
    | acquire requested =>
      cases programmed
      exact acquire_settles sound joins
    | release index =>
      obtain ⟨lease, leased, rfl⟩ := Option.map_eq_some_iff.mp programmed
      split
      · exact settles_pure (sound.start (.release index)) (sound.start (.release index)).live
      · next unreleased =>
        exact (start_releasing sound leased (Bool.eq_false_iff.mpr unreleased)).release_settles
  finishing := fun holds => holds.1
  crashing := fun _ crashes _ => nomatch crashes
  crashingDone := fun _ crashes _ => nomatch crashes
  happening := fun {_ event} => nomatch event

/-- In every run that meets the condition, every lease that nobody has tried to
release has its route, also in the middle of an operation. -/
theorem live_leases_keep_route (routes : Addr → Bool) (saved : Option EndpointRouteLedger)
    (need4 need6 : Bool) (name : Text) (journaled : Bool) (ledger : EndpointRouteLedger)
    (state : SystemState)
    (reaches : Scheduler.Reaches system condition
      (initial routes saved need4 need6 name journaled ledger) state) :
    state.world.Live := by
  have start : outline.Holds (initial routes saved need4 need6 name journaled ledger) :=
    fun _ => .none rfl rfl
  have holds := start.reaches reaches
  obtain ⟨world, running⟩ := state
  match running with
  | none => exact World.Sound.live holds
  | some (operation, .done result) => exact holds.atResult.2
  | some (operation, .call request next) => exact holds.atCall

namespace Sample

def anything : SystemCondition := {}

def address : Addr := .v4 0xc0000201

/-- IPv4 goes into the tunnel, and no route is there yet. -/
def start : SystemState :=
  initial (fun _ => false) none true false ['w', 'g', '0'] true {}

def acquire : List (Scheduler.Action Operation Choice Empty) :=
  [.start (.acquire (some address)),
    .answer (.gateway { address := "192.0.2.254".toList }), .answer .succeed,
    .answer .succeed, .answer .succeed, .finish]

end Sample

/-- A route is shared by two leases and outlives the first of them. -/
theorem live_leases_keep_route_shared : ∃ state, system.Reaches condition Sample.start state ∧
      state.world.leases.map Lease.released = [true, false] ∧
      state.world.Live := by
  have runs : (system.run condition Sample.start
      (Sample.acquire ++ [.start (.acquire (some Sample.address)), .finish,
        .start (.release 0), .finish])).any
      (fun state => decide (state.world.leases.map Lease.released = [true, false])) = true := by
    decide +kernel
  obtain ⟨state, reaches, leases⟩ := Scheduler.exists_of_run runs
  exact ⟨state, reaches, of_decide_eq_true leases,
    live_leases_keep_route _ _ _ _ _ _ _ state reaches⟩

/-- The release deletes the route, but the ledger cannot be saved.  The next
acquisition joins what is left of the entry. -/
theorem lease_without_route : ∃ state, system.Reaches Sample.anything Sample.start state ∧
      state.running.isNone ∧ ¬state.world.Live := by
  have runs : (system.run Sample.anything Sample.start
      (Sample.acquire ++ [.start (.release 0), .answer .succeed,
        .answer .succeed, .answer (.fail "no space left on device" false),
        .finish, .start (.acquire (some Sample.address)), .finish])).any
      (fun state => state.running.isNone && decide
        (({ address := Sample.address } : Lease) ∈ state.world.leases ∧
          state.world.routes Sample.address = false)) = true := by
    decide +kernel
  obtain ⟨state, reaches, checked⟩ := Scheduler.exists_of_run runs
  rw [Bool.and_eq_true] at checked
  obtain ⟨member, absent⟩ := of_decide_eq_true checked.2
  refine ⟨state, reaches, checked.1, ?_⟩
  intro live
  have present := live _ member rfl rfl
  rw [absent] at present
  cases present

end WgQuic.FreeBSDRoutes
