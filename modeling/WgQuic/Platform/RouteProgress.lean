import WgQuic.PeerRoutes.Command

/-!
# The progress of a route transaction

Whatever methods are called and whatever commands fail, the routes of a host are
those its transaction started from, without the removals and with the additions
that it has taken note of.
-/

namespace WgQuic.Platform

open List PeerRoutes PreparedCommandPeerRoutes

inductive RouteMethod where
  | commitRemovals
  | commitAdditions
  | rollbackAdditions
  | rollbackRemovals
  | rollback
  | finalize
deriving DecidableEq, Repr

/-- What a command that works does to the routes. -/
inductive RouteChange (Route : Type) where
  | add (route : Route)
  | delete (route : Route)

def RouteChange.apply {Route : Type} : RouteChange Route → Set Route → Set Route
  | .add route, routes => insert route routes
  | .delete route, routes => routes \ {route}

section Methods

variable {Command Call : Type} {Answer : Call → Type}

def RouteMethod.on (run : Command → Program Call Answer (Except RouteError Unit))
    (p : PreparedCommandPeerRoutes Command) :
    RouteMethod → Program Call Answer (Except RouteError Unit × PreparedCommandPeerRoutes Command)
  | .commitRemovals => p.commitRemovals run
  | .commitAdditions => p.commitAdditions run
  | .rollbackAdditions => p.rollbackAdditions run
  | .rollbackRemovals => p.rollbackRemovals run
  | .rollback => p.rollback run
  | .finalize => return p.finalize

def Ready (p : PreparedCommandPeerRoutes Command) : RouteMethod → Prop
  | .commitRemovals => p.finalized = true ∨ p.rolledBack = false
  | .commitAdditions => p.finalized = true ∨
      p.rolledBack = false ∧ p.removedApplied.length = p.removals.length
  | .rollbackAdditions | .rollback => p.finalized = false
  | .rollbackRemovals => p.finalized = false ∧ (p.rolledBack = true ∨ p.addedApplied.length = 0)
  | .finalize => p.rolledBack = false ∧ p.removedApplied.length = p.removals.length ∧
      p.addedApplied.length = p.additions.length

theorem ready_or_refused (run : Command → Program Call Answer (Except RouteError Unit))
    (p : PreparedCommandPeerRoutes Command) (method : RouteMethod) :
    Ready p method ∨ ∃ err, method.on run p = pure (.error err, p) := by
  cases method with
  | commitRemovals =>
    rw [RouteMethod.on, PreparedCommandPeerRoutes.commitRemovals]
    split
    · next finalized => exact .inl (.inl finalized)
    split
    · exact .inr ⟨_, rfl⟩
    · next rolledBack => exact .inl (.inr (Bool.eq_false_iff.mpr rolledBack))
  | commitAdditions =>
    rw [RouteMethod.on, PreparedCommandPeerRoutes.commitAdditions]
    split
    · next finalized => exact .inl (.inl finalized)
    split
    · exact .inr ⟨_, rfl⟩
    next rolledBack =>
    split
    · exact .inr ⟨_, rfl⟩
    · next all => exact .inl (.inr ⟨Bool.eq_false_iff.mpr rolledBack, not_not.mp all⟩)
  | rollbackAdditions =>
    rw [RouteMethod.on, PreparedCommandPeerRoutes.rollbackAdditions]
    split
    · exact .inr ⟨_, rfl⟩
    · next finalized => exact .inl (Bool.eq_false_iff.mpr finalized)
  | rollbackRemovals =>
    rw [RouteMethod.on, PreparedCommandPeerRoutes.rollbackRemovals]
    split
    · exact .inr ⟨_, rfl⟩
    next finalized =>
    split
    · next rolledBack =>
      exact .inl ⟨Bool.eq_false_iff.mpr finalized, .inl rolledBack⟩
    split
    · exact .inr ⟨_, rfl⟩
    · next none => exact .inl ⟨Bool.eq_false_iff.mpr finalized, .inr (not_not.mp none)⟩
  | rollback =>
    rw [RouteMethod.on, rollback, PreparedCommandPeerRoutes.rollbackAdditions]
    split
    · exact .inr ⟨_, rfl⟩
    · next finalized => exact .inl (Bool.eq_false_iff.mpr finalized)
  | finalize =>
    rw [RouteMethod.on, finalize]
    split
    · exact .inr ⟨_, rfl⟩
    next rolledBack =>
    split
    · exact .inr ⟨_, rfl⟩
    · next complete =>
      obtain ⟨removed, added⟩ := not_or.mp complete
      exact .inl ⟨Bool.eq_false_iff.mpr rolledBack, not_not.mp removed, not_not.mp added⟩

/-- What is settled when a method returns `nil`. -/
def Settles : RouteMethod → PreparedCommandPeerRoutes Command → Prop
  | .rollback, p | .rollbackRemovals, p => p.rolledBack = true ∧ p.finalized = false
  | .rollbackAdditions, p => Ready p .rollbackRemovals
  | .finalize, p => p.finalized = true
  | .commitRemovals, p => p.removedApplied = p.removals
  | .commitAdditions, p => p.removedApplied = p.removals ∧ p.addedApplied = p.additions

end Methods

section Notes

variable {Command Route : Type}

def addedRoutes (change : Command → Option (RouteChange Route))
    (operations : List (HostOperation Command)) : List Route :=
  operations.filterMap fun operation =>
    match change operation.apply with
    | some (.add route) => some route
    | _ => none

/-- The operation adds and deletes the route. -/
structure Spells {Command Route : Type} (change : Command → Option (RouteChange Route))
    (operation : HostOperation Command) (route : Route) : Prop where
  adds : change operation.apply = some (.add route)
  deletes : change operation.undo = some (.delete route)

variable {change : Command → Option (RouteChange Route)} {start routes : Set Route}
  {toRemove toAdd rest kept : List (HostOperation Command)}
  {operation : HostOperation Command} {route : Route} {p : PreparedCommandPeerRoutes Command}

@[simp] theorem addedRoutes_append (left right : List (HostOperation Command)) :
    addedRoutes change (left ++ right) = addedRoutes change left ++ addedRoutes change right :=
  filterMap_append

@[simp] theorem addedRoutes_nil : addedRoutes change [] = [] :=
  rfl

theorem Spells.addedRoutes_cons (spells : Spells change operation route) :
    addedRoutes change (operation :: rest) = route :: addedRoutes change rest := by
  rw [addedRoutes, filterMap_cons, spells.adds]
  rfl

/-- The routes that the notes of a transaction speak of. -/
def notedRoutes (change : Command → Option (RouteChange Route)) (start : Set Route)
    (p : PreparedCommandPeerRoutes Command) : Set Route :=
  { route | route ∈ start ∧ route ∉ addedRoutes change p.removedApplied ∨
    route ∈ addedRoutes change p.addedApplied }

/-- Where a transaction stands between two commands. -/
structure Stands (change : Command → Option (RouteChange Route)) (start : Set Route)
    (toRemove toAdd : List (HostOperation Command)) (p : PreparedCommandPeerRoutes Command)
    (routes : Set Route) : Prop where
  removals : p.removals = toRemove
  additions : p.additions = toAdd
  removed : p.removedApplied <+: toRemove
  added : p.addedApplied <+: toAdd
  ordered : p.addedApplied = [] ∨ p.removedApplied = toRemove
  once : (addedRoutes change p.removedApplied).Nodup ∧ (addedRoutes change p.addedApplied).Nodup
  there : ∀ route ∈ addedRoutes change p.removedApplied, route ∈ start
  fresh : ∀ route ∈ addedRoutes change p.addedApplied,
    route ∈ start → route ∈ addedRoutes change p.removedApplied
  rolledBack : p.rolledBack = true → p.removedApplied = [] ∧ p.addedApplied = []
  finalized : p.finalized = true → p.removedApplied = toRemove ∧ p.addedApplied = toAdd
  routes_eq : routes = notedRoutes change start p

theorem stands_start :
    Stands change start toRemove toAdd { removals := toRemove, additions := toAdd } start := by
  refine ⟨rfl, rfl, nil_prefix, nil_prefix, .inl rfl, ⟨nodup_nil, nodup_nil⟩,
    nofun, nofun, nofun, nofun, ?_⟩
  simp [notedRoutes]

section Steps

variable (stands : Stands change start toRemove toAdd p routes)
  (isOpen : p.rolledBack = false ∧ p.finalized = false)
  (spells : Spells change operation route)

include spells

theorem Spells.nodup_concat : (addedRoutes change (kept ++ [operation])).Nodup ↔
    route ∉ addedRoutes change kept ∧ (addedRoutes change kept).Nodup := by
  rw [addedRoutes_append, spells.addedRoutes_cons, addedRoutes_nil, nodup_append_comm,
    singleton_append, nodup_cons]

theorem Spells.mem_concat {other : Route} : other ∈ addedRoutes change (kept ++ [operation]) ↔
    other ∈ addedRoutes change kept ∨ other = route := by
  rw [addedRoutes_append, spells.addedRoutes_cons, addedRoutes_nil, mem_append, mem_singleton]

include stands isOpen

theorem Stands.noteRemoved (left : toRemove = p.removedApplied ++ operation :: rest)
    (present : route ∈ routes) :
    Stands change start toRemove toAdd (p.noteRemoved operation) (routes \ {route}) := by
  have none : p.addedApplied = [] := by
    refine stands.ordered.resolve_right fun all => ?_
    rw [all] at left
    simp at left
  have known : route ∈ start ∧ route ∉ addedRoutes change p.removedApplied := by
    rw [stands.routes_eq] at present
    simpa [notedRoutes, none] using present
  refine ⟨stands.removals, stands.additions, ⟨rest, ?_⟩, stands.added, .inl none, ?_, ?_, ?_, ?_,
    ?_, ?_⟩
  · rw [left, PreparedCommandPeerRoutes.noteRemoved, append_assoc, singleton_append]
  · exact ⟨spells.nodup_concat.mpr ⟨known.2, stands.once.1⟩, stands.once.2⟩
  · intro other member
    rcases spells.mem_concat.mp member with member | rfl
    · exact stands.there other member
    · exact known.1
  · exact fun other member inStart =>
      spells.mem_concat.mpr (.inl (stands.fresh other member inStart))
  · exact fun rolledBack => nomatch isOpen.1.symm.trans rolledBack
  · exact fun finalized => nomatch isOpen.2.symm.trans finalized
  · rw [stands.routes_eq]
    ext other
    simp [notedRoutes, PreparedCommandPeerRoutes.noteRemoved, none, spells.addedRoutes_cons]
    tauto

theorem Stands.noteAdded (left : toAdd = p.addedApplied ++ operation :: rest)
    (all : p.removedApplied = toRemove) (absent : route ∉ routes) :
    Stands change start toRemove toAdd (p.noteAdded operation) (insert route routes) := by
  rw [stands.routes_eq, notedRoutes, Set.mem_ofPred_eq, not_or, not_and_not_right] at absent
  refine ⟨stands.removals, stands.additions, stands.removed, ⟨rest, ?_⟩, .inr all, ?_,
    stands.there, ?_, ?_, ?_, ?_⟩
  · rw [left, PreparedCommandPeerRoutes.noteAdded, append_assoc, singleton_append]
  · exact ⟨stands.once.1, spells.nodup_concat.mpr ⟨absent.2, stands.once.2⟩⟩
  · intro other member
    rcases spells.mem_concat.mp member with member | rfl
    · exact stands.fresh other member
    · exact absent.1
  · exact fun rolledBack => nomatch isOpen.1.symm.trans rolledBack
  · exact fun finalized => nomatch isOpen.2.symm.trans finalized
  · rw [stands.routes_eq]
    ext other
    simp [notedRoutes, PreparedCommandPeerRoutes.noteAdded, spells.addedRoutes_cons]
    tauto

theorem Stands.forgetRemoved (left : p.removedApplied = kept ++ [operation])
    (none : p.addedApplied = []) :
    Stands change start toRemove toAdd (p.forgetRemoved operation) (insert route routes) := by
  obtain ⟨⟨removals, additions, removed, added, _, once, there, _, _, _, routes_eq⟩, forgotten⟩ :=
    And.intro stands (show (p.forgetRemoved operation).removedApplied = kept by
      rw [PreparedCommandPeerRoutes.forgetRemoved, left, dropLast_concat])
  rw [left] at removed once there
  obtain ⟨absent, nodup⟩ := spells.nodup_concat.mp once.1
  refine ⟨removals, additions, ?_, added, .inl none, ?_, ?_, ?_, ?_, ?_, ?_⟩
  · rw [forgotten]
    exact (prefix_append kept _).trans removed
  · rw [forgotten]
    exact ⟨nodup, once.2⟩
  · rw [forgotten]
    exact fun other member => there other (spells.mem_concat.mpr (.inl member))
  · intro other member
    rw [show (p.forgetRemoved operation).addedApplied = [] from none] at member
    cases member
  · exact fun rolledBack => nomatch isOpen.1.symm.trans rolledBack
  · exact fun finalized => nomatch isOpen.2.symm.trans finalized
  · have inStart := there route (spells.mem_concat.mpr (.inr rfl))
    rw [routes_eq]
    ext other
    by_cases same : other = route
    · simp [notedRoutes, forgotten, same, inStart, absent]
    · simp [notedRoutes, forgotten, left, spells.addedRoutes_cons, same]
      rfl

theorem Stands.forgetAdded (left : p.addedApplied = kept ++ [operation]) :
    Stands change start toRemove toAdd (p.forgetAdded operation) (routes \ {route}) := by
  obtain ⟨⟨removals, additions, removed, added, ordered, once, there, fresh, _, _, routes_eq⟩,
    forgotten⟩ := And.intro stands (show (p.forgetAdded operation).addedApplied = kept by
      rw [PreparedCommandPeerRoutes.forgetAdded, left, dropLast_concat])
  rw [left] at added once fresh ordered
  obtain ⟨absent, nodup⟩ := spells.nodup_concat.mp once.2
  refine ⟨removals, additions, removed, ?_, ?_, ?_, there, ?_, ?_, ?_, ?_⟩
  · rw [forgotten]
    exact (prefix_append kept _).trans added
  · exact .inr (ordered.resolve_left (by simp))
  · rw [forgotten]
    exact ⟨once.1, nodup⟩
  · rw [forgotten]
    exact fun other member => fresh other (spells.mem_concat.mpr (.inl member))
  · exact fun rolledBack => nomatch isOpen.1.symm.trans rolledBack
  · exact fun finalized => nomatch isOpen.2.symm.trans finalized
  · have older := fresh route (spells.mem_concat.mpr (.inr rfl))
    rw [routes_eq]
    ext other
    by_cases same : other = route
    · simp [notedRoutes, forgotten, same, absent]
      exact older
    · simp [notedRoutes, forgotten, left, spells.addedRoutes_cons, same]
      rfl

end Steps

end Notes

section Calls

variable {Command Call World Route : Type} {Answer : Call → Type}

/-- What the methods rely on: the commands of the plan work, with their effect, or
fail without one. -/
structure Host (run : Command → Program Call Answer (Except RouteError Unit))
    (around : Surroundings Call Answer World) (always : World → Prop) (routes : World → Set Route)
    (works : RouteChange Route → Set Route → Prop) (change : Command → Option (RouteChange Route))
    (start : Set Route) (toRemove toAdd : List (HostOperation Command)) : Prop where
  quiet : around.Quiet
  safe : ∀ p world, Stands change start toRemove toAdd p (routes world) → always world
  spelled : ∀ operation ∈ toRemove ++ toAdd, ∃ route, Spells change operation route
  acts : ∀ command effect (pre : World → Prop), change command = some effect →
    (∀ world, pre world → always world) →
    Program.Triple around always pre (run command) fun reply after => ∃ world, pre world ∧
      (reply = .ok () ∧ works effect (routes world) ∧ routes after = effect.apply (routes world) ∨
        (∃ err, reply = .error err) ∧ routes after = routes world)
  present : ∀ p routes operation rest route, Stands change start toRemove toAdd p routes →
    toRemove = p.removedApplied ++ operation :: rest → Spells change operation route →
    works (.delete route) routes → route ∈ routes
  absent : ∀ p routes operation rest route, Stands change start toRemove toAdd p routes →
    toAdd = p.addedApplied ++ operation :: rest → Spells change operation route →
    works (.add route) routes → route ∉ routes

/-- What a call that is not refused leaves behind. -/
structure Leaves (change : Command → Option (RouteChange Route)) (start : Set Route)
    (toRemove toAdd : List (HostOperation Command)) (method : RouteMethod)
    (value : Except RouteError Unit × PreparedCommandPeerRoutes Command)
    (routes : Set Route) : Prop where
  stands : Stands change start toRemove toAdd value.2 routes
  done : value.1 = .ok () → Settles method value.2
  again : (∃ err, value.1 = .error err) → Ready value.2 method

variable {run : Command → Program Call Answer (Except RouteError Unit)}
  {around : Surroundings Call Answer World} {always : World → Prop} {routes : World → Set Route}
  {works : RouteChange Route → Set Route → Prop} {change : Command → Option (RouteChange Route)}
  {start : Set Route} {toRemove toAdd operations : List (HostOperation Command)}
  {p : PreparedCommandPeerRoutes Command} {world : World}
  (host : Host run around always routes works change start toRemove toAdd)

include host

theorem Host.pure {α : Type} {value : α} {post : α → World → Prop} (holds : post value world) :
    (pure value : Program Call Answer α).Meets around (fun later _ => always later) post
      world := by
  refine Program.Meets.done (host.quiet.stable (· = world)) rfl ?_
  rintro _ rfl
  exact holds

/-- A loop, from what one round makes of the transaction. -/
theorem Host.loop {command : HostOperation Command → Command}
    {note : PreparedCommandPeerRoutes Command → HostOperation Command →
      PreparedCommandPeerRoutes Command}
    (left : PreparedCommandPeerRoutes Command → List (HostOperation Command) → Prop)
    (step : ∀ operation rest p routes, left p (operation :: rest) →
      Stands change start toRemove toAdd p routes →
      ∃ effect, change (command operation) = some effect ∧ (works effect routes →
        left (note p operation) rest ∧
          Stands change start toRemove toAdd (note p operation) (effect.apply routes)))
    (stands : Stands change start toRemove toAdd p (routes world)) (begins : left p operations) :
    (PreparedCommandPeerRoutes.runAll run command note operations p).Meets around
      (fun later _ => always later)
      (fun value world => Stands change start toRemove toAdd value.2 (routes world) ∧
        ∃ rest, left value.2 rest ∧ (value.1 = .ok () → rest = [])) world := by
  refine ((runAll_triple host.quiet
    (fun rest p world => left p rest ∧ Stands change start toRemove toAdd p (routes world)) ?_
    operations p).weaken (fun _ holds => holds) ?_) world ⟨begins, stands⟩
  · intro operation rest p world holds
    obtain ⟨effect, changes, stepped⟩ := step operation rest p _ holds.1 holds.2
    refine (host.acts (command operation) effect (· = world) changes ?_ world rfl).weaken
      (fun _ _ always => always) ?_
    · rintro _ rfl
      exact host.safe p _ holds.2
    · rintro reply after ⟨_, rfl, ⟨worked, possible, changed⟩ | ⟨failed, same⟩⟩
      · rw [changed]
        exact .inl ⟨worked, stepped possible⟩
      · rw [same]
        exact .inr ⟨failed, holds⟩
  · rintro value world ⟨rest, ⟨remaining, stands⟩, finished⟩
    exact ⟨stands, rest, remaining, finished⟩

variable (stands : Stands change start toRemove toAdd p (routes world))

include stands

theorem Host.commitRemovals (ready : Ready p .commitRemovals) :
    (p.commitRemovals run).Meets around (fun later _ => always later) (fun value world =>
        Leaves change start toRemove toAdd .commitRemovals value (routes world)) world := by
  rw [PreparedCommandPeerRoutes.commitRemovals]
  split
  · next finalized =>
    exact host.pure ⟨stands, fun _ => (stands.finalized finalized).1.trans stands.removals.symm,
      nofun⟩
  next finalized =>
  have rolledBack : p.rolledBack = false := ready.resolve_left finalized
  rw [if_neg (Bool.eq_false_iff.mp rolledBack)]
  refine (host.loop (fun p rest => (p.rolledBack = false ∧ p.finalized = false) ∧
    toRemove = p.removedApplied ++ rest) ?_ stands ?_).weaken (fun _ _ holds => holds) ?_
  · rintro operation rest p routes ⟨isOpen, left⟩ stands
    obtain ⟨route, spells⟩ := host.spelled operation (by simp [left])
    refine ⟨_, spells.deletes, fun worked => ⟨⟨isOpen, ?_⟩, stands.noteRemoved isOpen spells left
      (host.present p routes operation rest route stands left spells worked)⟩⟩
    simp [PreparedCommandPeerRoutes.noteRemoved, left]
  · obtain ⟨rest, split⟩ := stands.removed
    rw [stands.removals, ← split, drop_left]
    exact ⟨⟨rolledBack, Bool.eq_false_iff.mpr finalized⟩, rfl⟩
  · rintro value world ⟨stands, rest, ⟨isOpen, left⟩, finished⟩
    refine ⟨stands, fun worked => ?_, fun _ => .inr isOpen.1⟩
    rw [finished worked, append_nil] at left
    exact left.symm.trans stands.removals.symm

theorem Host.commitAdditions (ready : Ready p .commitAdditions) :
    (p.commitAdditions run).Meets around (fun later _ => always later) (fun value world =>
        Leaves change start toRemove toAdd .commitAdditions value (routes world)) world := by
  rw [PreparedCommandPeerRoutes.commitAdditions]
  split
  · next finalized =>
    obtain ⟨removed, added⟩ := stands.finalized finalized
    exact host.pure ⟨stands, fun _ => ⟨removed.trans stands.removals.symm,
      added.trans stands.additions.symm⟩, nofun⟩
  next finalized =>
  obtain ⟨rolledBack, complete⟩ := ready.resolve_left finalized
  rw [if_neg (Bool.eq_false_iff.mp rolledBack), if_neg (not_not.mpr complete)]
  rw [stands.removals] at complete
  refine (host.loop (fun p rest => ((p.rolledBack = false ∧ p.finalized = false) ∧
    p.removedApplied = toRemove) ∧ toAdd = p.addedApplied ++ rest) ?_ stands ?_).weaken
    (fun _ _ holds => holds) ?_
  · rintro operation rest p routes ⟨⟨isOpen, all⟩, left⟩ stands
    obtain ⟨route, spells⟩ := host.spelled operation (by simp [left])
    refine ⟨_, spells.adds, fun worked => ⟨⟨⟨isOpen, all⟩, ?_⟩, stands.noteAdded isOpen spells left
      all (host.absent p routes operation rest route stands left spells worked)⟩⟩
    simp [PreparedCommandPeerRoutes.noteAdded, left]
  · obtain ⟨rest, split⟩ := stands.added
    rw [stands.additions, ← split, drop_left]
    exact ⟨⟨⟨rolledBack, Bool.eq_false_iff.mpr finalized⟩, stands.removed.eq_of_length complete⟩,
      rfl⟩
  · rintro value world ⟨stands, rest, ⟨⟨isOpen, all⟩, left⟩, finished⟩
    have removed := all.trans stands.removals.symm
    refine ⟨stands, fun worked => ⟨removed, ?_⟩, fun _ => .inr ⟨isOpen.1, congrArg _ removed⟩⟩
    rw [finished worked, append_nil] at left
    exact left.symm.trans stands.additions.symm

theorem Host.rollbackAdditions (finalized : Ready p .rollbackAdditions) :
    (p.rollbackAdditions run).Meets around (fun later _ => always later) (fun value world =>
        Leaves change start toRemove toAdd .rollbackAdditions value (routes world)) world := by
  rw [PreparedCommandPeerRoutes.rollbackAdditions, if_neg (Bool.eq_false_iff.mp finalized)]
  split
  · next rolledBack => exact host.pure ⟨stands, fun _ => ⟨finalized, .inl rolledBack⟩, nofun⟩
  next rolledBack =>
  refine .bind (host.loop (fun p rest => (p.rolledBack = false ∧ p.finalized = false) ∧
    p.addedApplied = rest.reverse) ?_ stands ?_) ?_
  · rintro operation rest p routes ⟨isOpen, left⟩ stands
    rw [reverse_cons] at left
    obtain ⟨route, spells⟩ := host.spelled operation
      (mem_append_right _ (stands.added.subset (by simp [left])))
    refine ⟨_, spells.deletes, fun _ => ⟨⟨isOpen, ?_⟩, stands.forgetAdded isOpen spells left⟩⟩
    rw [PreparedCommandPeerRoutes.forgetAdded, left, dropLast_concat]
  · exact ⟨⟨Bool.eq_false_iff.mpr rolledBack, finalized⟩, (reverse_reverse _).symm⟩
  · rintro ⟨undone, q⟩ world ⟨stands, rest, ⟨isOpen, left⟩, finished⟩
    match undone with
    | .error err => exact host.pure ⟨stands, nofun, fun _ => isOpen.2⟩
    | .ok () =>
      have none : q.addedApplied = [] := by
        rw [left, finished rfl]
        rfl
      refine host.pure ?_
      unfold additionsUndone
      split
      · next nothing =>
        refine ⟨{ stands with rolledBack := fun _ => ?_ }, ?_, nofun⟩
        · exact ⟨eq_nil_of_length_eq_zero nothing, none⟩
        · exact fun _ => ⟨isOpen.2, .inl rfl⟩
      · exact ⟨stands, fun _ => ⟨isOpen.2, .inr (by rw [none]; rfl)⟩, nofun⟩

theorem Host.rollbackRemovals (ready : Ready p .rollbackRemovals) :
    (p.rollbackRemovals run).Meets around (fun later _ => always later) (fun value world =>
        Leaves change start toRemove toAdd .rollbackRemovals value (routes world)) world := by
  obtain ⟨finalized, empty⟩ := ready
  rw [PreparedCommandPeerRoutes.rollbackRemovals, if_neg (Bool.eq_false_iff.mp finalized)]
  split
  · next rolledBack => exact host.pure ⟨stands, fun _ => ⟨rolledBack, finalized⟩, nofun⟩
  next rolledBack =>
  have empty := empty.resolve_left rolledBack
  rw [if_neg (not_not.mpr empty)]
  refine .bind (host.loop (fun p rest => ((p.rolledBack = false ∧ p.finalized = false) ∧
    p.addedApplied = []) ∧ p.removedApplied = rest.reverse) ?_ stands ?_) ?_
  · rintro operation rest p routes ⟨⟨isOpen, none⟩, left⟩ stands
    rw [reverse_cons] at left
    obtain ⟨route, spells⟩ := host.spelled operation
      (mem_append_left _ (stands.removed.subset (by simp [left])))
    refine ⟨_, spells.adds, fun _ => ⟨⟨⟨isOpen, none⟩, ?_⟩,
      stands.forgetRemoved isOpen spells left none⟩⟩
    rw [PreparedCommandPeerRoutes.forgetRemoved, left, dropLast_concat]
  · exact ⟨⟨⟨Bool.eq_false_iff.mpr rolledBack, finalized⟩, eq_nil_of_length_eq_zero empty⟩,
      (reverse_reverse _).symm⟩
  · rintro ⟨redone, q⟩ world ⟨stands, rest, ⟨⟨isOpen, none⟩, left⟩, finished⟩
    match redone with
    | .error err =>
      exact host.pure ⟨stands, nofun, fun _ => ⟨isOpen.2, .inr (by rw [none]; rfl)⟩⟩
    | .ok () =>
      have nothing : q.removedApplied = [] := by
        rw [left, finished rfl]
        rfl
      exact host.pure ⟨{ stands with rolledBack := fun _ => ⟨nothing, none⟩ },
        fun _ => ⟨rfl, isOpen.2⟩, nofun⟩

theorem Host.leaves {method : RouteMethod} (ready : Ready p method) :
    (method.on run p).Meets around (fun later _ => always later)
      (fun value world => Leaves change start toRemove toAdd method value (routes world))
      world := by
  cases method with
  | commitRemovals => exact host.commitRemovals stands ready
  | commitAdditions => exact host.commitAdditions stands ready
  | rollbackAdditions => exact host.rollbackAdditions stands ready
  | rollbackRemovals => exact host.rollbackRemovals stands ready
  | rollback =>
    refine .bind (host.rollbackAdditions stands ready) ?_
    rintro ⟨undone, q⟩ world ⟨stands, done, again⟩
    match undone with
    | .error err => exact host.pure ⟨stands, nofun, again⟩
    | .ok () =>
      refine (host.rollbackRemovals stands (done rfl)).weaken (fun _ _ holds => holds) ?_
      rintro value world ⟨stands, done, again⟩
      exact ⟨stands, done, fun failed => (again failed).1⟩
  | finalize =>
    obtain ⟨rolledBack, removed, added⟩ := ready
    rw [RouteMethod.on, finalize, if_neg (Bool.eq_false_iff.mp rolledBack),
      if_neg (not_or.mpr ⟨not_not.mpr removed, not_not.mpr added⟩)]
    rw [stands.removals] at removed
    rw [stands.additions] at added
    exact host.pure ⟨{ stands with finalized := fun _ =>
      ⟨stands.removed.eq_of_length removed, stands.added.eq_of_length added⟩ }, fun _ => rfl, nofun⟩

theorem Host.keeps (method : RouteMethod) :
    (method.on run p).Meets around (fun later _ => always later)
      (fun value world => Stands change start toRemove toAdd value.2 (routes world)) world := by
  rcases ready_or_refused run p method with ready | ⟨err, refused⟩
  · exact (host.leaves stands ready).weaken (fun _ _ holds => holds) fun _ _ leaves => leaves.stands
  · rw [refused]
    exact host.pure stands

end Calls

end WgQuic.Platform
