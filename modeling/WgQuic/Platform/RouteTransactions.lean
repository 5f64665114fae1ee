import WgQuic.Platform.FreeBSD
import WgQuic.Platform.Shutdown

/-!
# Peer-route transactions of the command manager

Every host plans one command for each prefix of an accepted plan.  Whatever methods
are called and whatever commands fail, the routes are those at the start without the
first removals and with the first additions.
-/

namespace WgQuic.Platform

open List Net PeerRoutes PreparedCommandPeerRoutes RouteMethod Program

/-- The hosts that change peer routes by commands, each as it sets up its manager. -/
inductive CommandHost where
  | linux (textLE : Prefix → Prefix → Bool) (name : Text) (cfg : NetworkConfig)
  | freeBSD (textLE : Prefix → Prefix → Bool) (name : Text) (cfg : NetworkConfig)
  | windows (compartmentID interfaceLUID : Nat) (table : Text)

namespace CommandHost

def Command : CommandHost → Type
  | .linux _ _ _ => LinuxCommand
  | .freeBSD _ _ _ => FreeBSDCommand
  | .windows _ _ _ => WindowsPeerRouteCommand

def Route : CommandHost → Type
  | .linux _ _ _ => LinuxEntry
  | .freeBSD _ _ _ => FreeBSDRoute
  | .windows _ _ _ => WindowsRoutes.RouteKey

def manager : (host : CommandHost) → CommandPeerRouteManager host.Command
  | .linux textLE name cfg => newPeerRouteManager textLE name cfg
  | .freeBSD textLE name cfg => newFreeBSDPeerRouteManager textLE name cfg
  | .windows compartmentID interfaceLUID table =>
    windowsCommandManager compartmentID interfaceLUID table

/-- Commands that are not about routes do nothing to them. -/
def change : (host : CommandHost) → host.Command → Option (RouteChange host.Route)
  | .linux _ _ _, command => entryChange command
  | .freeBSD _ _ _, .add route _ => some (.add route)
  | .freeBSD _ _ _, .delete route => some (.delete route)
  | .windows _ _ _, command =>
    match parseWindowsPeerRouteCommand command with
    | .ok (key, .add) => some (.add key)
    | .ok (key, .delete) => some (.delete key)
    | .error _ => none

end CommandHost

abbrev CommandRoutine (Command : Type) := Program Command fun _ => Except RouteError Unit

section Runs

variable {Command Route : Type}

abbrev RouteMethod.invoke (p : PreparedCommandPeerRoutes Command) (method : RouteMethod) :
    CommandRoutine Command (Except RouteError Unit × PreparedCommandPeerRoutes Command) :=
  method.on ask p

/-- A command works, with its effect, or fails without one. -/
def hostCommands (change : Command → Option (RouteChange Route)) :
    Surroundings Command (fun _ => Except RouteError Unit) (Set Route) where
  answers routes command reply after :=
    (reply = .ok () ∧ after = (change command).elim routes (·.apply routes)) ∨
      (∃ err, reply = .error err) ∧ after = routes
  drifts _ _ := False

/-- A transaction and the routes of the kernel. -/
structure RouteRun (Command Route : Type) where
  prepared : PreparedCommandPeerRoutes Command
  routes : Set Route

def RouteRun.Step (change : Command → Option (RouteChange Route))
    (s t : RouteRun Command Route) : Prop :=
  ∃ method reply, Program.Runs (hostCommands change).answers (invoke s.prepared method)
    s.routes (reply, t.prepared) t.routes

abbrev RouteRun.Reaches (change : Command → Option (RouteChange Route)) :
    RouteRun Command Route → RouteRun Command Route → Prop :=
  Relation.ReflTransGen (RouteRun.Step change)

/-- The routes after the first removals and additions of a plan. -/
def changedRoutes (start : Set Route) (removals additions : List Route) (removed added : Nat) :
    Set Route :=
  { route | route ∈ start ∧ route ∉ removals.take removed ∨ route ∈ additions.take added }

/-- Additions are only there while all removals are applied. -/
def Between (start : Set Route) (removals additions : List Route) (routes : Set Route) : Prop :=
  ∃ removed added, removed ≤ removals.length ∧ added ≤ additions.length ∧
    (added = 0 ∨ removed = removals.length) ∧
    routes = changedRoutes start removals additions removed added

/-- No call issues a command or changes anything. -/
def Settled (p : PreparedCommandPeerRoutes Command) : Prop :=
  ∀ method, ∃ reply, invoke p method = pure (reply, p)

variable {p : PreparedCommandPeerRoutes Command}

theorem settled_of_finalized (finalized : p.finalized = true) : Settled p := by
  obtain ⟨removals, additions, removedApplied, addedApplied, rolledBack, _⟩ := p
  subst finalized
  intro method
  cases method with
  | finalize =>
    refine ⟨_, congrArg pure (Prod.ext rfl ?_)⟩
    unfold PreparedCommandPeerRoutes.finalize
    split
    · rfl
    split <;> rfl
  | commitRemovals | commitAdditions | rollbackAdditions | rollbackRemovals | rollback =>
    exact ⟨_, rfl⟩

variable {method : RouteMethod}

theorem settled_of_rolledBack (rolledBack : p.rolledBack = true) : Settled p := by
  cases finalized : p.finalized with
  | true => exact settled_of_finalized finalized
  | false =>
    obtain ⟨removals, additions, removedApplied, addedApplied, _, _⟩ := p
    subst rolledBack finalized
    intro method
    cases method <;> exact ⟨_, rfl⟩

theorem Settled.reaches {change : Command → Option (RouteChange Route)}
    (settled : Settled p) {routes : Set Route} {s : RouteRun Command Route}
    (reached : RouteRun.Reaches change ⟨p, routes⟩ s) : s = ⟨p, routes⟩ := by
  induction reached with
  | refl => rfl
  | tail _ step ih =>
    subst ih
    obtain ⟨method, reply, ran⟩ := step
    obtain ⟨known, quiet⟩ := settled method
    rw [quiet] at ran
    cases ran
    rfl

section Works

theorem runAll_works {command : HostOperation Command → Command}
    {note : PreparedCommandPeerRoutes Command → HostOperation Command →
      PreparedCommandPeerRoutes Command}
    (operations : List (HostOperation Command)) (p : PreparedCommandPeerRoutes Command) :
    (runAll ask command note operations p :
      CommandRoutine Command _).Yields (fun _ reply => reply = .ok ()) (fun _ => True)
      fun value => value = (.ok (), operations.foldl note p) := by
  induction operations generalizing p with
  | nil => rfl
  | cons operation rest ih =>
    refine .ask_bind trivial ?_
    rintro _ rfl
    exact ih (note p operation)

theorem foldl_forgetAdded (operations : List (HostOperation Command))
    (p : PreparedCommandPeerRoutes Command) : let q := operations.foldl forgetAdded p
    q.finalized = p.finalized ∧
      q.addedApplied.length = p.addedApplied.length - operations.length := by
  induction operations generalizing p with
  | nil => exact ⟨rfl, rfl⟩
  | cons operation rest ih =>
    obtain ⟨flag, length⟩ := ih (p.forgetAdded operation)
    refine ⟨flag, length.trans ?_⟩
    rw [forgetAdded, length_dropLast, length_cons]
    omega

/-- After the additions are taken back the removals can be. -/
theorem rollbackAdditions_works (ready : Ready p .rollbackAdditions) :
    (invoke p .rollbackAdditions).Yields (fun _ reply => reply = .ok ())
      (fun _ => True) fun value => value.1 = .ok () ∧ Ready value.2 .rollbackRemovals := by
  have isOpen : p.finalized = false := ready
  rw [invoke, RouteMethod.on, PreparedCommandPeerRoutes.rollbackAdditions]
  rw [if_neg (Bool.eq_false_iff.mp isOpen)]
  split
  · next rolledBack => exact ⟨rfl, isOpen, .inl rolledBack⟩
  refine .bind (runAll_works _ p) ?_
  rintro _ rfl
  obtain ⟨flag, length⟩ := foldl_forgetAdded p.addedApplied.reverse p
  rw [length_reverse, Nat.sub_self] at length
  refine ⟨rfl, ?_⟩
  unfold additionsUndone
  split
  · exact ⟨flag.trans isOpen, .inl rfl⟩
  · exact ⟨flag.trans isOpen, .inr length⟩

theorem rollbackRemovals_works (ready : Ready p .rollbackRemovals) :
    (invoke p .rollbackRemovals).Yields (fun _ reply => reply = .ok ())
      (fun _ => True) fun value => value.1 = .ok () := by
  obtain ⟨isOpen, none⟩ := ready
  rw [invoke, RouteMethod.on, PreparedCommandPeerRoutes.rollbackRemovals]
  rw [if_neg (Bool.eq_false_iff.mp isOpen)]
  split
  · rfl
  next rolledBack =>
  rw [if_neg (not_not.mpr (none.resolve_left rolledBack))]
  refine .bind (runAll_works _ p) ?_
  rintro _ rfl
  rfl

/-- A call that is not refused returns `nil` if every command works. -/
theorem invoke_works (ready : Ready p method) :
    (invoke p method).Yields (fun _ reply => reply = .ok ()) (fun _ => True)
      fun value => value.1 = .ok () := by
  have done : ∀ value : Except RouteError Unit × PreparedCommandPeerRoutes Command,
      ∀ q, value = (.ok (), q) → value.1 = .ok () := fun _ _ same => congrArg Prod.fst same
  cases method with
  | commitRemovals =>
    rw [invoke, RouteMethod.on, PreparedCommandPeerRoutes.commitRemovals]
    split
    · rfl
    next finalized =>
    rw [if_neg (Bool.eq_false_iff.mp (ready.resolve_left finalized))]
    exact (runAll_works _ p).weaken fun value => done value _
  | commitAdditions =>
    rw [invoke, RouteMethod.on, PreparedCommandPeerRoutes.commitAdditions]
    split
    · rfl
    next finalized =>
    obtain ⟨rolledBack, all⟩ := ready.resolve_left finalized
    rw [if_neg (Bool.eq_false_iff.mp rolledBack), if_neg (not_not.mpr all)]
    exact (runAll_works _ p).weaken fun value => done value _
  | rollbackAdditions => exact (rollbackAdditions_works ready).weaken fun _ both => both.1
  | rollbackRemovals => exact rollbackRemovals_works ready
  | rollback =>
    refine .bind (rollbackAdditions_works ready) ?_
    rintro ⟨undone, q⟩ ⟨rfl, again⟩
    exact rollbackRemovals_works again
  | finalize =>
    obtain ⟨rolledBack, removed, added⟩ := ready
    rw [invoke, RouteMethod.on, PreparedCommandPeerRoutes.finalize,
      if_neg (Bool.eq_false_iff.mp rolledBack),
      if_neg (not_or.mpr ⟨not_not.mpr removed, not_not.mpr added⟩)]
    rfl

end Works

end Runs

/-! ## One command for each prefix -/

/-- An accepted plan, prefix by prefix.  With `Table = off` there is nothing to do. -/
structure Accepted {Command : Type} (m : CommandPeerRouteManager Command)
    (operation : Prefix → HostOperation Command) (plan : PeerRoutePlan)
    (removals additions : List Prefix) (p : PreparedCommandPeerRoutes Command) : Prop where
  prepared : p = { removals := removals.map operation, additions := additions.map operation }
  planned : if equalFold m.table "off" then removals = [] ∧ additions = []
    else canonicalRoutePlanPrefixes plan.removals = .ok removals ∧
      canonicalRoutePlanPrefixes plan.additions = .ok additions
  removalsNodup : removals.Nodup
  additionsNodup : additions.Nodup
  canonical : AllCanonical (removals ++ additions)

variable {prefixes : List Prefix}

theorem planAll_singles {Command : Type}
    {planner : Prefix → Except RouteError (List (HostOperation Command))}
    {operation : Prefix → HostOperation Command}
    (each : ∀ owned ∈ prefixes, planner owned = .ok [operation owned]) :
    planAll planner prefixes = .ok (prefixes.map operation) := by
  induction prefixes with
  | nil => rfl
  | cons owned rest ih =>
    rw [planAll, each owned mem_cons_self,
      ih fun other member => each other (mem_cons_of_mem _ member)]
    rfl

theorem prepare_accepted {Command : Type} {m : CommandPeerRouteManager Command}
    {operation : Prefix → HostOperation Command} {plan : PeerRoutePlan}
    {p : PreparedCommandPeerRoutes Command}
    (each : equalFold m.table "off" = false → ∀ owned, Canonical owned →
      ¬(m.automatic = true ∧ owned.bits = 0) → m.planner owned = .ok [operation owned])
    (accepted : m.prepare plan = .ok p) :
    ∃ removals additions, Accepted m operation plan removals additions p := by
  unfold CommandPeerRouteManager.prepare at accepted
  split at accepted
  · cases accepted
  next additions adds =>
  split at accepted
  · cases accepted
  next removals removes =>
  split at accepted
  · cases accepted
  obtain ⟨addsNodup, addsCanonical, -⟩ := canonicalRoutePlanPrefixes_ok adds
  obtain ⟨removesNodup, removesCanonical, -⟩ := canonicalRoutePlanPrefixes_ok removes
  unfold CommandPeerRouteManager.planned at accepted
  split at accepted
  · next table =>
    cases accepted
    exact ⟨[], [], rfl, by rw [if_pos table]; exact ⟨rfl, rfl⟩, nodup_nil, nodup_nil, nofun⟩
  next table =>
  split at accepted
  · cases accepted
  next noDefault =>
  have single : ∀ owned ∈ additions ++ removals, m.planner owned = .ok [operation owned] := by
    intro owned member
    refine each (Bool.eq_false_iff.mpr table) owned ?_ ?_
    · exact (mem_append.mp member).elim (addsCanonical owned) (removesCanonical owned)
    · exact fun both => noDefault ⟨both.1, owned, member, both.2⟩
  rw [planAll_singles fun owned member => single owned (mem_append_right _ member),
    planAll_singles fun owned member => single owned (mem_append_left _ member)] at accepted
  cases accepted
  refine ⟨removals, additions, rfl, by rw [if_neg table]; exact ⟨removes, adds⟩, removesNodup,
    addsNodup, ?_⟩
  intro owned member
  exact (mem_append.mp member).elim (removesCanonical owned) (addsCanonical owned)

section Planners

variable (textLE : Prefix → Prefix → Bool) (name : Text) {cfg : NetworkConfig} {owned : Prefix}

def linuxPeerRoute (name : Text) (cfg : NetworkConfig) (owned : Prefix) : LinuxRoute :=
  { ipv6 := !owned.addr.is4
    destination := owned
    device := name
    table := if cfg.automatic then none else some cfg.table }

def freeBSDPeerRoute (cfg : NetworkConfig) (owned : Prefix) : FreeBSDRoute :=
  { ipv6 := !owned.addr.is4
    destination := owned
    fib := if cfg.automatic then none else some cfg.table }

theorem sortedAllowedPrefixes_single (canonical : Canonical owned) :
    sortedAllowedPrefixes textLE [[owned]] = [owned] := by
  simp [sortedAllowedPrefixes, uniqueAllowedPrefixes, canonical.2]

theorem prefixEntries_single (noDefault : ¬(cfg.automatic = true ∧ owned.bits = 0)) :
    prefixEntries name cfg cfg.table owned = [.route (linuxPeerRoute name cfg owned)] := by
  cases automatic : cfg.automatic with
  | false => simp [prefixEntries, linuxPeerRoute, automatic]
  | true =>
    have bits : owned.bits ≠ 0 := fun none => noDefault ⟨automatic, none⟩
    simp [prefixEntries, linuxPeerRoute, automatic, bits]

section

variable (enabled : equalFold cfg.table "off" = false) (alone : cfg.allowedIPs = [[owned]])
  (canonical : Canonical owned) (noDefault : ¬(cfg.automatic = true ∧ owned.bits = 0))

include enabled alone canonical noDefault

theorem linuxRouteOperations_single : linuxRouteOperations textLE name cfg =
      .ok [LinuxEntry.operation (.route (linuxPeerRoute name cfg owned))] := by
  have noMark : usesAutomaticDefaultRoute cfg = false := by
    simpa [usesAutomaticDefaultRoute, alone] using noDefault
  rw [linuxRouteOperations, routeEntries, if_neg (Bool.eq_false_iff.mp enabled), noMark,
    if_neg (fun both => Bool.false_ne_true both.2.1), if_neg Bool.false_ne_true, alone,
    sortedAllowedPrefixes_single textLE canonical]
  dsimp only
  rw [flatMap_singleton, prefixEntries_single name noDefault]
  rfl

theorem freeBSDRouteOperations_single : freeBSDRouteOperations textLE name cfg =
      [FreeBSDRoute.operation name (freeBSDPeerRoute cfg owned)] := by
  have noHalves : ¬(cfg.automatic && decide (owned.bits = 0)) = true := by simpa using noDefault
  rw [freeBSDRouteOperations, if_neg (Bool.eq_false_iff.mp enabled), alone,
    sortedAllowedPrefixes_single textLE canonical, flatMap_singleton, freeBSDPrefixRoutes,
    if_neg noHalves]
  rfl

end

end Planners

namespace CommandHost

def routeOf : (host : CommandHost) → Prefix → host.Route
  | .linux _ name cfg, owned => .route (linuxPeerRoute name cfg owned)
  | .freeBSD _ _ cfg, owned => freeBSDPeerRoute cfg owned
  | .windows compartmentID interfaceLUID _, owned =>
    peerRouteKey compartmentID interfaceLUID owned

def operationOf : (host : CommandHost) → Prefix → HostOperation host.Command
  | .linux _ name cfg, owned => LinuxEntry.operation (.route (linuxPeerRoute name cfg owned))
  | .freeBSD _ name cfg, owned => FreeBSDRoute.operation name (freeBSDPeerRoute cfg owned)
  | .windows compartmentID interfaceLUID _, owned =>
    peerOperation compartmentID interfaceLUID owned

/-- The manager plans each prefix as if it were the only one. -/
theorem planner_eq (host : CommandHost) (table : equalFold host.manager.table "off" = false)
    {owned : Prefix} (canonical : Canonical owned)
    (noDefault : ¬(host.manager.automatic = true ∧ owned.bits = 0)) :
    host.manager.planner owned = .ok [host.operationOf owned] := by
  cases host with
  | linux textLE name cfg =>
    exact linuxRouteOperations_single textLE name table rfl canonical noDefault
  | freeBSD textLE name cfg =>
    exact congrArg Except.ok
      (freeBSDRouteOperations_single textLE name table rfl canonical noDefault)
  | windows compartmentID interfaceLUID table =>
    change windowsPlanner compartmentID interfaceLUID owned = _
    rw [windowsPlanner, windowsPeerRouteKey, canonical.1]
    rfl

theorem spells (host : CommandHost) {owned : Prefix} (canonical : Canonical owned) :
    Spells host.change (host.operationOf owned) (host.routeOf owned) := by
  cases host with
  | linux | freeBSD => exact ⟨rfl, rfl⟩
  | windows compartmentID interfaceLUID table =>
    have changes : ∀ action, parseWindowsPeerRouteCommand (windowsPeerRouteCommand action
        (peerRouteKey compartmentID interfaceLUID owned)) =
        .ok (peerRouteKey compartmentID interfaceLUID owned, action) :=
      parse_peerCommand canonical
    refine ⟨?_, ?_⟩
    · simp only [change, operationOf, peerOperation, windowsOperation, changes]
      rfl
    · simp only [change, operationOf, peerOperation, windowsOperation, changes]
      rfl

theorem routeOf_inj (host : CommandHost) {left right : Prefix} (leftCanonical : Canonical left)
    (rightCanonical : Canonical right) (same : host.routeOf left = host.routeOf right) :
    left = right := by
  cases host with
  | linux textLE name cfg =>
    exact congrArg LinuxRoute.destination (LinuxEntry.route.inj same)
  | freeBSD textLE name cfg => exact congrArg FreeBSDRoute.destination same
  | windows compartmentID interfaceLUID table =>
    exact peerRouteKey_inj leftCanonical rightCanonical same

end CommandHost

section Plan

variable {Command Route : Type} {change : Command → Option (RouteChange Route)}
  {start routes : Set Route} {toRemove toAdd operations rest : List (HostOperation Command)}
  {operation : HostOperation Command} {route : Route}
  {p q : PreparedCommandPeerRoutes Command}

/-- The removals are routes that are there, the additions are new. -/
structure Plan (change : Command → Option (RouteChange Route)) (start : Set Route)
    (toRemove toAdd : List (HostOperation Command)) : Prop where
  spelled : ∀ operation ∈ toRemove ++ toAdd, ∃ route, Spells change operation route
  removable : ∀ route ∈ addedRoutes change toRemove, route ∈ start
  fresh : ∀ route ∈ addedRoutes change toAdd, route ∉ start
  removalsNodup : (addedRoutes change toRemove).Nodup
  additionsNodup : (addedRoutes change toAdd).Nodup

/-- The last of some operations has a route of its own. -/
theorem Spells.last {all kept : List (HostOperation Command)}
    (spells : Spells change operation route) (nodup : (addedRoutes change all).Nodup)
    (listed : all = kept ++ operation :: rest) :
    route ∈ addedRoutes change all ∧ route ∉ addedRoutes change kept := by
  subst listed
  rw [addedRoutes_append, spells.addedRoutes_cons] at nodup ⊢
  refine ⟨by simp, ?_⟩
  exact fun member => (nodup_append.mp nodup).2.2 route member route mem_cons_self rfl

theorem quiet_hostCommands : (hostCommands change).Quiet := fun _ _ drifts => drifts

theorem Plan.host (plan : Plan change start toRemove toAdd) {always : Set Route → Prop}
    (safe : ∀ p routes, Stands change start toRemove toAdd p routes → always routes) :
    Host ask (hostCommands change) always id (fun _ _ => True) change start toRemove
      toAdd := by
  refine ⟨quiet_hostCommands, safe, plan.spelled, ?_, ?_, ?_⟩
  · intro command effect pre changes holds
    refine .ask quiet_hostCommands holds ?_
    rintro routes reply after before (⟨worked, rfl⟩ | ⟨failed, rfl⟩)
    · rw [changes]
      exact ⟨routes, before, .inl ⟨worked, trivial, rfl⟩⟩
    · exact ⟨_, before, .inr ⟨failed, rfl⟩⟩
  · intro p routes operation rest route stands left spells _
    obtain ⟨listed, new⟩ := spells.last plan.removalsNodup left
    rw [stands.routes_eq]
    exact .inl ⟨plan.removable route listed, new⟩
  · intro p routes operation rest route stands left spells _
    obtain ⟨listed, new⟩ := spells.last plan.additionsNodup left
    rw [stands.routes_eq]
    exact fun there => there.elim (fun old => plan.fresh route listed old.1) new

theorem length_addedRoutes
    (spelled : ∀ operation ∈ operations, ∃ route, Spells change operation route) :
    (addedRoutes change operations).length = operations.length := by
  induction operations with
  | nil => rfl
  | cons operation rest ih =>
    obtain ⟨route, spells⟩ := spelled operation mem_cons_self
    rw [spells.addedRoutes_cons, length_cons, length_cons,
      ih fun other member => spelled other (mem_cons_of_mem _ member)]

section

variable (plan : Plan change start toRemove toAdd)
  (stands : Stands change start toRemove toAdd p routes)

include plan stands

/-- The routes of a transaction are those of its plan, up to some point. -/
theorem Stands.between :
    routes = changedRoutes start (addedRoutes change toRemove) (addedRoutes change toAdd)
        p.removedApplied.length p.addedApplied.length ∧
      Between start (addedRoutes change toRemove) (addedRoutes change toAdd) routes := by
  have spelledRemovals : ∀ operation ∈ toRemove, ∃ route, Spells change operation route :=
    fun operation member => plan.spelled operation (mem_append_left _ member)
  have spelledAdditions : ∀ operation ∈ toAdd, ∃ route, Spells change operation route :=
    fun operation member => plan.spelled operation (mem_append_right _ member)
  have taken : ∀ {some all : List (HostOperation Command)}, some <+: all →
      (∀ operation ∈ all, ∃ route, Spells change operation route) →
      (addedRoutes change all).take some.length = addedRoutes change some := by
    rintro some _ ⟨rest, rfl⟩ spelled
    rw [addedRoutes_append, ← length_addedRoutes fun operation member =>
      spelled operation (mem_append_left _ member), take_left]
  have changed : routes = changedRoutes start (addedRoutes change toRemove)
      (addedRoutes change toAdd) p.removedApplied.length p.addedApplied.length := by
    rw [changedRoutes, taken stands.removed spelledRemovals, taken stands.added spelledAdditions]
    exact stands.routes_eq
  refine ⟨changed, _, _, ?_, ?_, ?_, changed⟩
  · rw [length_addedRoutes spelledRemovals]
    exact stands.removed.length_le
  · rw [length_addedRoutes spelledAdditions]
    exact stands.added.length_le
  · rw [length_addedRoutes spelledRemovals]
    exact stands.ordered.imp (congrArg List.length) (congrArg List.length)

theorem Stands.reaches {s : RouteRun Command Route}
    (reached : RouteRun.Reaches change ⟨p, routes⟩ s) :
    Stands change start toRemove toAdd s.prepared s.routes := by
  induction reached with
  | refl => exact stands
  | @tail mid last _ step ih =>
    obtain ⟨method, reply, ran⟩ := step
    have keeps : Program.Triple (hostCommands change) (fun _ => True)
        (Stands change start toRemove toAdd mid.prepared) (method.on ask mid.prepared)
        fun value => Stands change start toRemove toAdd value.2 :=
      fun _ stands => (plan.host fun _ _ _ => trivial).keeps stands method
    exact keeps.runs ih ran

end

end Plan

/-! ## Transactions -/

/-- What a call of `method` comes to, for a transaction that was prepared as `p`. -/
structure CallOutcome {Command Route : Type} (change : Command → Option (RouteChange Route))
    (start : Set Route) (removals additions : List Route) (p : PreparedCommandPeerRoutes Command)
    (method : RouteMethod) (value : Except RouteError Unit × PreparedCommandPeerRoutes Command)
    (routes : Set Route) : Prop where
  between : Between start removals additions routes
  removed : method = .commitRemovals → value.1 = .ok () →
    routes = changedRoutes start removals additions removals.length value.2.addedApplied.length
  added : method = .commitAdditions → value.1 = .ok () →
    routes = changedRoutes start removals additions removals.length additions.length
  rolledBack : method = .rollback → value.1 = .ok () →
    routes = start ∧ ∀ later, RouteRun.Reaches change ⟨value.2, routes⟩ later →
      ∀ commit, commit = .commitRemovals ∨ commit = .commitAdditions →
        invoke later.prepared commit =
          pure (.error (.text "rolled-back route transaction cannot be committed"), later.prepared)
  finalized : method = .finalize → value.1 = .ok () →
    routes = changedRoutes start removals additions removals.length additions.length ∧
      ∀ later, RouteRun.Reaches change ⟨value.2, routes⟩ later → Settled later.prepared
  /-- Unless it was refused, the call works when it is made again and its commands do. -/
  retried : (∃ err, value.1 = .error err) → (∃ err, invoke p method = pure (.error err, p)) ∨
      (invoke value.2 method).Yields (fun _ reply => reply = .ok ()) (fun _ => True)
        fun again => again.1 = .ok ()

namespace CommandHost

variable {host : CommandHost} {start : Set host.Route}

theorem addedRoutes_map (canonical : ∀ owned ∈ prefixes, Canonical owned) :
    addedRoutes host.change (prefixes.map host.operationOf) = prefixes.map host.routeOf := by
  induction prefixes with
  | nil => rfl
  | cons owned rest ih =>
    have spells := host.spells (canonical owned mem_cons_self)
    rw [map_cons, spells.addedRoutes_cons, map_cons,
      ih fun other member => canonical other (mem_cons_of_mem _ member)]

theorem plan_of_accepted {p : PreparedCommandPeerRoutes host.Command} {plan : PeerRoutePlan}
    {removals additions : List Prefix}
    (planned : Accepted host.manager host.operationOf plan removals additions p)
    (removable : ∀ route ∈ addedRoutes host.change p.removals, route ∈ start)
    (fresh : ∀ route ∈ addedRoutes host.change p.additions, route ∉ start) :
    Plan host.change start p.removals p.additions := by
  have nodup : ∀ prefixes : List Prefix, prefixes.Nodup → (∀ owned ∈ prefixes, Canonical owned) →
      (addedRoutes host.change (prefixes.map host.operationOf)).Nodup := by
    intro prefixes distinct canonical
    rw [addedRoutes_map canonical]
    exact distinct.map_on fun left leftMember right rightMember =>
      host.routeOf_inj (canonical left leftMember) (canonical right rightMember)
  have canonical := planned.canonical
  obtain rfl := planned.prepared
  refine ⟨?_, removable, fresh, ?_, ?_⟩
  · intro operation member
    rw [← map_append] at member
    obtain ⟨owned, listed, rfl⟩ := mem_map.mp member
    exact ⟨_, host.spells (canonical owned listed)⟩
  · exact nodup removals planned.removalsNodup fun owned member =>
      canonical owned (mem_append_left _ member)
  · exact nodup additions planned.additionsNodup fun owned member =>
      canonical owned (mem_append_right _ member)

/-- Every call of every run leaves the routes between those at the start and those of
the plan. -/
theorem transaction_follows_plan (host : CommandHost) {plan : PeerRoutePlan}
    {p : PreparedCommandPeerRoutes host.Command} {start : Set host.Route}
    (accepted : host.manager.prepare plan = .ok p)
    (removable : ∀ route ∈ addedRoutes host.change p.removals, route ∈ start)
    (fresh : ∀ route ∈ addedRoutes host.change p.additions, route ∉ start)
    {s : RouteRun host.Command host.Route}
    (reached : RouteRun.Reaches host.change ⟨p, start⟩ s) (method : RouteMethod) :
    (∃ removals additions, Accepted host.manager host.operationOf plan removals additions p) ∧
      Between start (addedRoutes host.change p.removals) (addedRoutes host.change p.additions)
        s.routes ∧
      Program.Triple (hostCommands host.change)
        (Between start (addedRoutes host.change p.removals) (addedRoutes host.change p.additions))
        (· = s.routes) (invoke s.prepared method)
        (CallOutcome host.change start (addedRoutes host.change p.removals)
          (addedRoutes host.change p.additions) s.prepared method) := by
  obtain ⟨removals, additions, planned⟩ := prepare_accepted
    (fun table owned canonical noDefault => host.planner_eq table canonical noDefault) accepted
  have wellFormed := plan_of_accepted planned removable fresh
  have initial : Stands host.change start p.removals p.additions p start := by
    obtain rfl := planned.prepared
    exact stands_start
  have stands := initial.reaches wellFormed reached
  refine ⟨⟨removals, additions, planned⟩, (stands.between wellFormed).2, ?_⟩
  have acts := wellFormed.host fun _ _ stands => (stands.between wellFormed).2
  rintro _ rfl
  rcases ready_or_refused ask s.prepared method with ready | ⟨err, refused⟩
  case inr =>
    rw [invoke, refused]
    exact acts.pure ⟨(stands.between wellFormed).2, nofun, nofun, nofun, nofun,
      fun _ => .inl ⟨err, refused⟩⟩
  refine (acts.leaves stands ready).weaken (fun _ _ holds => holds) ?_
  rintro value routes ⟨stands, done, again⟩
  obtain ⟨changed, between⟩ := stands.between wellFormed
  dsimp only [id] at changed
  have lengths := And.intro (length_addedRoutes fun operation member =>
      wellFormed.spelled operation (mem_append_left _ member))
    (length_addedRoutes fun operation member =>
      wellFormed.spelled operation (mem_append_right _ member))
  refine ⟨between, ?_, ?_, ?_, ?_, fun failed => .inr (invoke_works (again failed))⟩
  · rintro rfl worked
    rw [changed, lengths.1, done worked, stands.removals]
  · rintro rfl worked
    obtain ⟨removed, added⟩ := done worked
    rw [changed, lengths.1, lengths.2, removed, added, stands.removals, stands.additions]
  · rintro rfl worked
    obtain ⟨flag, isOpen⟩ := done worked
    obtain ⟨noRemoval, noAddition⟩ := stands.rolledBack flag
    refine ⟨?_, ?_⟩
    · rw [changed, noRemoval, noAddition]
      simp [changedRoutes]
    · intro later reached commit commits
      rw [(settled_of_rolledBack flag).reaches reached]
      obtain ⟨_, removals, additions, removedApplied, addedApplied, _, _⟩ := value
      subst flag isOpen
      rcases commits with rfl | rfl
      · rfl
      · rfl
  · rintro rfl worked
    have flag : value.2.finalized = true := done worked
    obtain ⟨allRemoved, allAdded⟩ := stands.finalized flag
    have settled := settled_of_finalized flag
    refine ⟨?_, ?_⟩
    · rw [changed, allRemoved, allAdded, lengths.1, lengths.2]
    · intro later reached
      rw [settled.reaches reached]
      exact settled

/-- A host whose one peer gets another network. -/
def lanHost : CommandHost := .linux (fun _ _ => true) "wg0".toList {}

def oldLan : Prefix := ⟨.v4 0x0a000100#32, 24⟩

def newLan : Prefix := ⟨.v4 0x0a000200#32, 24⟩

def swapped : PreparedCommandPeerRoutes lanHost.Command :=
  { removals := [lanHost.operationOf oldLan], additions := [lanHost.operationOf newLan] }

theorem swapped_rollback : lanHost.manager.prepare
        { transactionID := "1".toList, removals := [oldLan], additions := [newLan] } =
      .ok swapped ∧
    Program.Triple (hostCommands lanHost.change)
      (Between {lanHost.routeOf oldLan} [lanHost.routeOf oldLan] [lanHost.routeOf newLan])
      (· = {lanHost.routeOf oldLan}) (invoke swapped .rollback)
      (CallOutcome lanHost.change {lanHost.routeOf oldLan} [lanHost.routeOf oldLan]
        [lanHost.routeOf newLan] swapped .rollback) := by
  have accepted : lanHost.manager.prepare
      { transactionID := "1".toList, removals := [oldLan], additions := [newLan] } =
      .ok swapped := by
    with_unfolding_all rfl
  refine ⟨accepted, (transaction_follows_plan lanHost accepted ?_ ?_ .refl .rollback).2.2⟩
  · intro route removed
    exact mem_singleton.mp removed
  · intro route added same
    obtain rfl : route = lanHost.routeOf newLan := mem_singleton.mp added
    have destination := congrArg LinuxRoute.destination (LinuxEntry.route.inj same)
    revert destination
    decide

end CommandHost

end WgQuic.Platform
