import WgQuic.Lib.Triple
import WgQuic.Net.Prefix

/-!
# Peer routes as host commands

A plan of peer route changes becomes a list of commands for every prefix, each
with the command that undoes it.  A prepared transaction runs the removals, then
the additions, and remembers what it has applied, so that it can take them back
in the other order.
-/

namespace WgQuic.PeerRoutes

open Net

abbrev Text := List Char

/-- An error and what it wraps; a prefix in a message is kept as its value. -/
inductive RouteError where
  | text (message : String)
  | naming (before : String) (owned : Prefix) (after : String)
  | wrap (context : String) (cause : RouteError)
  | wrapNaming (context : String) (owned : Prefix) (cause : RouteError)
  /-- `errors.Join` -/
  | join (first second : RouteError)
deriving DecidableEq, Repr

structure PeerRoutePlan where
  transactionID : Text
  additions : List Prefix := []
  removals : List Prefix := []
deriving DecidableEq, Repr

/-- The loop that masks the prefixes and looks for duplicates. -/
def maskLoop : Nat → List Prefix → List Prefix → Except RouteError (List Prefix)
  | _, _, [] => .ok []
  | index, seen, owned :: rest =>
    if owned.isValid = false then
      .error (.text ("prefix " ++ toString (index + 1) ++ " is invalid"))
    else if owned.masked ∈ seen then
      .error (.naming "prefix " owned.masked " is duplicated")
    else
      match maskLoop (index + 1) (owned.masked :: seen) rest with
      | .error err => .error err
      | .ok rest => .ok (owned.masked :: rest)

def canonicalRoutePlanPrefixes (prefixes : List Prefix) : Except RouteError (List Prefix) :=
  (maskLoop 0 [] prefixes).map Prefix.sort

/-- A prefix that a route can be installed for. -/
def Canonical (owned : Prefix) : Prop :=
  owned.isValid = true ∧ owned.masked = owned

theorem maskLoop_ok {index : Nat} {seen prefixes result : List Prefix}
    (canonical : maskLoop index seen prefixes = .ok result) :
    result = prefixes.map Prefix.masked ∧ result.Nodup ∧ (∀ owned ∈ result, owned ∉ seen) ∧
      ∀ owned ∈ result, Canonical owned := by
  induction prefixes generalizing index seen result with
  | nil =>
    cases canonical
    exact ⟨rfl, List.nodup_nil, nofun, nofun⟩
  | cons owned rest ih =>
    rw [maskLoop] at canonical
    split at canonical
    · cases canonical
    next valid =>
    split at canonical
    · cases canonical
    next fresh =>
    split at canonical
    · cases canonical
    next tail found =>
    cases canonical
    obtain ⟨mapped, nodup, unseen, each⟩ := ih found
    refine ⟨?_, ?_, ?_, ?_⟩
    · rw [mapped]
      rfl
    · refine List.nodup_cons.mpr ⟨?_, nodup⟩
      intro again
      exact unseen _ again List.mem_cons_self
    · intro other member
      rcases List.mem_cons.mp member with rfl | later
      · exact fresh
      · intro known
        exact unseen other later (List.mem_cons_of_mem _ known)
    · intro other member
      rcases List.mem_cons.mp member with rfl | later
      · exact ⟨by simpa using valid, Prefix.masked_masked owned⟩
      · exact each other later

theorem canonicalRoutePlanPrefixes_ok {prefixes result : List Prefix}
    (canonical : canonicalRoutePlanPrefixes prefixes = .ok result) :
    result.Nodup ∧ (∀ owned ∈ result, Canonical owned) ∧
      ∀ owned, owned ∈ result ↔ owned ∈ prefixes.map Prefix.masked := by
  unfold canonicalRoutePlanPrefixes at canonical
  cases masked : maskLoop 0 [] prefixes with
  | error err =>
    rw [masked] at canonical
    cases canonical
  | ok unsorted =>
    rw [masked] at canonical
    cases canonical
    obtain ⟨mapped, nodup, -, each⟩ := maskLoop_ok masked
    have perm := Prefix.sort_perm unsorted
    refine ⟨perm.nodup_iff.mpr nodup, ?_, ?_⟩
    · intro owned member
      exact each owned (perm.mem_iff.mp member)
    · intro owned
      rw [perm.mem_iff, mapped]

structure HostOperation (Command : Type) where
  apply : Command
  undo : Command

structure CommandPeerRouteManager (Command : Type) where
  /-- `cfg.Interface.Table` -/
  table : Text
  planner : Prefix → Except RouteError (List (HostOperation Command))

structure PreparedCommandPeerRoutes (Command : Type) where
  removals : List (HostOperation Command) := []
  additions : List (HostOperation Command) := []
  removedApplied : List (HostOperation Command) := []
  addedApplied : List (HostOperation Command) := []
  rolledBack : Bool := false
  finalized : Bool := false

/-- `strings.EqualFold` with a lower-case word. -/
def equalFold (text : Text) (word : String) : Bool :=
  text.map Char.toLower = word.toList

/-- The operations of one prefix after the other. -/
def planAll {Command : Type} (planner : Prefix → Except RouteError (List (HostOperation Command))) :
    List Prefix → Except RouteError (List (HostOperation Command))
  | [] => .ok []
  | owned :: rest =>
    match planner owned with
    | .error err => .error err
    | .ok operations =>
      match planAll planner rest with
      | .error err => .error err
      | .ok later => .ok (operations ++ later)

namespace CommandPeerRouteManager

variable {Command : Type}

def automatic (m : CommandPeerRouteManager Command) : Bool :=
  m.table = [] ∨ equalFold m.table "auto"

/-- The operations of a plan whose prefixes are canonical. -/
def planned (m : CommandPeerRouteManager Command) (additions removals : List Prefix) :
    Except RouteError (PreparedCommandPeerRoutes Command) :=
  if equalFold m.table "off" then .ok {}
  else if m.automatic ∧ ∃ owned ∈ additions ++ removals, owned.bits = 0 then
    .error (.text "automatic default-route transition requires interface restart")
  else
    match planAll m.planner removals with
    | .error err => .error err
    | .ok removals =>
      match planAll m.planner additions with
      | .error err => .error err
      | .ok additions => .ok { removals, additions }

def prepare (m : CommandPeerRouteManager Command) (plan : PeerRoutePlan) :
    Except RouteError (PreparedCommandPeerRoutes Command) :=
  match canonicalRoutePlanPrefixes plan.additions with
  | .error err => .error (.wrap "route additions" err)
  | .ok additions =>
    match canonicalRoutePlanPrefixes plan.removals with
    | .error err => .error (.wrap "route removals" err)
    | .ok removals =>
      match additions.find? (· ∈ removals) with
      | some owned => .error (.naming "route " owned " is both added and removed")
      | none => m.planned additions removals

end CommandPeerRouteManager

namespace PreparedCommandPeerRoutes

variable {Command Call : Type} {Answer : Call → Type}
  (run : Command → Program Call Answer (Except RouteError Unit))

/-- The loops of the four methods: run a command for every operation that is
left, and take note of it. -/
def runAll (command : HostOperation Command → Command)
    (note : PreparedCommandPeerRoutes Command → HostOperation Command →
      PreparedCommandPeerRoutes Command) :
    List (HostOperation Command) → PreparedCommandPeerRoutes Command →
    Program Call Answer (Except RouteError Unit × PreparedCommandPeerRoutes Command)
  | [], p => return (.ok (), p)
  | operation :: rest, p => do
      match ← run (command operation) with
      | .error err => return (.error err, p)
      | .ok () => runAll command note rest (note p operation)

def noteRemoved (p : PreparedCommandPeerRoutes Command)
    (operation : HostOperation Command) : PreparedCommandPeerRoutes Command :=
  { p with removedApplied := p.removedApplied ++ [operation] }

def noteAdded (p : PreparedCommandPeerRoutes Command)
    (operation : HostOperation Command) : PreparedCommandPeerRoutes Command :=
  { p with addedApplied := p.addedApplied ++ [operation] }

def forgetAdded (p : PreparedCommandPeerRoutes Command)
    (_ : HostOperation Command) : PreparedCommandPeerRoutes Command :=
  { p with addedApplied := p.addedApplied.dropLast }

def forgetRemoved (p : PreparedCommandPeerRoutes Command)
    (_ : HostOperation Command) : PreparedCommandPeerRoutes Command :=
  { p with removedApplied := p.removedApplied.dropLast }

def commitRemovals (p : PreparedCommandPeerRoutes Command) :
    Program Call Answer (Except RouteError Unit × PreparedCommandPeerRoutes Command) :=
  if p.finalized then return (.ok (), p)
  else if p.rolledBack then
    return (.error (.text "rolled-back route transaction cannot be committed"), p)
  else
    runAll run HostOperation.undo noteRemoved (p.removals.drop p.removedApplied.length) p

def commitAdditions (p : PreparedCommandPeerRoutes Command) :
    Program Call Answer (Except RouteError Unit × PreparedCommandPeerRoutes Command) :=
  if p.finalized then return (.ok (), p)
  else if p.rolledBack then
    return (.error (.text "rolled-back route transaction cannot be committed"), p)
  else if p.removedApplied.length ≠ p.removals.length then
    return (.error (.text "route removals must commit before route additions"), p)
  else
    runAll run HostOperation.apply noteAdded (p.additions.drop p.addedApplied.length) p

/-- The end of `RollbackAdditions`: there may be nothing else to take back. -/
def additionsUndone (p : PreparedCommandPeerRoutes Command) : PreparedCommandPeerRoutes Command :=
  if p.removedApplied.length = 0 then { p with rolledBack := true } else p

/-- The applied additions are taken back from the last one on. -/
def rollbackAdditions (p : PreparedCommandPeerRoutes Command) :
    Program Call Answer (Except RouteError Unit × PreparedCommandPeerRoutes Command) :=
  if p.finalized then
    return (.error (.text "finalized route transaction cannot be rolled back"), p)
  else if p.rolledBack then return (.ok (), p)
  else do
    let (undone, p) ← runAll run HostOperation.undo forgetAdded
      p.addedApplied.reverse p
    match undone with
    | .error err => return (.error err, p)
    | .ok () => return (.ok (), p.additionsUndone)

/-- The applied removals are taken back from the last one on. -/
def rollbackRemovals (p : PreparedCommandPeerRoutes Command) :
    Program Call Answer (Except RouteError Unit × PreparedCommandPeerRoutes Command) :=
  if p.finalized then
    return (.error (.text "finalized route transaction cannot be rolled back"), p)
  else if p.rolledBack then return (.ok (), p)
  else if p.addedApplied.length ≠ 0 then
    return (.error (.text "route additions must roll back before route removals"), p)
  else do
    let (redone, p) ← runAll run HostOperation.apply forgetRemoved
      p.removedApplied.reverse p
    match redone with
    | .error err => return (.error err, p)
    | .ok () => return (.ok (), { p with rolledBack := true })

def rollback (p : PreparedCommandPeerRoutes Command) : Program Call Answer
      (Except RouteError Unit × PreparedCommandPeerRoutes Command) := do
  let (undone, p) ← p.rollbackAdditions run
  match undone with
  | .error err => return (.error err, p)
  | .ok () => p.rollbackRemovals run

def finalize (p : PreparedCommandPeerRoutes Command) :
    Except RouteError Unit × PreparedCommandPeerRoutes Command :=
  if p.rolledBack then
    (.error (.text "rolled-back route transaction cannot be finalized"), p)
  else if p.removedApplied.length ≠ p.removals.length ∨
      p.addedApplied.length ≠ p.additions.length then
    (.error (.text "route transaction is not fully committed"), p)
  else (.ok (), { p with finalized := true })

section Loops

variable {World : Type} {around : Surroundings Call Answer World} {always : World → Prop}
  {run : Command → Program Call Answer (Except RouteError Unit)}

/-- The rule for the loops: a step either fails and changes nothing, or goes on
with one operation less. -/
theorem runAll_triple {command : HostOperation Command → Command}
    {note : PreparedCommandPeerRoutes Command → HostOperation Command →
      PreparedCommandPeerRoutes Command}
    (quiet : around.Quiet)
    (invariant : List (HostOperation Command) → PreparedCommandPeerRoutes Command → World → Prop)
    (step : ∀ operation rest p, Program.Triple around always
      (invariant (operation :: rest) p) (run (command operation)) fun reply world =>
        reply = .ok () ∧ invariant rest (note p operation) world ∨
          (∃ err, reply = .error err) ∧ invariant (operation :: rest) p world)
    (operations : List (HostOperation Command))
    (p : PreparedCommandPeerRoutes Command) :
    Program.Triple around always (invariant operations p) (runAll run command note operations p)
      fun value world => ∃ rest, invariant rest value.2 world ∧ (value.1 = .ok () → rest = []) := by
  induction operations generalizing p with
  | nil =>
    refine .pure quiet ?_
    intro world holds
    exact ⟨[], holds, fun _ => rfl⟩
  | cons operation rest ih =>
    refine .bind (step operation rest p) ?_
    intro reply
    match reply with
    | .error err =>
      refine .pure quiet ?_
      rintro world (⟨worked, -⟩ | ⟨-, holds⟩)
      · cases worked
      · exact ⟨operation :: rest, holds, nofun⟩
    | .ok () =>
      refine (ih (note p operation)).weaken ?_ fun _ _ done => done
      rintro world (⟨-, holds⟩ | ⟨⟨err, failed⟩, -⟩)
      · exact holds
      · cases failed

end Loops

end PreparedCommandPeerRoutes

end WgQuic.PeerRoutes
