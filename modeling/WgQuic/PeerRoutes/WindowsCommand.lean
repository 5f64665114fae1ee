import WgQuic.PeerRoutes.Command

/-!
# Peer routes of a Windows tunnel

A route is named by a key, which is also what the two host commands carry.  The
projection is the list of prefixes whose routes a tunnel has.
-/

namespace WgQuic.WindowsRoutes

open Net

structure RouteKey where
  compartmentID : Nat
  family : Nat
  destination : Rendered Prefix
  interfaceLUID : Nat
  nextHop : Rendered Addr
deriving DecidableEq, Repr

end WgQuic.WindowsRoutes

namespace WgQuic.PeerRoutes

open Net
open WindowsRoutes (RouteKey)

/-- The on-link route of a prefix through the tunnel. -/
def peerRouteKey (compartmentID interfaceLUID : Nat) (owned : Prefix) : RouteKey :=
  { compartmentID, interfaceLUID, destination := .of owned.masked
    family := if owned.masked.addr.is4 then 4 else 6
    nextHop := .of (if owned.masked.addr.is4 then .v4 0 else .v6 0 []) }

def windowsPeerRouteKey (compartmentID interfaceLUID : Nat) (owned : Prefix) :
    Except RouteError RouteKey :=
  if owned.isValid = false then
    .error (.text "Windows peer route prefix is invalid")
  else .ok (peerRouteKey compartmentID interfaceLUID owned)

inductive RouteAction where
  | add
  | delete
deriving DecidableEq, Repr

/-- A host command `windows-peer-route-…` with its four arguments. -/
structure WindowsPeerRouteCommand where
  action : RouteAction
  compartmentID : Nat
  interfaceLUID : Nat
  destination : Rendered Prefix
  nextHop : Rendered Addr
deriving DecidableEq, Repr

def windowsPeerRouteCommand (action : RouteAction) (key : RouteKey) : WindowsPeerRouteCommand :=
  { action, compartmentID := key.compartmentID
    interfaceLUID := key.interfaceLUID, destination := key.destination
    nextHop := key.nextHop }

def parseWindowsPeerRouteCommand (command : WindowsPeerRouteCommand) :
    Except RouteError (RouteKey × RouteAction) :=
  match Prefix.parse command.destination with
  | none => .error (.text "invalid Windows peer route command")
  | some owned =>
    match windowsPeerRouteKey command.compartmentID command.interfaceLUID owned
    with
    | .error err => .error err
    | .ok key =>
      if key.nextHop ≠ command.nextHop then
        .error (.text "Windows peer route next hop is not canonical")
      else .ok (key, command.action)

def windowsOperation (key : RouteKey) : HostOperation WindowsPeerRouteCommand :=
  { apply := windowsPeerRouteCommand .add key
    undo := windowsPeerRouteCommand .delete key }

def windowsPlanner (compartmentID interfaceLUID : Nat) (owned : Prefix) :
    Except RouteError (List (HostOperation WindowsPeerRouteCommand)) :=
  (windowsPeerRouteKey compartmentID interfaceLUID owned).map fun key =>
    [windowsOperation key]

/-- The removals of a plan are taken out of a projection. -/
def removeFrom : List Prefix → List Prefix → Except RouteError (List Prefix)
  | projection, [] => .ok projection
  | projection, owned :: rest =>
    if owned ∈ projection then removeFrom (projection.filter (· ≠ owned)) rest
    else .error (.naming "peer route removal " owned " is not active")

def addTo : List Prefix → List Prefix → Except RouteError (List Prefix)
  | projection, [] => .ok projection
  | projection, owned :: rest =>
    if owned ∈ projection then
      .error (.naming "peer route addition " owned " is already active")
    else addTo (owned :: projection) rest

def applyPeerRoutePlan (current : List Prefix) (plan : PeerRoutePlan) :
    Except RouteError (List Prefix) := do
  let additions ← canonicalRoutePlanPrefixes plan.additions
  let removals ← canonicalRoutePlanPrefixes plan.removals
  let projection ← removeFrom current removals
  let projection ← addTo projection additions
  canonicalRoutePlanPrefixes projection

/-- The order of the result does not matter, for it is sorted again. -/
def uniqueAllowedPrefixes (allowedIPs : List (List Prefix)) : List Prefix :=
  (allowedIPs.flatten.map Prefix.masked).dedup

def windowsCommandManager (compartmentID interfaceLUID : Nat) (table : Text) :
    CommandPeerRouteManager WindowsPeerRouteCommand :=
  { table, planner := windowsPlanner compartmentID interfaceLUID }

def AllCanonical (prefixes : List Prefix) : Prop :=
  ∀ owned ∈ prefixes, Canonical owned

variable {compartmentID interfaceLUID : Nat}

theorem peerRouteKey_inj {left right : Prefix}
    (leftCanonical : Canonical left) (rightCanonical : Canonical right)
    (same : peerRouteKey compartmentID interfaceLUID left =
      peerRouteKey compartmentID interfaceLUID right) : left = right := by
  have destination := congrArg RouteKey.destination same
  simp only [peerRouteKey, leftCanonical.2, rightCanonical.2, Rendered.of.injEq] at destination
  exact destination

theorem maskLoop_canonical {index : Nat} {seen prefixes : List Prefix}
    (canonical : AllCanonical prefixes) (nodup : prefixes.Nodup)
    (fresh : ∀ owned ∈ prefixes, owned ∉ seen) : maskLoop index seen prefixes = .ok prefixes := by
  induction prefixes generalizing index seen with
  | nil => rfl
  | cons owned rest ih =>
    obtain ⟨valid, masked⟩ := canonical owned List.mem_cons_self
    obtain ⟨new, restNodup⟩ := List.nodup_cons.mp nodup
    have tail := @ih (index + 1) (owned :: seen)
      (fun other member => canonical other (List.mem_cons_of_mem _ member))
      restNodup (by
        intro other member known
        rcases List.mem_cons.mp known with rfl | earlier
        · exact new member
        · exact fresh other (List.mem_cons_of_mem _ member) earlier)
    rw [maskLoop, masked, valid, if_neg (by decide), if_neg (fresh owned List.mem_cons_self), tail]

theorem canonicalRoutePlanPrefixes_canonical {prefixes : List Prefix}
    (canonical : AllCanonical prefixes) (nodup : prefixes.Nodup) :
    canonicalRoutePlanPrefixes prefixes = .ok (Prefix.sort prefixes) := by
  rw [canonicalRoutePlanPrefixes, maskLoop_canonical canonical nodup fun _ _ => List.not_mem_nil]
  rfl

def peerOperation (compartmentID interfaceLUID : Nat) (owned : Prefix) :
    HostOperation WindowsPeerRouteCommand :=
  windowsOperation (peerRouteKey compartmentID interfaceLUID owned)

theorem parse_peerCommand {owned : Prefix} (canonical : Canonical owned) (action : RouteAction) :
    parseWindowsPeerRouteCommand (windowsPeerRouteCommand action
        (peerRouteKey compartmentID interfaceLUID owned)) =
      .ok (peerRouteKey compartmentID interfaceLUID owned, action) := by
  obtain ⟨valid, masked⟩ := canonical
  have parsed : Prefix.parse (windowsPeerRouteCommand action
      (peerRouteKey compartmentID interfaceLUID owned)).destination =
      some owned := by
    simp only [windowsPeerRouteCommand, peerRouteKey, masked]
    exact Prefix.parse_of valid
  have key : windowsPeerRouteKey compartmentID interfaceLUID owned =
      .ok (peerRouteKey compartmentID interfaceLUID owned) := by
    rw [windowsPeerRouteKey, valid]
    rfl
  simp only [parseWindowsPeerRouteCommand, parsed]
  change (match windowsPeerRouteKey compartmentID interfaceLUID owned with
    | .error err => _ | .ok key => _) = _
  rw [key]
  exact if_neg (not_not.mpr rfl)

end WgQuic.PeerRoutes
