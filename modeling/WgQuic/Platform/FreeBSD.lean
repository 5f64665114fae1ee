import WgQuic.Platform.Linux

/-!
# The peer routes of a FreeBSD host

Routes go into the FIB that `Table` names.  Without one, a default route is
replaced by its two halves, so that the default route of the host stays.
-/

namespace WgQuic.Platform

open Net PeerRoutes

/-- A route, as `route delete` names it. -/
structure FreeBSDRoute where
  ipv6 : Bool
  destination : Prefix
  fib : Option Text
deriving DecidableEq, Repr

inductive FreeBSDCommand where
  /-- `route -q -n add … -interface device` -/
  | add (route : FreeBSDRoute) (device : Text)
  | delete (route : FreeBSDRoute)
deriving DecidableEq, Repr

def FreeBSDRoute.operation (device : Text) (route : FreeBSDRoute) : HostOperation FreeBSDCommand :=
  { apply := .add route device, undo := .delete route }

def freeBSDDefaultHalves (ipv6 : Bool) : List FreeBSDRoute :=
  if ipv6 then
    [{ ipv6, destination := ⟨.v6 0 [], 1⟩, fib := none },
      { ipv6, destination := ⟨.v6 (1#128 <<< 127) [], 1⟩, fib := none }]
  else
    [{ ipv6, destination := ⟨.v4 0, 1⟩, fib := none },
      { ipv6, destination := ⟨.v4 (1#32 <<< 31), 1⟩, fib := none }]

def freeBSDPrefixRoutes (cfg : NetworkConfig) (owned : Prefix) : List FreeBSDRoute :=
  let ipv6 := !owned.addr.is4
  if cfg.automatic && owned.bits = 0 then freeBSDDefaultHalves ipv6
  else
    [{ ipv6, destination := owned, fib := if cfg.automatic then none else some cfg.table }]

section Operations

variable (textLE : Prefix → Prefix → Bool)

def freeBSDRouteOperations (name : Text) (cfg : NetworkConfig) :
    List (HostOperation FreeBSDCommand) :=
  if equalFold cfg.table "off" then []
  else
    (sortedAllowedPrefixes textLE cfg.allowedIPs).flatMap fun owned =>
      (freeBSDPrefixRoutes cfg owned).map (FreeBSDRoute.operation name)

/-- `NewPeerRouteManager` of `freeBSDHost` -/
def newFreeBSDPeerRouteManager (name : Text) (cfg : NetworkConfig) :
    CommandPeerRouteManager FreeBSDCommand :=
  { table := cfg.table
    planner := fun owned =>
      .ok (freeBSDRouteOperations textLE name { cfg with allowedIPs := [[owned]] }) }

end Operations

end WgQuic.Platform
