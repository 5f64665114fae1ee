import WgQuic.Lib.Strings
import WgQuic.PeerRoutes.WindowsCommand

/-!
# The network of a Linux host

`ConfigureNetwork` installs the routes and rules of a configuration and returns a
cleanup that takes them back.  While the interface is up, a route manager changes
the routes of its peers; both build their commands with `linuxRouteOperations`.
-/

namespace WgQuic.Platform

open Net PeerRoutes

/-- A route, as the arguments of `ip route` name it. -/
structure LinuxRoute where
  ipv6 : Bool
  destination : Prefix
  device : Text
  table : Option Text
deriving DecidableEq, Repr

inductive LinuxRule where
  /-- `not fwmark mark table mark` -/
  | notMarked (ipv6 : Bool) (mark : Nat)
  /-- `table main suppress_prefixlength 0` -/
  | suppressDefault (ipv6 : Bool)
deriving DecidableEq, Repr

inductive LinuxEntry where
  | route (route : LinuxRoute)
  | rule (rule : LinuxRule)
deriving DecidableEq, Repr

inductive LinuxCommand where
  | add (entry : LinuxEntry)
  | delete (entry : LinuxEntry)
  | addressAdd (address : Prefix) (device : Text)
  | linkUp (device : Text)
  /-- `sysctl -q net.ipv4.conf.all.src_valid_mark=…` -/
  | setSrcValidMark (value : Text)
  | resolvectl (arguments : List Text)
  | resolvconf (input : Text) (arguments : List Text)
deriving DecidableEq, Repr

/-- An entry is added, and deleted to undo that. -/
def LinuxEntry.operation (entry : LinuxEntry) : HostOperation LinuxCommand :=
  { apply := .add entry, undo := .delete entry }

structure NetworkConfig where
  addresses : List Prefix := []
  table : Text := []
  fwMark : Nat := 0
  dns : List Text := []
  /-- Those of each peer. -/
  allowedIPs : List (List Prefix) := []

def NetworkConfig.automatic (cfg : NetworkConfig) : Bool :=
  cfg.table = [] ∨ equalFold cfg.table "auto"

def usesAutomaticDefaultRoute (cfg : NetworkConfig) : Bool :=
  cfg.automatic && cfg.allowedIPs.flatten.any fun owned => owned.bits = 0

section Operations

-- How the texts of two prefixes compare.
variable (textLE : Prefix → Prefix → Bool)

/-- `uniqueAllowedPrefixes`: longer prefixes first. -/
def sortedAllowedPrefixes (allowedIPs : List (List Prefix)) : List Prefix :=
  (uniqueAllowedPrefixes allowedIPs).mergeSort fun left right =>
    if left.bits ≠ right.bits then left.bits > right.bits else textLE left right

def hasIPv4AutomaticDefaultRoute (cfg : NetworkConfig) : Bool :=
  usesAutomaticDefaultRoute cfg &&
    (sortedAllowedPrefixes textLE cfg.allowedIPs).any fun owned =>
      owned.addr.is4 && owned.bits = 0

/-- The entries for one prefix; `table` is where routes go that name one. -/
def prefixEntries (name : Text) (cfg : NetworkConfig) (table : Text) (owned : Prefix) :
    List LinuxEntry :=
  let ipv6 := !owned.addr.is4
  let isDefault := owned.bits = 0
  let route : LinuxRoute :=
    { ipv6
      destination := owned
      device := name
      table := if !cfg.automatic || isDefault then some table else none }
  if cfg.automatic && isDefault then
    [.rule (.notMarked ipv6 cfg.fwMark), .rule (.suppressDefault ipv6), .route route]
  else [.route route]

def routeEntries (name : Text) (cfg : NetworkConfig) : Except RouteError (List LinuxEntry) :=
  if equalFold cfg.table "off" then .ok []
  else if cfg.automatic ∧ usesAutomaticDefaultRoute cfg ∧ cfg.fwMark = 0 then
    .error (.text "automatic default route requires an fwmark")
  else
    let table := if usesAutomaticDefaultRoute cfg then (toString cfg.fwMark).toList
      else cfg.table
    .ok ((sortedAllowedPrefixes textLE cfg.allowedIPs).flatMap (prefixEntries name cfg table))

def linuxRouteOperations (name : Text) (cfg : NetworkConfig) :
    Except RouteError (List (HostOperation LinuxCommand)) :=
  (routeEntries textLE name cfg).map fun entries => entries.map LinuxEntry.operation

/-- `NewPeerRouteManager`: each prefix is planned as if it were the only one. -/
def newPeerRouteManager (name : Text) (cfg : NetworkConfig) :
    CommandPeerRouteManager LinuxCommand :=
  { table := cfg.table
    planner := fun owned => linuxRouteOperations textLE name { cfg with allowedIPs := [[owned]] } }

end Operations

inductive HostCall where
  | run (command : LinuxCommand)
  /-- `sysctl -n net.ipv4.conf.all.src_valid_mark` -/
  | readSrcValidMark
  | lookPath (program : String)

def HostCall.Answer : HostCall → Type
  | .run _ => Except RouteError Unit
  | .readSrcValidMark => Except RouteError Text
  | .lookPath _ => Bool

abbrev HostRoutine := Program HostCall HostCall.Answer

def run (command : LinuxCommand) : HostRoutine (Except RouteError Unit) :=
  Program.ask (HostCall.run command)

def readSrcValidMark : HostRoutine (Except RouteError Text) :=
  Program.ask HostCall.readSrcValidMark

def lookPath (program : String) : HostRoutine Bool := Program.ask (HostCall.lookPath program)

/-- The undo commands so far, and the error that stopped it. -/
abbrev Configured := List LinuxCommand × Except RouteError Unit

/-- Commands that need no undoing. -/
def runEach : List LinuxCommand → HostRoutine (Except RouteError Unit)
  | [] => return .ok ()
  | command :: rest => do
      match ← run command with
      | .error err => return .error err
      | .ok () => runEach rest

def applyOperations : List (HostOperation LinuxCommand) → List LinuxCommand → HostRoutine Configured
  | [], undo => return (undo, .ok ())
  | operation :: rest, undo => do
      match ← run operation.apply with
      | .error err => return (undo, .error err)
      | .ok () => applyOperations rest (undo ++ [operation.undo])

section Configure

variable (textLE : Prefix → Prefix → Bool) (isAddress : Text → Bool)

/-- With an IPv4 default route, marked packets have to pass the reverse path filter. -/
def configureSrcValidMark (cfg : NetworkConfig) (undo : List LinuxCommand) :
    HostRoutine Configured := do
  if !hasIPv4AutomaticDefaultRoute textLE cfg then return (undo, .ok ())
  match ← readSrcValidMark with
  | .error err => return (undo, .error err)
  | .ok oldValue =>
    if Strings.trimSpace oldValue = "1".toList then return (undo, .ok ())
    match ← run (.setSrcValidMark "1".toList) with
    | .error err => return (undo, .error err)
    | .ok () => return (undo ++ [.setSrcValidMark (Strings.trimSpace oldValue)], .ok ())

def resolvectlDomains (name : Text) (domains : List Text) :
    HostRoutine (Except RouteError Unit) := do
  if domains = [] then return .ok ()
  match ← run (.resolvectl ("domain".toList :: name :: domains)) with
  | .error err =>
    let _ ← run (.resolvectl ["revert".toList, name])
    return .error err
  | .ok () => return .ok ()

/-- `ClassifyDNS` tells servers from search domains. -/
def configureLinuxDNS (name : Text) (cfg : NetworkConfig) (undo : List LinuxCommand) :
    HostRoutine Configured := do
  if cfg.dns = [] then return (undo, .ok ())
  let servers := cfg.dns.filter isAddress
  let domains := cfg.dns.filter fun value => !isAddress value
  if ← lookPath "resolvectl" then
    let commands := if servers = [] then []
      else [LinuxCommand.resolvectl ("dns".toList :: name :: servers)]
    match ← runEach commands with
    | .error err => return (undo, .error err)
    | .ok () =>
      let domains := if usesAutomaticDefaultRoute cfg then domains ++ ["~.".toList]
        else domains
      match ← resolvectlDomains name domains with
      | .error err => return (undo, .error err)
      | .ok () => return (undo ++ [.resolvectl ["revert".toList, name]], .ok ())
  else if ← lookPath "resolvconf" then
    let nameservers := servers.flatMap fun server =>
      "nameserver ".toList ++ server ++ "\n".toList
    let search := if domains = [] then []
      else "search ".toList ++ " ".toList.intercalate domains ++ "\n".toList
    match ← run (.resolvconf (nameservers ++ search)
        ["-a".toList, name, "-m".toList, "0".toList, "-x".toList]) with
    | .error err => return (undo, .error err)
    | .ok () => return (undo ++ [.resolvconf [] ["-d".toList, name, "-f".toList]], .ok ())
  else
    return (undo,
      .error (.text "DNS is configured, but neither resolvectl nor resolvconf is installed"))

def configureNetwork (name : Text) (cfg : NetworkConfig) : HostRoutine Configured := do
  match ← runEach (cfg.addresses.map (.addressAdd · name) ++ [.linkUp name]) with
  | .error err => return ([], .error err)
  | .ok () =>
    match linuxRouteOperations textLE name cfg with
    | .error err => return ([], .error err)
    | .ok operations =>
      match ← applyOperations operations [] with
      | (undo, .error err) => return (undo, .error err)
      | (undo, .ok ()) =>
        match ← configureSrcValidMark textLE cfg undo with
        | (undo, .error err) => return (undo, .error err)
        | (undo, .ok ()) => configureLinuxDNS isAddress name cfg undo

end Configure

/-- The loop of the cleanup goes on after an error. -/
def runUndo : List LinuxCommand → HostRoutine (List RouteError)
  | [] => return []
  | command :: rest => do
      match ← run command with
      | .error err => return err :: (← runUndo rest)
      | .ok () => runUndo rest

/-- The cleanup that `ConfigureNetwork` returns.  The route manager of a Linux host has
no `Cleanup` of its own, so nothing is added to it. -/
def cleanup (undo : List LinuxCommand) : HostRoutine (List RouteError) :=
  runUndo undo.reverse

end WgQuic.Platform
