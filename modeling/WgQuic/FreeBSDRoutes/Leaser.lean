import Mathlib.Data.List.AList
import WgQuic.Lib.Scheduler
import WgQuic.Platform.RouteState

/-!
# Endpoint route leases on FreeBSD

One leaser keeps host routes to the endpoints of a tunnel.  Leases of one
address share a route, which is added with the first and deleted with the last
of them; a ledger is saved before and after every change.  All of an operation
happens under the leaser's mutex, so operations run one after the other.
-/

namespace WgQuic.FreeBSDRoutes

open Net
open WgQuic.Configuration (Text)
open Platform (EndpointRouteLedger EndpointRouteLedgerRecord validateEndpointRouteLedger
  endpointRouteLedgerSchemaVersion endpointRoutePendingAdd endpointRouteActive
  endpointRoutePendingDelete)

/-- `freeBSDGateway`, in the words of `route`; what is missing is the empty text. -/
structure Gateway where
  address : Text := []
  interfaceName : Text := []
deriving DecidableEq, Repr

/-- The two commands of `freeBSDHostRouteCommands`.  An added route goes
through the gateway's address or, without one, through its interface. -/
inductive RouteCommand where
  | add (address : Addr) (gateway : Gateway)
  | delete (address : Addr)
deriving DecidableEq, Repr

/-- What an operation asks of its surroundings. -/
inductive Call where
  | defaultGateway (ipv6 : Bool)
  | writeLedger (ledger : EndpointRouteLedger)
  | execute (command : RouteCommand)
  | loadLedger
  /-- `route -n get` for an address -/
  | queryRoute (address : Addr)

/-- A failure is its text, in lower case. -/
def Call.Answer : Call → Type
  | .defaultGateway _ => Except String Gateway
  | .writeLedger _ => Except String Unit
  | .execute _ => Except String Unit
  | .loadLedger => Except String EndpointRouteLedger
  | .queryRoute _ => Except String Text

abbrev Routine := Program Call Call.Answer

def getDefaultGateway (ipv6 : Bool) : Routine (Except String Gateway) :=
  Program.ask (Call.defaultGateway ipv6)

def writeFreeBSDEndpointRouteLedger (ledger : EndpointRouteLedger) : Routine (Except String Unit) :=
  Program.ask (Call.writeLedger ledger)

def execute (command : RouteCommand) : Routine (Except String Unit) :=
  Program.ask (Call.execute command)

/-- The command failed because there is a route already. -/
def mentionsExist (text : String) : Bool :=
  text.toList.tails.any fun rest => "exist".toList.isPrefixOf rest

structure Entry where
  refs : Nat
  managed : Bool
  undo : RouteCommand
  deleted : Bool := false
deriving DecidableEq, Repr

structure RecoveryStatus where
  state : String := ""
  retainedAmbiguousObjects : Nat := 0
  message : String := ""
deriving DecidableEq, Repr

structure Leaser where
  need4 : Bool
  need6 : Bool
  closed : Bool := false
  entries : AList (fun _ : Addr => Entry) := ∅
  name : Text
  /-- There is a ledger path. -/
  journaled : Bool
  ledger : EndpointRouteLedger := {}
  recovery : RecoveryStatus := {}

namespace Leaser

def saveLedgerLocked (m : Leaser) : Routine (Except String Unit × Leaser) :=
  if m.journaled = false then return (.ok (), m)
  else do
    let m := { m with ledger := { m.ledger with
      schemaVersion := endpointRouteLedgerSchemaVersion
      generation := (m.ledger.generation + 1) % 2 ^ 64 } }
    match validateEndpointRouteLedger m.ledger with
    | some err => return (.error err, m)
    | none =>
      let saved ← writeFreeBSDEndpointRouteLedger m.ledger
      return (saved, m)

def ledgerRecordIndexLocked (m : Leaser) (address : Addr) : Option Nat :=
  m.ledger.records.findIdx? fun record =>
    record.interface = m.name ∧ record.address = address.text

def setRecords (m : Leaser) (records : List EndpointRouteLedgerRecord) : Leaser :=
  { m with ledger := { m.ledger with records } }

def setState (m : Leaser) (index : Nat) (state : Text) : Leaser :=
  m.setRecords (m.ledger.records.modify index fun record =>
    { record with state })

def removeLedgerRecordLocked (m : Leaser) (address : Addr) :
    Routine (Except String Unit × Leaser) :=
  if m.journaled = false then return (.ok (), m)
  else
    match m.ledgerRecordIndexLocked address with
    | some index =>
      (m.setRecords (m.ledger.records.eraseIdx index)).saveLedgerLocked
    | none => m.saveLedgerLocked

/-- What `AcquireEndpointRoute` returns. -/
inductive Acquired where
  | failed (err : String)
  /-- `noopEndpointRouteLease`: the family is not routed into the tunnel. -/
  | noop
  | lease (address : Addr)
deriving DecidableEq, Repr

def enter (m : Leaser) (address : Addr) (entry : Entry) : Leaser :=
  { m with entries := m.entries.insert address entry }

/-- The ledger record of a route that is about to be added. -/
def pendingRecord (m : Leaser) (address : Addr) (gateway : Gateway) : EndpointRouteLedgerRecord :=
  { interface := m.name, address := address.text, gateway := gateway.address
    gatewayInterface := gateway.interfaceName, state := endpointRoutePendingAdd }

/-- The first save of an acquisition, taken back when it fails. -/
def journalAdd (m : Leaser) (address : Addr) (gateway : Gateway) :
    Routine (Except String Unit × Leaser) :=
  if m.journaled = false then return (.ok (), m)
  else do
    let (saved, m) ← (m.setRecords
      (m.ledger.records ++ [m.pendingRecord address gateway])).saveLedgerLocked
    match saved with
    | .error err =>
      return (.error err, m.setRecords m.ledger.records.dropLast)
    | .ok () => return (.ok (), m)

/-- The route exists already: it is borrowed, but never deleted. -/
def borrow (m : Leaser) (address : Addr) (undo : RouteCommand) : Routine (Acquired × Leaser) := do
  let (removed, m) ← m.removeLedgerRecordLocked address
  match removed with
  | .error err => return (.failed err, m)
  | .ok () =>
    return (.lease address, m.enter address { refs := 1, managed := false, undo })

/-- The record was appended by the same acquisition. -/
def markActive (m : Leaser) (address : Addr) : Leaser :=
  match m.ledgerRecordIndexLocked address with
  | some index => m.setState index endpointRouteActive
  | none => m

/-- The second save of an acquisition, after the route was added. -/
def confirm (m : Leaser) (address : Addr) (undo : RouteCommand) : Routine (Acquired × Leaser) :=
  if m.journaled = false then
    return (.lease address, m.enter address { refs := 1, managed := true, undo })
  else do
    let (saved, m) ← (m.markActive address).saveLedgerLocked
    match saved with
    | .ok () =>
      return (.lease address, m.enter address { refs := 1, managed := true, undo })
    | .error err =>
      match ← execute undo with
      | .error undoErr =>
        return (.failed (err ++ "\n" ++ "undo unjournaled endpoint route: " ++ undoErr), m)
      | .ok () =>
        let (_, m) ← m.removeLedgerRecordLocked address
        return (.failed err, m)

/-- The rest of an acquisition that finds no entry. -/
def addRoute (m : Leaser) (address : Addr) : Routine (Acquired × Leaser) := do
  match ← getDefaultGateway !address.is4 with
  | .error err => return (.failed err, m)
  | .ok gateway =>
    let undo := RouteCommand.delete address
    let (saved, m) ← m.journalAdd address gateway
    match saved with
    | .error err => return (.failed err, m)
    | .ok () =>
      match ← execute (.add address gateway) with
      | .ok () => m.confirm address undo
      | .error err =>
        if mentionsExist err then m.borrow address undo
        else do
          let (_, m) ← m.removeLedgerRecordLocked address
          return (.failed err, m)

/-- `AcquireEndpointRoute`; `none` is the invalid address. -/
def acquireEndpointRoute (m : Leaser) (address : Option Addr) : Routine (Acquired × Leaser) :=
  match address.map Addr.unmap with
  | none => return (.failed "endpoint address is required", m)
  | some address =>
    if (address.is4 ∧ ¬m.need4) ∨ (¬address.is4 ∧ ¬m.need6) then
      return (.noop, m)
    else if m.closed then
      return (.failed "FreeBSD endpoint route leaser is closed", m)
    else
      match m.entries.lookup address with
      | some entry =>
        return (.lease address, m.enter address { entry with refs := entry.refs + 1 })
      | none => m.addRoute address

def drop (m : Leaser) (address : Addr) : Leaser :=
  { m with entries := m.entries.erase address }

/-- The end of a release, once the route is gone. -/
def forget (m : Leaser) (address : Addr) : Routine (Except String Unit × Leaser) := do
  let (removed, m) ← m.removeLedgerRecordLocked address
  match removed with
  | .error err => return (.error err, m)
  | .ok () => return (.ok (), m.drop address)

/-- The first save of a release. -/
def journalDelete (m : Leaser) (address : Addr) : Routine (Except String Unit × Leaser) :=
  if m.journaled = false then return (.ok (), m)
  else
    match m.ledgerRecordIndexLocked address with
    | none =>
      return (.error "managed FreeBSD endpoint route is missing from its ledger", m)
    | some index => (m.setState index endpointRoutePendingDelete).saveLedgerLocked

/-- The last release of a managed route. -/
def deleteRoute (m : Leaser) (address : Addr) (entry : Entry) :
    Routine (Except String Unit × Leaser) := do
  let (saved, m) ← m.journalDelete address
  match saved with
  | .error err => return (.error err, m)
  | .ok () =>
    match ← execute entry.undo with
    | .error err => return (.error err, m)
    | .ok () =>
      (m.enter address { entry with deleted := true }).forget address

def release (m : Leaser) (address : Addr) : Routine (Except String Unit × Leaser) :=
  match m.entries.lookup address with
  | none => return (.ok (), m)
  | some entry =>
    if entry.refs > 1 then
      return (.ok (), m.enter address { entry with refs := entry.refs - 1 })
    else if entry.managed = false then return (.ok (), m.drop address)
    else if entry.deleted then m.forget address
    else m.deleteRoute address entry

end Leaser

/-- A lease that was returned.  `attempted` tells whether its `Release` has ever
been called. -/
structure Lease where
  address : Addr
  released : Bool := false
  attempted : Bool := false
deriving DecidableEq, Repr

structure World where
  /-- The addresses with a host route. -/
  routes : Addr → Bool
  saved : Option EndpointRouteLedger
  leaser : Leaser
  leases : List Lease

def World.setRoute (world : World) (address : Addr) (present : Bool) : World :=
  { world with routes := Function.update world.routes address present }

def RouteCommand.apply (world : World) : RouteCommand → World
  | .add address _ => world.setRoute address true
  | .delete address => world.setRoute address false

/-- How an answer turns out.  A failing call may have had its effect. -/
inductive Choice where
  | succeed
  | gateway (gateway : Gateway)
  | fail (text : String) (tookEffect : Bool)

def World.write (world : World) (ledger : EndpointRouteLedger) : World :=
  { world with saved := if ledger.records = [] then none else some ledger }

def respond (world : World) : (request : Call) → Choice → Option (request.Answer × World)
  | .defaultGateway _, .gateway gateway => some (Except.ok gateway, world)
  | .defaultGateway _, .fail text _ => some (Except.error text, world)
  | .writeLedger ledger, .succeed => some (Except.ok (), world.write ledger)
  | .writeLedger ledger, .fail text tookEffect =>
    some (Except.error text, if tookEffect then world.write ledger else world)
  | .execute command, .succeed => some (Except.ok (), command.apply world)
  | .execute command, .fail text tookEffect =>
    some (Except.error text, if tookEffect then command.apply world else world)
  | _, _ => none

inductive Operation where
  | acquire (address : Option Addr)
  | release (lease : Nat)
deriving DecidableEq, Repr

inductive Result where
  | acquired (outcome : Leaser.Acquired) (leaser : Leaser)
  | released (outcome : Except String Unit) (leaser : Leaser)
  /-- `Release` of a lease that was released before. -/
  | alreadyReleased

def World.program (world : World) : Operation → Option (Routine Result)
  | .acquire address => some do
      let (outcome, leaser) ← world.leaser.acquireEndpointRoute address
      return .acquired outcome leaser
  | .release index =>
    (world.leases[index]?).map fun lease =>
      if lease.released then return .alreadyReleased
      else do
        let (outcome, leaser) ← world.leaser.release lease.address
        return .released outcome leaser

def World.start (world : World) : Operation → World
  | .acquire _ => world
  | .release index =>
    { world with leases := world.leases.modify index fun lease =>
        { lease with attempted := true } }

def World.finish (world : World) : Operation → Result → World
  | .acquire _, .acquired (.lease address) leaser =>
    { world with leaser, leases := world.leases ++ [{ address }] }
  | .acquire _, .acquired _ leaser => { world with leaser }
  | .release index, .released (.ok ()) leaser =>
    { world with
      leaser
      leases := world.leases.modify index fun lease =>
        { lease with released := true } }
  | .release _, .released (.error _) leaser => { world with leaser }
  | _, _ => world

/-- Nothing but the operations changes routes, and no process dies. -/
def system : Scheduler Call Call.Answer World Operation Result Choice Empty where
  start world operation :=
    (world.program operation).map fun program =>
      (world.start operation, program)
  respond := respond
  finish := World.finish
  crash _ _ := none
  happen _ _ := nofun

abbrev SystemState :=
  Scheduler.State Call Call.Answer World Operation Result

abbrev SystemCondition :=
  Scheduler.Condition Call Call.Answer World Operation Empty

def initial (routes : Addr → Bool) (saved : Option EndpointRouteLedger) (need4 need6 : Bool)
    (name : Text) (journaled : Bool) (ledger : EndpointRouteLedger) : SystemState :=
  ⟨{ routes, saved, leases := []
     leaser := { need4, need6, name, journaled, ledger } }, none⟩

end WgQuic.FreeBSDRoutes
