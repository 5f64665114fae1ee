import WgQuic.FreeBSDRoutes.Leaser

/-!
# Gateways and recovery on FreeBSD

What `route -n get` prints is read line by line.  After a crash, `recover` asks
it about every recorded route of the interface, deletes the route if it still
goes where the record says, and drops the record.
-/

namespace WgQuic.FreeBSDRoutes

open Net
open WgQuic.Configuration (Text)
open Platform (EndpointRouteLedger EndpointRouteLedgerRecord endpointRoutePendingAdd
  endpointRoutePendingDelete)

/-- One round of the loop over the lines. -/
def readLine (gateway : Gateway) (line : Text) : Gateway :=
  match Strings.fields line with
  | name :: value :: _ =>
    if Strings.trimSuffix [':'] name = "gateway".toList then
      { gateway with address := value }
    else if Strings.trimSuffix [':'] name = "interface".toList then
      { gateway with interfaceName := value }
    else gateway
  | _ => gateway

def parseFreeBSDGateway (output : Text) : Gateway :=
  (output.splitOn '\n').foldl readLine {}

/-- What is made of the output for the default route. -/
def freeBSDDefaultGateway (ipv6 : Bool) (output : Text) : Except String Gateway :=
  let gateway := parseFreeBSDGateway output
  if gateway.address = [] ∧ gateway.interfaceName = [] then
    .error ("FreeBSD " ++ (if ipv6 then "-inet6" else "-inet") ++
      " default route has no gateway or interface")
  else .ok gateway

def loadFreeBSDEndpointRouteLedger : Routine (Except String EndpointRouteLedger) :=
  Program.ask Call.loadLedger

def queryRoute (address : Addr) : Routine (Except String Text) :=
  Program.ask (Call.queryRoute address)

/-- The query failed because there is no route. -/
def mentionsMissing (text : String) : Bool :=
  text.toList.tails.any fun rest =>
    "not in table".toList.isPrefixOf rest || "not found".toList.isPrefixOf rest

/-- `none` is a route that does not exist. -/
def inspectRoute (address : Addr) : Routine (Except String (Option Gateway)) := do
  match ← queryRoute address with
  | .error err => return if mentionsMissing err then .ok none else .error err
  | .ok output => return .ok (some (parseFreeBSDGateway output))

/-- The address of a record; in a ledger that was loaded it can be read. -/
def destination (record : EndpointRouteLedgerRecord) : Addr :=
  (parseAddr record.address).getD (.v4 0)

def identity (record : EndpointRouteLedgerRecord) : Gateway where
  address := record.gateway
  interfaceName := record.gatewayInterface

namespace Leaser

/-- An interrupted addition is left alone. -/
def retain (m : Leaser) : Leaser :=
  { m with recovery := {
      state := "degraded"
      retainedAmbiguousObjects := m.recovery.retainedAmbiguousObjects + 1
      message := "retained ambiguous FreeBSD endpoint routes left by interrupted adds" } }

/-- The loop over the records; `kept` has those that it went past. -/
def recoverRecords (m : Leaser) (kept : List EndpointRouteLedgerRecord) :
    List EndpointRouteLedgerRecord → Routine (Except String Unit × Leaser)
  | [] => return (.ok (), m)
  | record :: rest =>
    if record.interface ≠ m.name then m.recoverRecords (kept ++ [record]) rest
    else if record.state = endpointRoutePendingAdd then do
      let (saved, m) ← (m.retain.setRecords (kept ++ rest)).saveLedgerLocked
      match saved with
      | .error err => return (.error err, m)
      | .ok () => m.recoverRecords kept rest
    else do
      match ← inspectRoute (destination record) with
      | .error err =>
        return (.error ("inspect recorded FreeBSD endpoint route " ++
          String.ofList (destination record).text ++ ": " ++ err), m)
      | .ok found =>
        if found = some (identity record) then do
          let (saved, m) ← (m.setRecords
            (kept ++ { record with state := endpointRoutePendingDelete } :: rest)).saveLedgerLocked
          match saved with
          | .error err => return (.error err, m)
          | .ok () =>
            match ← execute (.delete (destination record)) with
            | .error err =>
              return (.error ("remove abandoned FreeBSD endpoint route " ++
                String.ofList (destination record).text ++ ": " ++ err), m)
            | .ok () =>
              let (saved, m) ← (m.setRecords (kept ++ rest)).saveLedgerLocked
              match saved with
              | .error err => return (.error err, m)
              | .ok () => m.recoverRecords kept rest
        else do
          let (saved, m) ← (m.setRecords (kept ++ rest)).saveLedgerLocked
          match saved with
          | .error err => return (.error err, m)
          | .ok () => m.recoverRecords kept rest

def recover (m : Leaser) : Routine (Except String Unit × Leaser) :=
  if m.journaled = false then return (.ok (), m)
  else do
    match ← loadFreeBSDEndpointRouteLedger with
    | .error err => return (.error err, m)
    | .ok ledger => recoverRecords { m with ledger } [] ledger.records

end Leaser

end WgQuic.FreeBSDRoutes
