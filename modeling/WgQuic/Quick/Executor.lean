import WgQuic.Core.Instance
import WgQuic.Lib.Triple
import WgQuic.Reconcile.Coordinator

/-!
# The executor of a reconciliation

`Execute` drives one transaction through routes, core and endpoints.  The three
answer its calls, and may refuse them at any point; what was prepared is then
taken back, in the opposite order.
-/

namespace WgQuic.Quick

open Reconcile
open WgQuic.Configuration (Config NetPrefix Peer Text)
open WgQuic.Core (PeerOperation)

/-- `control.PeerMutation` -/
structure PeerMutation where
  operation : PeerOperation
  publicKey : Text
  presharedKey : Text
  allowedIPs : List NetPrefix
  endpoint : Text
  persistentKeepalive : UInt16
  fecPolicy : Text
deriving DecidableEq, Repr

def controlPeerMutation (operation : PeerOperation) (peer : Peer) : PeerMutation :=
  { operation
    publicKey := peer.publicKey
    presharedKey := peer.presharedKey
    allowedIPs := peer.allowedIPs
    endpoint := peer.endpoint
    persistentKeepalive := peer.persistentKeepalive
    fecPolicy := peer.fecPolicy }

/-- The loop over one list of a difference: the peers are looked up by their keys. -/
def mutationsOf (operation : PeerOperation) (kind state : String) (peers : List Peer)
    (publicKeys : List Text) : Except String (List PeerMutation) :=
  publicKeys.mapM fun publicKey =>
    match peerMap peers publicKey with
    | none =>
      .error (kind ++ " peer " ++ String.ofList publicKey ++ " is absent from " ++ state ++
        " state")
    | some peer => .ok (controlPeerMutation operation peer)

def controlPeerMutations (transaction : Transaction) : Except String (List PeerMutation) := do
  let desired := transaction.desired.peers
  let added ← mutationsOf .add "added" "desired" desired transaction.diff.added
  let updated ← mutationsOf .update "updated" "desired" desired
    (transaction.diff.updated.map PeerChange.publicKey)
  let removed ← mutationsOf .remove "removed" "current" transaction.current.peers
    transaction.diff.removed
  return added ++ updated ++ removed

/-- A call that returns an error, or `nil`.  The leases are named by the
transaction that they were given to. -/
inductive StageCall where
  | prepareRoutes (transactionID : String) (additions removals : List NetPrefix)
  | commitRemovals (transactionID : String)
  | commitAdditions (transactionID : String)
  | rollbackAdditions (transactionID : String)
  | rollbackRemovals (transactionID : String)
  | finalizeRoutes (transactionID : String)
  | preparePeerSet (transactionID : String) (mutations : List PeerMutation)
  | commitPeerSet (transactionID : String)
  | rollbackPeerSet (transactionID : String)
  | finalizePeerSet (transactionID : String)
  | commitEndpoints (transactionID : String)
  | rollbackEndpoints (transactionID : String)
  | finalizeEndpoints (transactionID : String)
deriving DecidableEq, Repr

structure CleanupJob where
  transactionID : String
  endpointsDone : Bool := false
  coreDone : Bool := false
  routesDone : Bool := false
deriving DecidableEq, Repr

structure EndpointFailure where
  message : String
  deadlineExceeded : Bool
deriving DecidableEq, Repr

/-- What `PreparePeerEndpoints` returns: a lease may come with an error. -/
structure EndpointReply where
  lease : Bool
  failure : Option EndpointFailure
deriving DecidableEq, Repr

inductive ExecutorCall where
  | setState (state : State)
  | stage (call : StageCall)
  | preparePeerEndpoints (transactionID : String) (desired : Config)
  | queueCleanup (job : CleanupJob)

/-- `none` is the error `nil`. -/
def ExecutorCall.Answer : ExecutorCall → Type
  | .setState _ => Unit
  | .stage _ => Option String
  | .preparePeerEndpoints _ _ => EndpointReply
  | .queueCleanup _ => Unit

abbrev Routine := Program ExecutorCall ExecutorCall.Answer

def setState (state : State) : Routine Unit := Program.ask (ExecutorCall.setState state)

def stage (call : StageCall) : Routine (Option String) := Program.ask (ExecutorCall.stage call)

def preparePeerEndpoints (transactionID : String) (desired : Config) : Routine EndpointReply :=
  Program.ask (ExecutorCall.preparePeerEndpoints transactionID desired)

def queueCleanup (job : CleanupJob) : Routine Unit := Program.ask (ExecutorCall.queueCleanup job)

def failedReconcile (code : String) (stage : State) (err : String) (retryable : Bool) :
    ApplyResult :=
  { state := some .rolledBack
    failure := some { code, stage, retryable, message := err } }

/-- Joined errors are written one below the other. -/
def joinErrors (errs : List String) : String := "\n".intercalate errs

def rollbackResult (code : String) (stage : State) (cause : String) (retryable : Bool)
    (rollbackErrors : List String) : ApplyResult :=
  if rollbackErrors = [] then failedReconcile code stage cause retryable
  else
    { state := some .degraded
      failure := some
        { code := "rollback_failed"
          stage := .rollingBack
          retryable := true
          degraded := true
          message := joinErrors [cause, joinErrors rollbackErrors] } }

/-- A call whose error is only kept. -/
def collect (label : String) (call : StageCall) : Routine (List String) := do
  match ← stage call with
  | none => return []
  | some err => return [label ++ ": " ++ err]

/-- A part that may not have been prepared. -/
def collectIf (prepared : Bool) (label : String) (call : StageCall) : Routine (List String) :=
  if prepared then collect label call else pure []

def rollbackPrepared (transactionID : String) (corePrepared endpointLease : Bool)
    (code : String) (stage : State) (cause : String) (retryable : Bool) :
    Routine ApplyResult := do
  let endpoints ← collectIf endpointLease "rollback peer endpoints"
    (.rollbackEndpoints transactionID)
  let core ← collectIf corePrepared "rollback core peer set" (.rollbackPeerSet transactionID)
  let routes ← collect "rollback peer route removals" (.rollbackRemovals transactionID)
  return rollbackResult code stage cause retryable (endpoints ++ core ++ routes)

/-- A route into the tunnel is restored only after the old core is active again. -/
def rollbackCommitted (transactionID : String) (endpointLease : Bool) (code : String)
    (stage : State) (cause : String) (retryable : Bool) : Routine ApplyResult := do
  let additions ← collect "rollback peer route additions" (.rollbackAdditions transactionID)
  if additions ≠ [] then
    return rollbackResult code stage cause retryable additions
  let endpoints ← collectIf endpointLease "rollback peer endpoints"
    (.rollbackEndpoints transactionID)
  let core ← collect "rollback core peer set" (.rollbackPeerSet transactionID)
  if endpoints ++ core ≠ [] then
    return rollbackResult code stage cause retryable (endpoints ++ core)
  let routes ← collect "rollback peer route removals" (.rollbackRemovals transactionID)
  return rollbackResult code stage cause retryable routes

/-- One part of a cleanup, unless it is done. -/
def finalizePart (finished : Bool) (label : String) (call : StageCall) :
    Routine (Bool × List String) := do
  if finished then return (true, [])
  let errs ← collect label call
  return (errs = [], errs)

def finalizeCleanupJob (job : CleanupJob) : Routine (CleanupJob × List String) := do
  let (endpointsDone, endpoints) ← finalizePart job.endpointsDone "finalize peer endpoints"
    (.finalizeEndpoints job.transactionID)
  let (coreDone, core) ← finalizePart job.coreDone "finalize core peer set"
    (.finalizePeerSet job.transactionID)
  let (routesDone, routes) ← finalizePart job.routesDone "finalize peer routes"
    (.finalizeRoutes job.transactionID)
  return ({ job with endpointsDone, coreDone, routesDone }, endpoints ++ core ++ routes)

def transactionIDOf (transaction : Transaction) : String :=
  transaction.epoch ++ ":" ++ transaction.requestID

/-- From the first route that is removed to the last that is added. -/
def commitStages (transactionID : String) : Routine (Option ApplyResult) := do
  if let some err ← stage (.commitRemovals transactionID) then
    return some (← rollbackPrepared transactionID true true "commit_failed" .committing err true)
  if let some err ← stage (.commitPeerSet transactionID) then
    return some (← rollbackPrepared transactionID true true "commit_failed" .committing err true)
  if let some err ← stage (.commitEndpoints transactionID) then
    return some (← rollbackCommitted transactionID true "commit_failed" .committing err true)
  if let some err ← stage (.commitAdditions transactionID) then
    return some (← rollbackCommitted transactionID true "commit_failed" .committing err true)
  return none

def finalizeStages (transactionID : String) : Routine ApplyResult := do
  setState .finalizing
  let (job, errs) ← finalizeCleanupJob { transactionID }
  if errs = [] then return { state := some .committed }
  queueCleanup job
  return {
    state := some .committed
    cleanupPending := true
    failure := some
      { code := "cleanup_pending"
        stage := .finalizing
        retryable := true
        committed := true
        message := joinErrors errs } }

/-- The transaction once the core has taken it up. -/
def switchStages (transactionID : String) (desired : Config) : Routine ApplyResult := do
  setState .switching
  let endpoints ← preparePeerEndpoints transactionID desired
  if let some failure := endpoints.failure then
    let code := if failure.deadlineExceeded then "readiness_timeout"
      else "endpoint_resolution_failed"
    return ← rollbackPrepared transactionID true endpoints.lease code .switching
      failure.message true
  setState .committing
  match ← commitStages transactionID with
  | some result => return result
  | none => finalizeStages transactionID

def execute (transaction : Transaction) : Routine ApplyResult := do
  match controlPeerMutations transaction with
  | .error err => return failedReconcile "validation_failed" .preparing err false
  | .ok mutations =>
    let transactionID := transactionIDOf transaction
    setState .preparing
    if let some err ← stage (.prepareRoutes transactionID transaction.diff.routeAdditions
        transaction.diff.routeRemovals) then
      return failedReconcile "route_lease_failed" .preparing err true
    if let some err ← stage (.preparePeerSet transactionID mutations) then
      return ← rollbackPrepared transactionID false false "peer_prepare_failed" .preparing err false
    switchStages transactionID transaction.desired

end WgQuic.Quick
