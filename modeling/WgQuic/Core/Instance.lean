import WgQuic.Bind.EndpointLeases
import WgQuic.Lib.Base64

/-!
# The core

The core keeps a runtime for every peer and moves it between endpoints, one
generation after the other.  The leases of an endpoint that a peer has left stay
with it until the generation is finalized.  Peers come and go in transactions,
which also change the FEC policy of a peer under its endpoint.
-/

namespace WgQuic.Core

open WgQuic.Bind Obfs

/-! ## The WireGuard device -/

abbrev NoisePublicKey := List UInt8

instance : LawfulBEq NoisePublicKey := inferInstance

def decodePeerPublicKey (value : String) : Option NoisePublicKey :=
  (Base64.decode true value).filter fun key => key.length = 32

inductive PeerOperation where
  | add
  | update
  | remove
  | other (name : String)
deriving DecidableEq, Repr

/-- Why a change of an endpoint is refused: the generation is not the right one. -/
inductive GenerationError where
  /-- "peer endpoint generation must be greater than zero" -/
  | zero
  /-- "peer public key is not configured" -/
  | notConfigured
  /-- "stale peer endpoint generation …; active generation is …" -/
  | stale (generation active : Nat)
  /-- "peer endpoint generation … conflicts with the active endpoint" -/
  | conflict (generation : Nat)
  /-- "peer endpoint generation is …, cannot finalize generation …" -/
  | notCurrent (active generation : Nat)
  /-- "parse numeric peer endpoint" -/
  | notNumeric
deriving DecidableEq, Repr

inductive CoreError where
  | generation (cause : GenerationError)
  | bind (cause : LeaseError)
  /-- The device refuses a request, for a reason that is not modelled. -/
  | device (cause : String)
  /-- "decode peer public key" -/
  | invalidPublicKey (publicKey : String)
  /-- "valid numeric peer endpoint is required" -/
  | invalidEndpoint
  /-- "peer public key is not configured" -/
  | noSuchPeer
  /-- "peer mutation … duplicates a public key" -/
  | duplicateKey
  /-- "peer mutation … has a zero public key" -/
  | zeroKey
  /-- "peer add targets an existing public key" -/
  | addExisting
  /-- "peer update targets a missing public key" -/
  | updateMissing
  /-- "peer removal targets a missing public key" -/
  | removeMissing
  /-- "peer transaction was rolled back", of the device or of the core -/
  | rolledBack
  /-- "finalized peer transaction cannot be rolled back" -/
  | rollbackFinalized
  /-- "uncommitted peer transaction cannot be finalized" -/
  | finalizeUncommitted
  /-- "rolled-back peer transaction cannot be finalized" -/
  | finalizeRolledBack
  /-- "peer transaction ID must contain 1 to 128 safe bytes" -/
  | invalidTransactionID
  /-- "peer transaction requires at least one mutation" -/
  | noMutations
  /-- "peer transaction ID was reused with different content" -/
  | reusedTransactionID
  /-- "another peer transaction is active" -/
  | anotherActive
  /-- "peer mutation … has unsupported operation …" -/
  | unsupportedOperation (name : String)
  /-- "peer … has unsupported FEC policy …" -/
  | unsupportedPolicy (publicKey policy : String)
  /-- "derive added peer obfuscation key" -/
  | obfuscationKey (cause : String)
  /-- "peer transaction ID is unknown" -/
  | unknownTransactionID
  /-- "peer FEC policy changed after transaction preparation" -/
  | policyChanged
  /-- "active endpoint is missing its FEC policy lease" -/
  | missingPolicyLease
  /-- "peer … FEC policy changed during rollback" -/
  | policyChangedDuringRollback (publicKey : String)
  /-- "restore peer … FEC policy" -/
  | restorePolicy (publicKey : String) (cause : LeaseError)
deriving DecidableEq, Repr

/-- An error, or several that were joined; none is `nil`. -/
abbrev Errors := List CoreError

/-- Why the device refuses a request, if it does: it is closed, its peers have
changed, or what a request says about prefixes and keys is not acceptable. -/
abbrev Fault := Option String

inductive PreparedState where
  | ready
  | committed
  | rolledBack
  | finalized
deriving DecidableEq, Repr

/-- `PreparedPeerSet` of the device. -/
structure PreparedPeerSet where
  mutations : List (PeerOperation × NoisePublicKey)
  state : PreparedState := .ready

structure Device where
  peers : List NoisePublicKey

structure PeerMutation where
  operation : PeerOperation
  publicKey : String
  presharedKey : String := ""
  fecPolicy : String := ""
deriving DecidableEq, Repr

namespace Device

/-- `wgdevice.SetPeerEndpoint`: the endpoint that WireGuard sends to from now on. -/
def setPeerEndpoint (bind : EndpointBind) (publicKey : String) (endpoint : AddrPort)
    (fault : Fault) : Except CoreError (Nat × EndpointBind) :=
  match decodePeerPublicKey publicKey, fault with
  | none, _ => .error (.invalidPublicKey publicKey)
  | some _, some cause => .error (.device cause)
  | some _, none =>
    if endpoint.port = 0 then .error .invalidEndpoint
    else .ok (bind.parseEndpoint endpoint)

def clearPeerEndpoint (device : Device) (publicKey : String) (fault : Fault) :
    Except CoreError Unit :=
  match decodePeerPublicKey publicKey, fault with
  | none, _ => .error (.invalidPublicKey publicKey)
  | some _, some cause => .error (.device cause)
  | some key, none => if key ∈ device.peers then .ok () else .error .noSuchPeer

def convertMutations : List PeerMutation → Except CoreError (List (PeerOperation × NoisePublicKey))
  | [] => .ok []
  | mutation :: rest =>
    match decodePeerPublicKey mutation.publicKey, convertMutations rest with
    | none, _ => .error (.invalidPublicKey mutation.publicKey)
    | some _, .error err => .error err
    | some key, .ok converted => .ok ((mutation.operation, key) :: converted)

/-- What a mutation asks of the peers that there are. -/
def checkMutation (device : Device) : PeerOperation × NoisePublicKey → Except CoreError Unit
  | (.add, key) => if key ∈ device.peers then .error .addExisting else .ok ()
  | (.update, key) => if key ∈ device.peers then .ok () else .error .updateMissing
  | (.remove, key) => if key ∈ device.peers then .ok () else .error .removeMissing
  | (.other name, _) => .error (.unsupportedOperation name)

def preparePeerSet (device : Device) (mutations : List PeerMutation) (fault : Fault) :
    Except CoreError PreparedPeerSet :=
  match convertMutations mutations with
  | .error err => .error err
  | .ok converted =>
    let keys := converted.map Prod.snd
    if keys.any fun key => key.all (· = 0) then .error .zeroKey
    else if ¬keys.Nodup then .error .duplicateKey
    else
      match fault, converted.mapM device.checkMutation with
      | some cause, _ => .error (.device cause)
      | none, .error err => .error err
      | none, .ok _ => .ok { mutations := converted }

/-- `RemovePeer` for each mutation of one kind. -/
def removePeers (device : Device) (operation : PeerOperation)
    (mutations : List (PeerOperation × NoisePublicKey)) : Device :=
  let gone := (mutations.filter fun mutation => mutation.1 = operation).map Prod.snd
  { peers := device.peers.filter (· ∉ gone) }

def commit (device : Device) (prepared : PreparedPeerSet) (fault : Fault) :
    Except CoreError (Device × PreparedPeerSet) :=
  match prepared.state, fault with
  | .committed, _ | .finalized, _ => .ok (device, prepared)
  | .rolledBack, _ => .error .rolledBack
  | .ready, some cause => .error (.device cause)
  | .ready, none =>
    let added := (prepared.mutations.filter fun mutation => mutation.1 = .add).map Prod.snd
    .ok ({ peers := device.peers ++ added }, { prepared with state := .committed })

def rollback (device : Device) (prepared : PreparedPeerSet) (fault : Fault) :
    Except CoreError (Device × PreparedPeerSet) :=
  match prepared.state, fault with
  | .ready, _ => .ok (device, { prepared with state := .rolledBack })
  | .rolledBack, _ => .ok (device, prepared)
  | .finalized, _ => .error .rollbackFinalized
  | .committed, some cause => .error (.device cause)
  | .committed, none =>
    .ok (device.removePeers .add prepared.mutations, { prepared with state := .rolledBack })

def finalize (device : Device) (prepared : PreparedPeerSet) (fault : Fault) :
    Except CoreError (Device × PreparedPeerSet) :=
  match prepared.state, fault with
  | .finalized, _ => .ok (device, prepared)
  | .ready, _ => .error .finalizeUncommitted
  | .rolledBack, _ => .error .finalizeRolledBack
  | .committed, some cause => .error (.device cause)
  | .committed, none =>
    .ok (device.removePeers .remove prepared.mutations, { prepared with state := .finalized })

end Device

/-! ## Peers -/

structure PeerStatus where
  selectedEndpoint : Option AddrPort := none
  generation : Nat := 0
  authenticatedGeneration : Nat := 0
  authenticatedEndpoint : Option AddrPort := none
deriving DecidableEq, Repr

/-- The release functions are named by their place in the bind. -/
structure PeerEndpointResources where
  endpoint : Option AddrPort
  releaseAssociation : Option Nat
  releaseFECPolicy : Option Nat
deriving DecidableEq, Repr

structure PeerRuntime where
  status : PeerStatus := {}
  activationReceiveSequence : UInt64 := 0
  obfsKey : Option Key := none
  releaseReceiveKey : Option Nat := none
  releaseAssociation : Option Nat := none
  fecPolicy : FECPolicy
  releaseFECPolicy : Option Nat := none
  obsoleteEndpoints : List PeerEndpointResources := []
  /-- The endpoint of the bind that WireGuard was given. -/
  object : Option Nat := none

namespace PeerRuntime

def retainEndpointResources (peer : PeerRuntime) : PeerRuntime :=
  if peer.status.selectedEndpoint.isNone ∧ peer.releaseAssociation.isNone ∧
      peer.releaseFECPolicy.isNone then peer
  else
    { peer with
      obsoleteEndpoints := peer.obsoleteEndpoints ++ [
        { endpoint := peer.status.selectedEndpoint
          releaseAssociation := peer.releaseAssociation
          releaseFECPolicy := peer.releaseFECPolicy }] }

/-- The peer at its next generation. -/
def switch (peer : PeerRuntime) (endpoint : Option AddrPort) (generation : Nat)
    (association fecPolicy object : Option Nat) (sequence : UInt64) : PeerRuntime :=
  { peer.retainEndpointResources with
    releaseAssociation := association
    releaseFECPolicy := fecPolicy
    status := { selectedEndpoint := endpoint, generation }
    activationReceiveSequence := sequence
    object := object }

end PeerRuntime

structure FECChange where
  publicKey : String
  before : FECPolicy
  after : FECPolicy
deriving DecidableEq, Repr

inductive TransactionState where
  | prepared
  | committed
  | rolledBack
  | finalized
deriving DecidableEq, Repr

structure PeerTransaction where
  /-- The keyed hash of the mutations. -/
  fingerprint : Nat
  prepared : PreparedPeerSet
  mutations : List PeerMutation
  added : AList (fun _ : String => PeerRuntime) := ∅
  fecChanges : List FECChange := []
  fecApplied : Bool := false
  state : TransactionState := .prepared

structure PeerSetRequest where
  transactionID : String
  mutations : List PeerMutation
  fingerprint : Nat

def PeerSetRequest.transaction (request : PeerSetRequest) (prepared : PreparedPeerSet) :
    PeerTransaction :=
  { fingerprint := request.fingerprint, prepared, mutations := request.mutations }

/-- A call of `RetireEndpoint`: the peer that is processed, and those that have
the endpoint selected. -/
structure Retirement where
  processed : String
  endpoint : AddrPort
  selecting : List String
deriving DecidableEq, Repr

structure TransportSettings where
  /-- Whether the carrier obfuscates. -/
  obfs : Bool
  /-- `deriveTransportPeerKey` of a public key and a preshared key. -/
  derive : String → String → Except String Key

structure Instance where
  settings : TransportSettings
  bind : EndpointBind
  device : Device
  peers : AList (fun _ : String => PeerRuntime) := ∅
  peerTransactions : AList (fun _ : String => PeerTransaction) := ∅
  peerTransactionOrder : List String := []
  activePeerTransaction : String := ""
  /-- The calls of `RetireEndpoint` so far. -/
  retirements : List Retirement := []
  /-- The release functions of policy leases that were replaced. -/
  superseded : List Nat := []
  /-- The peers that another of the same name has replaced. -/
  orphans : List PeerRuntime := []

def canonicalPeerFECPolicy (policy : String) : FECPolicy :=
  if policy = "latency" then .latency
  else if policy = "throughput" then .throughput
  else .balanced

def policyText : FECPolicy → String
  | .latency => "latency"
  | .balanced => "balanced"
  | .throughput => "throughput"

structure ConfiguredPeer where
  publicKey : String
  fecPolicy : String := ""
  obfsKey : Option Key := none

namespace Instance

def releaseAssociation (i : Instance) : Option Nat → Instance
  | none => i
  | some index => { i with bind.keys := i.bind.keys.callEndpointRelease index }

def releaseFECPolicy (i : Instance) : Option Nat → Instance
  | none => i
  | some index => { i with bind.fec := i.bind.fec.callRelease index }

def releaseReceiveKey (i : Instance) : Option Nat → Instance
  | none => i
  | some index => { i with bind.keys := i.bind.keys.callReceiveRelease index }

def selecting (i : Instance) (endpoint : AddrPort) : List String :=
  i.peers.keys.filter fun publicKey =>
    (i.peers.lookup publicKey).any fun peer => peer.status.selectedEndpoint = some endpoint

def retireEndpoint (i : Instance) (processed : String) : Option AddrPort → Instance
  | none => i
  | some endpoint =>
    { i with
      bind := i.bind.retireEndpoint endpoint
      retirements := i.retirements ++ [{ processed, endpoint, selecting := i.selecting endpoint }] }

def setPeer (i : Instance) (publicKey : String) (peer : PeerRuntime) : Instance :=
  { i with peers := i.peers.insert publicKey peer }

/-! ## Endpoints -/

/-- What a change of endpoint is checked for, apart from the bind: `none` if it is
the current one. -/
def checkGeneration (i : Instance) (publicKey : String) (endpoint : Option AddrPort)
    (generation : Nat) : Except CoreError (Option PeerRuntime) :=
  if generation = 0 then .error (.generation .zero)
  else
    match i.peers.lookup publicKey with
    | none => .error (.generation .notConfigured)
    | some peer =>
      if generation < peer.status.generation then
        .error (.generation (.stale generation peer.status.generation))
      else if generation = peer.status.generation then
        if peer.status.selectedEndpoint = endpoint then .ok none
        else .error (.generation (.conflict generation))
      else .ok (some peer)

def clearPeerEndpoint (i : Instance) (publicKey : String) (generation : Nat)
    (fault : Fault) : Errors × Instance :=
  match i.checkGeneration publicKey none generation with
  | .error err => ([err], i)
  | .ok none => ([], i)
  | .ok (some peer) =>
    match i.device.clearPeerEndpoint publicKey fault with
    | .error err => ([err], i)
    | .ok () =>
      ([], i.setPeer publicKey (peer.switch none generation none none none i.bind.receiveSequence))

def acquireEndpoint (bind : EndpointBind) (peer : PeerRuntime) (endpoint : AddrPort) :
    Except CoreError (Option Nat × Nat) × EndpointBind :=
  match bind.fec.acquireEndpointFECPolicy (some endpoint) peer.fecPolicy with
  | (.error err, _) => (.error (.bind err), bind)
  | (.ok fecRelease, fec) =>
    match peer.obfsKey with
    | none => (.ok (none, fecRelease), { bind with fec })
    | some key =>
      match bind.keys.acquireEndpointKey (some endpoint) key with
      | (some err, _) =>
        (.error (.bind (.key err)), { bind with fec := fec.callRelease fecRelease })
      | (none, keys) =>
        (.ok (some bind.keys.endpointHandles.length, fecRelease), { bind with fec, keys })

def installPeerEndpoint (i : Instance) (publicKey : String) (endpoint : AddrPort)
    (generation : Nat) (fault : Fault) : Errors × Instance :=
  match i.checkGeneration publicKey (some endpoint) generation with
  | .error err => ([err], i)
  | .ok none => ([], i)
  | .ok (some peer) =>
    match acquireEndpoint i.bind peer endpoint with
    | (.error err, bind) => ([err], { i with bind })
    | (.ok (release, fecRelease), bind) =>
      match Device.setPeerEndpoint bind publicKey endpoint fault with
      | .error err =>
        ([err], ({ i with bind }.releaseAssociation release).releaseFECPolicy (some fecRelease))
      | .ok (object, bind) =>
        ([], { i with bind }.setPeer publicKey
          (peer.switch (some endpoint) generation release (some fecRelease)
            (some object) bind.receiveSequence))

/-- An endpoint that is not numeric does not parse. -/
def setPeerEndpoint (i : Instance) (publicKey : String) (endpoint : Option AddrPort)
    (generation : Nat) (fault : Fault) : Errors × Instance :=
  match endpoint with
  | none => ([.generation .notNumeric], i)
  | some endpoint =>
    if endpoint.port = 0 then ([.generation .notNumeric], i)
    else i.installPeerEndpoint publicKey (canonicalAddrPort endpoint) generation fault

/-- The loop of `finalizePeerEndpoint`. -/
def settleEndpoints (publicKey : String) (active : Option AddrPort) :
    List PeerEndpointResources → Instance → Instance
  | [], i => i
  | resource :: rest, i =>
    let i := if resource.endpoint ≠ active then
      i.retireEndpoint publicKey resource.endpoint else i
    let i := i.releaseAssociation resource.releaseAssociation
    settleEndpoints publicKey active rest (i.releaseFECPolicy resource.releaseFECPolicy)

def finalizePeerEndpoint (i : Instance) (publicKey : String) (generation : Nat) :
    Errors × Instance :=
  if generation = 0 then ([.generation .zero], i)
  else
    match i.peers.lookup publicKey with
    | none => ([.generation .notConfigured], i)
    | some peer =>
      if peer.status.generation ≠ generation then
        ([.generation (.notCurrent peer.status.generation generation)], i)
      else
        ([], (settleEndpoints publicKey peer.status.selectedEndpoint
          peer.obsoleteEndpoints i).setPeer publicKey { peer with obsoleteEndpoints := [] })

/-- A packet that WireGuard has authenticated. -/
structure AuthenticatedReceive where
  publicKey : NoisePublicKey
  endpoint : AddrPort
  receiveSequence : UInt64

/-- What becomes of the peer; its session also takes over the policy. -/
def recordAuthenticatedReceive (i : Instance) (event : AuthenticatedReceive) : Instance :=
  let publicKey := String.ofList (Base64.encode event.publicKey)
  match i.peers.lookup publicKey with
  | none => i
  | some peer =>
    if event.receiveSequence ≠ 0 ∧ peer.status.generation ≠ 0 ∧
        peer.status.selectedEndpoint = some event.endpoint ∧
        event.receiveSequence > peer.activationReceiveSequence then
      i.setPeer publicKey { peer with
        status := { peer.status with
          authenticatedGeneration := peer.status.generation
          authenticatedEndpoint := some event.endpoint } }
    else i

/-! ## Transactions -/

/-- `releasePeerRuntimeLocked` -/
def releasePeerRuntime (i : Instance) (publicKey : String) (peer : PeerRuntime) : Instance :=
  let i := i.retireEndpoint publicKey peer.status.selectedEndpoint
  let i := settleEndpoints publicKey none peer.obsoleteEndpoints i
  let i := i.releaseFECPolicy peer.releaseFECPolicy
  let i := i.releaseAssociation peer.releaseAssociation
  i.releaseReceiveKey peer.releaseReceiveKey

/-- The peers of one kind of mutation are released and deleted. -/
def dropPeers (operation : PeerOperation) : List PeerMutation → Instance → Instance
  | [], i => i
  | mutation :: rest, i =>
    if mutation.operation = operation then
      let released := match i.peers.lookup mutation.publicKey with
        | none => i
        | some peer => i.releasePeerRuntime mutation.publicKey peer
      dropPeers operation rest
        { released with peers := released.peers.erase mutation.publicKey }
    else dropPeers operation rest i

def validTransactionID (value : String) : Bool :=
  value ≠ "" ∧ value.utf8ByteSize ≤ 128 ∧
    value.toList.all fun symbol => symbol ≠ '\r' ∧ symbol ≠ '\n' ∧ symbol.toNat ≠ 0

def lookupPeerTransaction (i : Instance) (transactionID : String) :
    Except CoreError PeerTransaction :=
  if validTransactionID transactionID = false then .error .invalidTransactionID
  else
    match i.peerTransactions.lookup transactionID with
    | none => .error .unknownTransactionID
    | some transaction => .ok transaction

def setTransaction (i : Instance) (transactionID : String) (transaction : PeerTransaction) :
    Instance :=
  { i with peerTransactions := i.peerTransactions.insert transactionID transaction }

def releasePreparedAdditions (i : Instance) (transaction : PeerTransaction) : Instance :=
  transaction.added.entries.foldl (fun i entry => i.releaseReceiveKey entry.2.releaseReceiveKey) i

/-- The first loop of `preparePeerTransportKeys`. -/
def planMutation (i : Instance) (transaction : PeerTransaction) (mutation : PeerMutation) :
    Except CoreError PeerTransaction :=
  let policy := canonicalPeerFECPolicy mutation.fecPolicy
  if mutation.fecPolicy ≠ "" ∧ policyText policy ≠ mutation.fecPolicy then
    .error (.unsupportedPolicy mutation.publicKey mutation.fecPolicy)
  else
    match mutation.operation, i.peers.lookup mutation.publicKey with
    | .add, _ =>
      .ok { transaction with
        added := transaction.added.insert mutation.publicKey { fecPolicy := policy } }
    | .update, some peer =>
      if peer.fecPolicy ≠ policy then
        .ok { transaction with
          fecChanges := transaction.fecChanges ++
            [{ publicKey := mutation.publicKey, before := peer.fecPolicy, after := policy }] }
      else .ok transaction
    | _, _ => .ok transaction

/-- The second loop: the receive keys of the added peers. -/
def acquireTransportKeys : List PeerMutation → PeerTransaction → Instance →
    Errors × PeerTransaction × Instance
  | [], transaction, i => ([], transaction, i)
  | mutation :: rest, transaction, i =>
    if mutation.operation = .add then
      match i.settings.derive mutation.publicKey mutation.presharedKey,
          transaction.added.lookup mutation.publicKey with
      | .ok key, some peer =>
        acquireTransportKeys rest
          { transaction with
            added := transaction.added.insert mutation.publicKey
              { peer with
                obfsKey := some key
                releaseReceiveKey := some i.bind.keys.receiveHandles.length } }
          { i with bind.keys := i.bind.keys.acquireReceiveKey key }
      | .error cause, _ => ([.obfuscationKey cause], transaction, i)
      | .ok _, none => ([.obfuscationKey ""], transaction, i)
    else acquireTransportKeys rest transaction i

def preparePeerTransportKeys (i : Instance) (transaction : PeerTransaction) :
    Errors × PeerTransaction × Instance :=
  match transaction.mutations.foldlM i.planMutation transaction with
  | .error err => ([err], transaction, i)
  | .ok transaction =>
    if i.settings.obfs then acquireTransportKeys transaction.mutations transaction i
    else ([], transaction, i)

/-- Old transactions are forgotten, up to one that is still open. -/
def trimLoop : List String → AList (fun _ : String => PeerTransaction) →
    List String × AList (fun _ : String => PeerTransaction)
  | [], transactions => ([], transactions)
  | transactionID :: order, transactions =>
    if order.length + 1 > 256 then
      match transactions.lookup transactionID with
      | some transaction =>
        if transaction.state = .prepared ∨ transaction.state = .committed then
          (transactionID :: order, transactions)
        else trimLoop order (transactions.erase transactionID)
      | none => trimLoop order (transactions.erase transactionID)
    else (transactionID :: order, transactions)

def trimPeerTransactions (i : Instance) : Instance :=
  let (order, transactions) := trimLoop i.peerTransactionOrder i.peerTransactions
  { i with peerTransactionOrder := order, peerTransactions := transactions }

def unsupported? (mutations : List PeerMutation) : Option String :=
  mutations.findSome? fun mutation =>
    match mutation.operation with
    | .other name => some name
    | _ => none

def preparePeerSet (i : Instance) (request : PeerSetRequest) (fault : Fault) : Errors × Instance :=
  if validTransactionID request.transactionID = false then ([.invalidTransactionID], i)
  else if request.mutations = [] then ([.noMutations], i)
  else
    match i.peerTransactions.lookup request.transactionID with
    | some existing =>
      if existing.fingerprint ≠ request.fingerprint then ([.reusedTransactionID], i)
      else ([], i)
    | none =>
      if i.activePeerTransaction ≠ "" then ([.anotherActive], i)
      else
        match unsupported? request.mutations, i.device.preparePeerSet request.mutations fault with
        | some name, _ => ([.unsupportedOperation name], i)
        | none, .error err => ([err], i)
        | none, .ok prepared =>
          match i.preparePeerTransportKeys (request.transaction prepared) with
          | (err :: errs, transaction, i) =>
            (err :: errs, i.releasePreparedAdditions transaction)
          | ([], transaction, i) =>
            ([], { i.setTransaction request.transactionID transaction with
              peerTransactionOrder := i.peerTransactionOrder ++ [request.transactionID]
              activePeerTransaction := request.transactionID }.trimPeerTransactions)

/-- One peer gets another policy, together with the lease of its endpoint. -/
def changeFECPolicy (i : Instance) (publicKey : String) (peer : PeerRuntime)
    (old new : FECPolicy) : Except LeaseError Instance :=
  match peer.status.selectedEndpoint with
  | none => .ok (i.setPeer publicKey { peer with fecPolicy := new })
  | some endpoint =>
    match i.bind.fec.replaceEndpointFECPolicy (some endpoint) old new with
    | (.error err, _) => .error err
    | (.ok release, fec) =>
      .ok ({ i with
          bind.fec := fec
          superseded := i.superseded ++ peer.releaseFECPolicy.toList }.setPeer publicKey
        { peer with fecPolicy := new, releaseFECPolicy := some release })

/-- One round of the loop of `rollbackPeerFECChangesLocked`. -/
def restoreFECChange (i : Instance) (change : FECChange) : Errors × Instance :=
  match i.peers.lookup change.publicKey with
  | none => ([.policyChangedDuringRollback change.publicKey], i)
  | some peer =>
    if peer.fecPolicy ≠ change.after then
      ([.policyChangedDuringRollback change.publicKey], i)
    else
      match i.changeFECPolicy change.publicKey peer change.after change.before with
      | .error err => ([.restorePolicy change.publicKey err], i)
      | .ok i => ([], i)

/-- The changes come in the order in which they are undone. -/
def rollbackFECChanges : List FECChange → Instance → Errors × Instance
  | [], i => ([], i)
  | change :: rest, i =>
    let (errs, i) := i.restoreFECChange change
    let (later, i) := rollbackFECChanges rest i
    (errs ++ later, i)

/-- One round of the loop of `applyPeerFECChanges`. -/
def applyFECChange (i : Instance) (change : FECChange) : Except CoreError Instance :=
  match i.peers.lookup change.publicKey with
  | none => .error .policyChanged
  | some peer =>
    if peer.fecPolicy ≠ change.before then .error .policyChanged
    else if peer.status.selectedEndpoint.isSome ∧ peer.releaseFECPolicy.isNone then
      .error .missingPolicyLease
    else
      match i.changeFECPolicy change.publicKey peer change.before change.after with
      | .error err => .error (.bind err)
      | .ok i => .ok i

/-- The loop; what was applied comes last first. -/
def applyFECChanges : List FECChange → List FECChange → Instance → Errors × Instance
  | [], _, i => ([], i)
  | change :: rest, applied, i =>
    match i.applyFECChange change with
    | .ok i => applyFECChanges rest (change :: applied) i
    | .error err =>
      let (errs, i) := rollbackFECChanges applied i
      (err :: errs, i)

def applyPeerFECChanges (i : Instance) (transaction : PeerTransaction) :
    Errors × PeerTransaction × Instance :=
  if transaction.fecApplied ∨ transaction.fecChanges = [] then
    ([], { transaction with fecApplied := true }, i)
  else
    match applyFECChanges transaction.fecChanges [] i with
    | ([], i) => ([], { transaction with fecApplied := true }, i)
    | (err :: errs, i) => (err :: errs, transaction, i)

def rollbackPeerFECChanges (i : Instance) (transaction : PeerTransaction) :
    Errors × PeerTransaction × Instance :=
  if transaction.fecApplied then
    match rollbackFECChanges transaction.fecChanges.reverse i with
    | ([], i) => ([], { transaction with fecApplied := false }, i)
    | (err :: errs, i) => (err :: errs, transaction, i)
  else ([], transaction, i)

/-- The loop of `commitPeerSet`. -/
def addPeers (transaction : PeerTransaction) : List PeerMutation → Instance → Instance
  | [], i => i
  | mutation :: rest, i =>
    match mutation.operation, transaction.added.lookup mutation.publicKey with
    | .add, some peer =>
      addPeers transaction rest { i.setPeer mutation.publicKey peer with
        orphans := i.orphans ++ (i.peers.lookup mutation.publicKey).toList }
    | _, _ => addPeers transaction rest i

def commitPeerSet (i : Instance) (transactionID : String) (fault : Fault) : Errors × Instance :=
  match i.lookupPeerTransaction transactionID with
  | .error err => ([err], i)
  | .ok transaction =>
    match transaction.state with
    | .committed | .finalized => ([], i)
    | .rolledBack => ([.rolledBack], i)
    | .prepared =>
      match i.applyPeerFECChanges transaction with
      | (err :: errs, transaction, i) =>
        (err :: errs, i.setTransaction transactionID transaction)
      | ([], transaction, i) =>
        match i.device.commit transaction.prepared fault with
        | .error err =>
          let (errs, transaction, i) := i.rollbackPeerFECChanges transaction
          (err :: errs, i.setTransaction transactionID transaction)
        | .ok (device, prepared) =>
          ([], (addPeers transaction transaction.mutations
            { i with device }).setTransaction transactionID
              { transaction with prepared, state := .committed })

def deactivate (i : Instance) (transactionID : String) : Instance :=
  if i.activePeerTransaction = transactionID then { i with activePeerTransaction := "" }
  else i

def rollbackPeerSet (i : Instance) (transactionID : String) (fault : Fault) : Errors × Instance :=
  match i.lookupPeerTransaction transactionID with
  | .error err => ([err], i)
  | .ok transaction =>
    match transaction.state with
    | .rolledBack => ([], i)
    | .finalized => ([.rollbackFinalized], i)
    | .prepared | .committed =>
      match i.rollbackPeerFECChanges transaction with
      | (err :: errs, transaction, i) =>
        (err :: errs, i.setTransaction transactionID transaction)
      | ([], restored, i) =>
        match i.device.rollback restored.prepared fault with
        | .error err => ([err], i.setTransaction transactionID restored)
        | .ok (device, prepared) =>
          let i := { i with device }
          let i := if transaction.state = .committed then
            dropPeers .add transaction.mutations i
          else i.releasePreparedAdditions transaction
          ([], (i.setTransaction transactionID
            { restored with prepared, state := .rolledBack }).deactivate transactionID)

def finalizePeerSet (i : Instance) (transactionID : String) (fault : Fault) : Errors × Instance :=
  match i.lookupPeerTransaction transactionID with
  | .error err => ([err], i)
  | .ok transaction =>
    match transaction.state with
    | .finalized => ([], i)
    | .prepared => ([.finalizeUncommitted], i)
    | .rolledBack => ([.finalizeRolledBack], i)
    | .committed =>
      match i.device.finalize transaction.prepared fault with
      | .error err => ([err], i)
      | .ok (device, prepared) =>
        ([], ((dropPeers .remove transaction.mutations
          { i with device }).setTransaction transactionID
            { transaction with prepared, state := .finalized }).deactivate transactionID)

/-! ## Calls -/

def configurePeer (i : Instance) (peer : ConfiguredPeer) : Instance :=
  match peer.obfsKey with
  | none => i.setPeer peer.publicKey { fecPolicy := canonicalPeerFECPolicy peer.fecPolicy }
  | some key =>
    { i with bind.keys := i.bind.keys.acquireReceiveKey key }.setPeer peer.publicKey
      { fecPolicy := canonicalPeerFECPolicy peer.fecPolicy
        obfsKey := some key
        releaseReceiveKey := some i.bind.keys.receiveHandles.length }

/-- The core of a configuration.  `New` then sets the endpoints that are
configured, each as the first generation. -/
def newInstance (settings : TransportSettings) (config : Bind.Config)
    (configured : List ConfiguredPeer) : Instance :=
  configured.foldl configurePeer
    { settings, bind := { keys := { cfg := config } }
      device := { peers := configured.filterMap fun peer =>
        Base64.decode false peer.publicKey } }

end Instance

inductive CoreCall where
  | setPeerEndpoint (publicKey : String) (endpoint : Option AddrPort) (generation : Nat)
      (fault : Fault)
  | clearPeerEndpoint (publicKey : String) (generation : Nat) (fault : Fault)
  | finalizePeerEndpoint (publicKey : String) (generation : Nat)
  | preparePeerSet (request : PeerSetRequest) (fault : Fault)
  | commitPeerSet (transactionID : String) (fault : Fault)
  | rollbackPeerSet (transactionID : String) (fault : Fault)
  | finalizePeerSet (transactionID : String) (fault : Fault)
  | recordAuthenticatedReceive (event : Instance.AuthenticatedReceive)
  /-- A datagram comes in. -/
  | receive
  /-- WireGuard sends to an endpoint that was parsed for it. -/
  | dial (object : Nat)
  | openBind (failure : Option String) (endpoints : List (AddrPort × Key)) (leases : List Key)
  | closeBind

namespace Instance

def answer (i : Instance) : CoreCall → Errors × Instance
  | .setPeerEndpoint publicKey endpoint generation fault =>
    i.setPeerEndpoint publicKey endpoint generation fault
  | .clearPeerEndpoint publicKey generation fault =>
    i.clearPeerEndpoint publicKey generation fault
  | .finalizePeerEndpoint publicKey generation => i.finalizePeerEndpoint publicKey generation
  | .preparePeerSet request fault => i.preparePeerSet request fault
  | .commitPeerSet transactionID fault => i.commitPeerSet transactionID fault
  | .rollbackPeerSet transactionID fault => i.rollbackPeerSet transactionID fault
  | .finalizePeerSet transactionID fault => i.finalizePeerSet transactionID fault
  | .recordAuthenticatedReceive event => ([], i.recordAuthenticatedReceive event)
  | .receive => ([], { i with bind.receiveSequence := i.bind.receiveSequence + 1 })
  | .dial object => ([], { i with bind := (i.bind.sessionForEndpoint object).2 })
  | .openBind failure endpoints leases =>
    ([], { i with bind := i.bind.open_ failure endpoints leases })
  | .closeBind => ([], { i with bind := i.bind.close })

def step (i : Instance) (call : CoreCall) : Instance := (i.answer call).2

/-- The calls that a run of the core makes, when each is one that `allowed` lets
happen. -/
inductive Reaches (allowed : Instance → CoreCall → Prop) (start : Instance) : Instance → Prop where
  | refl : Reaches allowed start start
  | call {i : Instance} (reached : Reaches allowed start i) (call : CoreCall)
      (permitted : allowed i call) : Reaches allowed start (i.step call)

end Instance

end WgQuic.Core
