import WgQuic.Core.Instance

/-!
# What the calls do to peers and leases

Every call moves at most one peer at a time.  A peer goes to an endpoint or
leaves it, settles what it has left behind, gets another policy, or comes and
goes as a whole.
-/

namespace WgQuic.Core

open WgQuic.Bind Obfs

/-- A peer that has no endpoint yet, and never had one. -/
structure PeerRuntime.Unused (peer : PeerRuntime) : Prop where
  status : peer.status = {}
  association : peer.releaseAssociation = none
  fecPolicy : peer.releaseFECPolicy = none
  obsolete : peer.obsoleteEndpoints = []
  object : peer.object = none

/-- What the core knows besides peers and leases. -/
structure Ledger where
  settings : TransportSettings
  device : Device
  peerTransactions : AList (fun _ : String => PeerTransaction)
  peerTransactionOrder : List String
  activePeerTransaction : String

/-- The peer apart from its policy. -/
def PeerRuntime.unleased (peer : PeerRuntime) : PeerRuntime :=
  { peer with fecPolicy := .balanced, releaseFECPolicy := none }

namespace Instance

def ledger (i : Instance) : Ledger :=
  ⟨i.settings, i.device, i.peerTransactions, i.peerTransactionOrder, i.activePeerTransaction⟩

/-- A call that no peer and no lease takes part in. -/
structure Quiet (i after : Instance) : Prop where
  peers : after.peers = i.peers
  fec : after.bind.fec = i.bind.fec
  keys : after.bind.keys.endpointBook = i.bind.keys.endpointBook
  objects : after.bind.objects = i.bind.objects
  /-- An endpoint may be registered at the first dial. -/
  endpoints : ∀ endpoint object, after.bind.endpoints.lookup endpoint = some object →
    i.bind.endpoints.lookup endpoint = some object ∨
      ∃ ep, i.bind.objects[object]? = some ep ∧ ep.addr = endpoint
  retirements : after.retirements = i.retirements
  superseded : after.superseded = i.superseded
  orphans : after.orphans = i.orphans

/-- Leases that are given back at once, for the endpoint was not installed. -/
inductive Borrows (bind : EndpointBind) : EndpointBind → Prop where
  | policy {fec : FECLeases} {endpoint : AddrPort} {policy : FECPolicy} {index : Nat}
      (acquired : bind.fec.acquireEndpointFECPolicy (some endpoint) policy = (.ok index, fec)) :
      Borrows bind { bind with fec := fec.callRelease index }
  | both {fec : FECLeases} {keys : ArmorBind} {endpoint : AddrPort} {policy : FECPolicy}
      {key : Key} {index : Nat}
      (acquired : bind.fec.acquireEndpointFECPolicy (some endpoint) policy = (.ok index, fec))
      (keyed : bind.keys.acquireEndpointKey (some endpoint) key = (none, keys)) :
      Borrows bind { bind with
        keys := keys.callEndpointRelease bind.keys.endpointHandles.length
        fec := fec.callRelease index }

/-- The peer is gone, with everything it had. -/
def withoutPeer (i : Instance) (publicKey : String) (peer : PeerRuntime) : Instance :=
  let released := i.releasePeerRuntime publicKey peer
  { released with peers := released.peers.erase publicKey }

/-- An endpoint is installed only if `permits` lets it. -/
inductive Moves (permits : Instance → String → AddrPort → Prop) : Instance → Instance → Prop where
  | quiet {i after : Instance} (quiet : i.Quiet after) : Moves permits i after
  | borrow {i : Instance} {bind : EndpointBind} (borrows : Borrows i.bind bind) :
      Moves permits i { i with bind }
  | install {i : Instance} {publicKey : String} {peer : PeerRuntime} {endpoint : AddrPort}
      {generation : Nat} {bind : EndpointBind} {release : Option Nat} {fecRelease : Nat}
      (found : i.peers.lookup publicKey = some peer)
      (newer : peer.status.generation < generation)
      (permitted : permits i publicKey endpoint)
      (valid : endpoint.port ≠ 0) (canonical : canonicalAddrPort endpoint = endpoint)
      (acquired : acquireEndpoint i.bind peer endpoint = (.ok (release, fecRelease), bind)) :
      Moves permits i ({ i with bind := (bind.parseEndpoint endpoint).2 }.setPeer publicKey
        (peer.switch (some endpoint) generation release (some fecRelease)
          (some (bind.parseEndpoint endpoint).1) (bind.parseEndpoint endpoint).2.receiveSequence))
  | clear {i : Instance} {publicKey : String} {peer : PeerRuntime} {generation : Nat}
      (found : i.peers.lookup publicKey = some peer)
      (newer : peer.status.generation < generation) :
      Moves permits i (i.setPeer publicKey
        (peer.switch none generation none none none i.bind.receiveSequence))
  | settle {i : Instance} {publicKey : String} {peer : PeerRuntime}
      (found : i.peers.lookup publicKey = some peer) :
      Moves permits i ((settleEndpoints publicKey peer.status.selectedEndpoint
        peer.obsoleteEndpoints i).setPeer publicKey { peer with obsoleteEndpoints := [] })
  | authenticate {i : Instance} {publicKey : String} {peer : PeerRuntime}
      {generation : Nat} {endpoint : Option AddrPort}
      (found : i.peers.lookup publicKey = some peer) :
      Moves permits i (i.setPeer publicKey { peer with
        status := { peer.status with
          authenticatedGeneration := generation, authenticatedEndpoint := endpoint } })
  | policy {i after : Instance} {publicKey : String} {peer : PeerRuntime} {new : FECPolicy}
      (found : i.peers.lookup publicKey = some peer)
      (changed : i.changeFECPolicy publicKey peer peer.fecPolicy new = .ok after) :
      Moves permits i after
  | add {i : Instance} {publicKey : String} {peer : PeerRuntime} (unused : peer.Unused) :
      Moves permits i { i.setPeer publicKey peer with
        orphans := i.orphans ++ (i.peers.lookup publicKey).toList }
  | drop {i : Instance} {publicKey : String} {peer : PeerRuntime}
      (found : i.peers.lookup publicKey = some peer) :
      Moves permits i (i.withoutPeer publicKey peer)

/-- Any number of moves. -/
abbrev Path (permits : Instance → String → AddrPort → Prop) : Instance → Instance → Prop :=
  Relation.ReflTransGen (Moves permits)

variable {permits : Instance → String → AddrPort → Prop} {i mid after : Instance}
  {publicKey : String} {peer : PeerRuntime}

theorem Quiet.refl (i : Instance) : i.Quiet i :=
  ⟨rfl, rfl, rfl, rfl, fun _ _ found => .inl found, rfl, rfl, rfl⟩

theorem Quiet.path (quiet : i.Quiet after) : Path permits i after := .single (.quiet quiet)

/-- Only the part of the state that no peer takes part in changes. -/
theorem Quiet.of_same {i after : Instance} (peers : after.peers = i.peers)
    (bind : after.bind = i.bind) (retirements : after.retirements = i.retirements)
    (superseded : after.superseded = i.superseded) (orphans : after.orphans = i.orphans) :
    i.Quiet after := by
  refine ⟨peers, by rw [bind], by rw [bind], by rw [bind], ?_, retirements, superseded, orphans⟩
  intro endpoint object found
  rw [bind] at found
  exact .inl found

/-- The part of the core that a release function may change. -/
structure Frame (i after : Instance) : Prop where
  peers : after.peers = i.peers
  orphans : after.orphans = i.orphans
  superseded : after.superseded = i.superseded
  sequence : after.bind.receiveSequence = i.bind.receiveSequence
  ledger : after.ledger = i.ledger

theorem Frame.refl (i : Instance) : Frame i i := ⟨rfl, rfl, rfl, rfl, rfl⟩

theorem Frame.trans (first : Frame i mid) (second : Frame mid after) : Frame i after :=
  ⟨second.peers.trans first.peers, second.orphans.trans first.orphans,
    second.superseded.trans first.superseded, second.sequence.trans first.sequence,
    second.ledger.trans first.ledger⟩

theorem retireEndpoint_frame (processed : String) (endpoint : Option AddrPort) :
    Frame i (i.retireEndpoint processed endpoint) := by
  cases endpoint with
  | none => exact .refl i
  | some endpoint =>
    refine ⟨rfl, rfl, rfl, ?_, rfl⟩
    unfold retireEndpoint EndpointBind.retireEndpoint
    dsimp only
    split
    · split <;> rfl
    · rfl

theorem releaseAssociation_frame (release : Option Nat) :
    Frame i (i.releaseAssociation release) := by
  cases release <;> exact ⟨rfl, rfl, rfl, rfl, rfl⟩

theorem releaseFECPolicy_frame (release : Option Nat) : Frame i (i.releaseFECPolicy release) := by
  cases release <;> exact ⟨rfl, rfl, rfl, rfl, rfl⟩

theorem releaseReceiveKey_frame (release : Option Nat) : Frame i (i.releaseReceiveKey release) := by
  cases release <;> exact ⟨rfl, rfl, rfl, rfl, rfl⟩

theorem settleEndpoints_frame (publicKey : String) (active : Option AddrPort)
    (resources : List PeerEndpointResources) (i : Instance) :
    Frame i (settleEndpoints publicKey active resources i) := by
  induction resources generalizing i with
  | nil => exact .refl i
  | cons resource rest ih =>
    refine .trans ?_ (ih _)
    refine .trans (.trans ?_ (releaseAssociation_frame _)) (releaseFECPolicy_frame _)
    split
    · exact retireEndpoint_frame _ _
    · exact .refl i

theorem releasePeerRuntime_frame (publicKey : String) (peer : PeerRuntime) :
    Frame i (i.releasePeerRuntime publicKey peer) :=
  ((((retireEndpoint_frame _ _).trans (settleEndpoints_frame _ _ _ _)).trans
    (releaseFECPolicy_frame _)).trans (releaseAssociation_frame _)).trans
      (releaseReceiveKey_frame _)

/-- No peer came or went, and each kept a part of what it was.  The transactions and
the device are the same. -/
structure Preserves {α : Type} (part : PeerRuntime → α) (i after : Instance) : Prop where
  orphans : after.orphans = i.orphans
  peers : ∀ publicKey, (after.peers.lookup publicKey).map part = (i.peers.lookup publicKey).map part
  ledger : after.ledger = i.ledger

section Preserves

variable {α : Type} {part : PeerRuntime → α}

theorem Preserves.trans (first : Preserves part i mid) (second : Preserves part mid after) :
    Preserves part i after :=
  ⟨second.orphans.trans first.orphans,
    fun publicKey => (second.peers publicKey).trans (first.peers publicKey),
    second.ledger.trans first.ledger⟩

theorem Frame.preserves (frame : Frame i after) : Preserves part i after :=
  ⟨frame.orphans, fun _ => by rw [frame.peers], frame.ledger⟩

theorem Preserves.lookup (preserves : Preserves part i after)
    (found : after.peers.lookup publicKey = some peer) :
    ∃ before, i.peers.lookup publicKey = some before ∧ part before = part peer := by
  have same := preserves.peers publicKey
  rw [found, Option.map_some, eq_comm, Option.map_eq_some_iff] at same
  exact same

theorem preserves_setPeer (found : i.peers.lookup publicKey = some peer) {other : PeerRuntime}
    (same : part other = part peer) : Preserves part i (i.setPeer publicKey other) := by
  refine ⟨rfl, ?_, rfl⟩
  intro name
  by_cases here : name = publicKey
  · subst here
    rw [setPeer, AList.lookup_insert, found, Option.map_some, Option.map_some, same]
  · rw [setPeer, AList.lookup_insert_ne here]

end Preserves

/-! ## Endpoints change without policies -/

theorem checkGeneration_ok {endpoint : Option AddrPort} {generation : Nat} {peer : PeerRuntime}
    (checked : i.checkGeneration publicKey endpoint generation = .ok (some peer)) :
    i.peers.lookup publicKey = some peer ∧ peer.status.generation < generation := by
  unfold checkGeneration at checked
  split at checked
  · cases checked
  split at checked
  · cases checked
  next found =>
  split at checked
  · cases checked
  next notOlder =>
  split at checked
  · split at checked <;> cases checked
  next different =>
  cases checked
  exact ⟨found, by omega⟩

inductive AcquiresEndpoint (bind : EndpointBind) (peer : PeerRuntime) (endpoint : AddrPort) :
    Except CoreError (Option Nat × Nat) → EndpointBind → Prop where
  | refused (err : CoreError) : AcquiresEndpoint bind peer endpoint (.error err) bind
  | given {err : CoreError} {fec : FECLeases} {index : Nat}
      (acquired : bind.fec.acquireEndpointFECPolicy (some endpoint) peer.fecPolicy =
        (.ok index, fec)) :
      AcquiresEndpoint bind peer endpoint (.error err)
        { bind with fec := fec.callRelease index }
  | plain {fec : FECLeases} {index : Nat} (keyless : peer.obfsKey = none)
      (acquired : bind.fec.acquireEndpointFECPolicy (some endpoint) peer.fecPolicy =
        (.ok index, fec)) :
      AcquiresEndpoint bind peer endpoint (.ok (none, index)) { bind with fec }
  | keyed {fec : FECLeases} {keys : ArmorBind} {index : Nat} {key : Key}
      (hasKey : peer.obfsKey = some key)
      (acquired : bind.fec.acquireEndpointFECPolicy (some endpoint) peer.fecPolicy =
        (.ok index, fec))
      (keyed : bind.keys.acquireEndpointKey (some endpoint) key = (none, keys)) :
      AcquiresEndpoint bind peer endpoint
        (.ok (some bind.keys.endpointHandles.length, index)) { bind with fec, keys }

theorem acquireEndpoint_acquires {bind later : EndpointBind} {peer : PeerRuntime}
    {endpoint : AddrPort} {result : Except CoreError (Option Nat × Nat)}
    (done : acquireEndpoint bind peer endpoint = (result, later)) :
    AcquiresEndpoint bind peer endpoint result later := by
  unfold acquireEndpoint at done
  split at done
  · cases done
    exact .refused _
  next acquired =>
  split at done
  · next keyless =>
    cases done
    exact .plain keyless acquired
  next key hasKey =>
  split at done
  · cases done
    exact .given acquired
  · next keyed =>
    cases done
    exact .keyed hasKey acquired keyed

theorem switch_fecPolicy (peer : PeerRuntime) (endpoint : Option AddrPort) (generation : Nat)
    (association fecPolicy object : Option Nat) (sequence : UInt64) :
    (peer.switch endpoint generation association fecPolicy object sequence).fecPolicy =
      peer.fecPolicy := by
  unfold PeerRuntime.switch PeerRuntime.retainEndpointResources
  split <;> rfl

theorem setPeerEndpoint_preserves (publicKey : String) (endpoint : Option AddrPort)
    (generation : Nat) (fault : Fault) :
    Preserves PeerRuntime.fecPolicy i
      (i.setPeerEndpoint publicKey endpoint generation fault).2 := by
  have same : ∀ bind, Preserves PeerRuntime.fecPolicy i { i with bind } :=
    fun _ => ⟨rfl, fun _ => rfl, rfl⟩
  unfold setPeerEndpoint
  split
  · exact same i.bind
  split
  · exact same i.bind
  unfold installPeerEndpoint
  split
  · exact same i.bind
  · exact same i.bind
  next checked =>
  have found := (checkGeneration_ok checked).1
  split
  · exact same _
  next release fecRelease bind _ =>
  split
  · have released := (same bind).trans (releaseAssociation_frame release).preserves
    exact released.trans (releaseFECPolicy_frame (some fecRelease)).preserves
  · next later _ =>
    exact (same later).trans (preserves_setPeer (i := { i with bind := later }) found
      (switch_fecPolicy _ _ _ _ _ _ _))

theorem clearPeerEndpoint_preserves (publicKey : String) (generation : Nat) (fault : Fault) :
    Preserves PeerRuntime.fecPolicy i (i.clearPeerEndpoint publicKey generation fault).2 := by
  unfold clearPeerEndpoint
  split
  · exact (Frame.refl i).preserves
  · exact (Frame.refl i).preserves
  next checked =>
  split
  · exact (Frame.refl i).preserves
  · exact preserves_setPeer (checkGeneration_ok checked).1 (switch_fecPolicy _ _ _ _ _ _ _)

theorem finalizePeerEndpoint_preserves {α : Type} {part : PeerRuntime → α}
    (publicKey : String) (generation : Nat)
    (keeps : ∀ peer : PeerRuntime, part { peer with obsoleteEndpoints := [] } = part peer) :
    Preserves part i (i.finalizePeerEndpoint publicKey generation).2 := by
  unfold finalizePeerEndpoint
  split
  · exact (Frame.refl i).preserves
  split
  · exact (Frame.refl i).preserves
  next peer found =>
  split
  · exact (Frame.refl i).preserves
  · have frame := settleEndpoints_frame publicKey peer.status.selectedEndpoint
      peer.obsoleteEndpoints i
    have still : (settleEndpoints publicKey peer.status.selectedEndpoint peer.obsoleteEndpoints
        i).peers.lookup publicKey = some peer := by
      rw [frame.peers]
      exact found
    exact frame.preserves.trans (preserves_setPeer still (keeps peer))

theorem recordAuthenticatedReceive_preserves (event : AuthenticatedReceive) :
    Preserves PeerRuntime.fecPolicy i (i.recordAuthenticatedReceive event) := by
  unfold recordAuthenticatedReceive
  dsimp only
  split
  · exact (Frame.refl i).preserves
  next found =>
  split
  · exact preserves_setPeer found rfl
  · exact (Frame.refl i).preserves

/-- Apart from the calls of a transaction, no call changes a policy. -/
theorem step_cases (i : Instance) (call : CoreCall) :
    Preserves PeerRuntime.fecPolicy i (i.step call) ∨
      (∃ request fault, call = .preparePeerSet request fault) ∨
      (∃ transactionID fault, call = .commitPeerSet transactionID fault) ∨
      (∃ transactionID fault, call = .rollbackPeerSet transactionID fault) ∨
      ∃ transactionID fault, call = .finalizePeerSet transactionID fault := by
  have same : ∀ bind, Preserves PeerRuntime.fecPolicy i { i with bind } :=
    fun _ => ⟨rfl, fun _ => rfl, rfl⟩
  cases call with
  | setPeerEndpoint publicKey endpoint generation fault =>
    exact .inl (setPeerEndpoint_preserves _ _ _ _)
  | clearPeerEndpoint publicKey generation fault => exact .inl (clearPeerEndpoint_preserves _ _ _)
  | finalizePeerEndpoint publicKey generation =>
    exact .inl (finalizePeerEndpoint_preserves _ _ fun _ => rfl)
  | preparePeerSet request fault => exact .inr (.inl ⟨request, fault, rfl⟩)
  | commitPeerSet transactionID fault => exact .inr (.inr (.inl ⟨transactionID, fault, rfl⟩))
  | rollbackPeerSet transactionID fault =>
    exact .inr (.inr (.inr (.inl ⟨transactionID, fault, rfl⟩)))
  | finalizePeerSet transactionID fault =>
    exact .inr (.inr (.inr (.inr ⟨transactionID, fault, rfl⟩)))
  | recordAuthenticatedReceive event => exact .inl (recordAuthenticatedReceive_preserves event)
  | receive | dial | openBind | closeBind => exact .inl (same _)

/-! ## Policies change without endpoints -/

inductive ChangesPolicy (i : Instance) (publicKey : String) (peer : PeerRuntime)
    (old new : FECPolicy) : Instance → Prop where
  | alone (unselected : peer.status.selectedEndpoint = none) :
      ChangesPolicy i publicKey peer old new
        (i.setPeer publicKey { peer with fecPolicy := new })
  | leased {endpoint : AddrPort} {release : Nat} {fec : FECLeases}
      (selected : peer.status.selectedEndpoint = some endpoint)
      (replaced : i.bind.fec.replaceEndpointFECPolicy (some endpoint) old new =
        (.ok release, fec)) :
      ChangesPolicy i publicKey peer old new
        ({ i with
            bind.fec := fec
            superseded := i.superseded ++ peer.releaseFECPolicy.toList }.setPeer publicKey
          { peer with fecPolicy := new, releaseFECPolicy := some release })

theorem changeFECPolicy_changes {old new : FECPolicy}
    (changed : i.changeFECPolicy publicKey peer old new = .ok after) :
    ChangesPolicy i publicKey peer old new after := by
  unfold changeFECPolicy at changed
  split at changed
  · next unselected =>
    cases changed
    exact .alone unselected
  next endpoint selected =>
  split at changed
  · cases changed
  · next replaced =>
    cases changed
    exact .leased selected replaced

theorem changeFECPolicy_preserves {old new : FECPolicy}
    (found : i.peers.lookup publicKey = some peer)
    (changed : i.changeFECPolicy publicKey peer old new = .ok after) :
    Preserves PeerRuntime.unleased i after := by
  have same : ∀ other : PeerRuntime, other.unleased = peer.unleased →
      Preserves PeerRuntime.unleased i (i.setPeer publicKey other) :=
    fun other same => preserves_setPeer found same
  cases changeFECPolicy_changes changed with
  | alone unselected => exact same _ rfl
  | @leased _ release _ selected _ =>
    have later := same { peer with fecPolicy := new, releaseFECPolicy := some release } rfl
    exact ⟨rfl, later.peers, rfl⟩

abbrev Retunes : Instance → Instance → Prop :=
  Relation.ReflTransGen fun i after => ∃ publicKey peer new, i.peers.lookup publicKey = some peer ∧
      i.changeFECPolicy publicKey peer peer.fecPolicy new = .ok after

theorem Retunes.path (retunes : Retunes i after) : Path permits i after := by
  induction retunes with
  | refl => exact .refl
  | tail _ last path =>
    obtain ⟨_, _, _, found, changed⟩ := last
    exact path.tail (.policy found changed)

theorem Retunes.preserves (retunes : Retunes i after) : Preserves PeerRuntime.unleased i after := by
  induction retunes with
  | refl => exact (Frame.refl i).preserves
  | tail _ last kept =>
    obtain ⟨_, _, _, found, changed⟩ := last
    exact kept.trans (changeFECPolicy_preserves found changed)

theorem restoreFECChange_retunes (change : FECChange) :
    Retunes i (i.restoreFECChange change).2 := by
  unfold restoreFECChange
  split
  · exact .refl
  next found =>
  split
  · exact .refl
  next current =>
  rw [Decidable.not_not] at current
  split
  · exact .refl
  · next changed =>
    rw [← current] at changed
    exact .single ⟨_, _, _, found, changed⟩

theorem rollbackFECChanges_retunes (changes : List FECChange) :
    Retunes i (rollbackFECChanges changes i).2 := by
  induction changes generalizing i with
  | nil => exact .refl
  | cons change rest ih => exact (restoreFECChange_retunes change).trans ih

theorem applyFECChange_retunes {change : FECChange}
    (applied : i.applyFECChange change = .ok after) : Retunes i after := by
  unfold applyFECChange at applied
  split at applied
  · cases applied
  next found =>
  split at applied
  · cases applied
  next current =>
  rw [Decidable.not_not] at current
  split at applied
  · cases applied
  split at applied
  · cases applied
  next changed =>
  cases applied
  rw [← current] at changed
  exact .single ⟨_, _, _, found, changed⟩

theorem applyFECChanges_retunes (changes applied : List FECChange) :
    Retunes i (applyFECChanges changes applied i).2 := by
  induction changes generalizing i applied with
  | nil => exact .refl
  | cons change rest ih =>
    unfold applyFECChanges
    split
    · next changed => exact (applyFECChange_retunes changed).trans (ih _)
    · exact rollbackFECChanges_retunes applied

structure Applies (i : Instance) (transaction changed : PeerTransaction)
    (after : Instance) : Prop where
  retunes : Retunes i after
  same : ∃ applied, changed = { transaction with fecApplied := applied }

variable {errs : Errors} {transaction changed planned : PeerTransaction} {fault : Fault}
  {transactionID : String}

theorem Applies.ledger (applies : Applies i transaction changed after) : after.ledger = i.ledger :=
  applies.retunes.preserves.ledger

theorem Applies.trans {restored : PeerTransaction} (first : Applies i transaction changed mid)
    (second : Applies mid changed restored after) : Applies i transaction restored after := by
  obtain ⟨retunes, applied, rfl⟩ := first
  obtain ⟨retunes', applied', rfl⟩ := second
  exact ⟨retunes.trans retunes', applied', rfl⟩

theorem applyPeerFECChanges_applies
    (done : i.applyPeerFECChanges transaction = (errs, changed, after)) :
    Applies i transaction changed after := by
  obtain ⟨rfl, rfl, rfl⟩ := by simpa only [Prod.ext_iff] using done
  unfold applyPeerFECChanges
  split
  · exact ⟨.refl, true, rfl⟩
  have retunes := applyFECChanges_retunes (i := i) transaction.fecChanges []
  split
  · next applied => rw [applied] at retunes; exact ⟨retunes, true, rfl⟩
  · next applied => rw [applied] at retunes; exact ⟨retunes, transaction.fecApplied, rfl⟩

theorem rollbackPeerFECChanges_applies
    (done : i.rollbackPeerFECChanges transaction = (errs, changed, after)) :
    Applies i transaction changed after := by
  obtain ⟨rfl, rfl, rfl⟩ := by simpa only [Prod.ext_iff] using done
  unfold rollbackPeerFECChanges
  split
  · have retunes := rollbackFECChanges_retunes (i := i) transaction.fecChanges.reverse
    split
    · next reverted => rw [reverted] at retunes; exact ⟨retunes, false, rfl⟩
    · next reverted => rw [reverted] at retunes; exact ⟨retunes, transaction.fecApplied, rfl⟩
  · exact ⟨.refl, transaction.fecApplied, rfl⟩

/-! ## Receive keys -/

/-- Receive keys come and go. -/
def Rekeys (i after : Instance) : Prop :=
  ∃ keys, keys.endpointBook = i.bind.keys.endpointBook ∧ after = { i with bind.keys := keys }

theorem Rekeys.refl (i : Instance) : Rekeys i i := ⟨_, rfl, rfl⟩

theorem Rekeys.trans (first : Rekeys i mid) (second : Rekeys mid after) : Rekeys i after := by
  obtain ⟨_, same, rfl⟩ := first
  obtain ⟨keys, later, rfl⟩ := second
  exact ⟨keys, later.trans same, rfl⟩

theorem Rekeys.quiet (rekeys : Rekeys i after) : i.Quiet after := by
  obtain ⟨_, same, rfl⟩ := rekeys
  exact ⟨rfl, rfl, same, rfl, fun _ _ found => .inl found, rfl, rfl, rfl⟩

theorem Rekeys.frame (rekeys : Rekeys i after) : Frame i after := by
  obtain ⟨_, _, rfl⟩ := rekeys
  exact ⟨rfl, rfl, rfl, rfl, rfl⟩

theorem releaseReceiveKey_rekeys (i : Instance) (release : Option Nat) :
    Rekeys i (i.releaseReceiveKey release) := by
  cases release with
  | none => exact .refl i
  | some index => exact ⟨_, ArmorBind.endpointBook_callReceiveRelease, rfl⟩

theorem releasePreparedAdditions_rekeys (i : Instance) (transaction : PeerTransaction) :
    Rekeys i (i.releasePreparedAdditions transaction) := by
  unfold releasePreparedAdditions
  induction transaction.added.entries generalizing i with
  | nil => exact .refl i
  | cons entry rest ih => exact (releaseReceiveKey_rekeys i _).trans (ih _)

theorem acquireTransportKeys_rekeys (mutations : List PeerMutation) (transaction : PeerTransaction)
    (i : Instance) : Rekeys i (acquireTransportKeys mutations transaction i).2.2 := by
  induction mutations generalizing transaction i with
  | nil => exact .refl i
  | cons mutation rest ih =>
    unfold acquireTransportKeys
    split
    · split
      · exact .trans ⟨_, ArmorBind.endpointBook_acquireReceiveKey, rfl⟩ (ih _ _)
      · exact .refl i
      · exact .refl i
    · exact ih _ _

section

variable (done : i.preparePeerTransportKeys transaction = (errs, planned, after))

include done

theorem preparePeerTransportKeys_rekeys : Rekeys i after := by
  suffices rekeys : Rekeys i (i.preparePeerTransportKeys transaction).2.2 by rwa [done] at rekeys
  unfold preparePeerTransportKeys
  split
  · exact .refl i
  split
  · exact acquireTransportKeys_rekeys _ _ _
  · exact .refl i

/-- The keys of a transaction that could not be prepared are given back. -/
theorem failed_rekeys : Rekeys i (after.releasePreparedAdditions planned) :=
  (preparePeerTransportKeys_rekeys done).trans (releasePreparedAdditions_rekeys _ _)

end

/-! ## How the calls of a transaction end -/

inductive Prepares (i : Instance) (request : PeerSetRequest) (fault : Fault) :
    Errors → Instance → Prop where
  | refused (err : CoreError) : Prepares i request fault [err] i
  | repeated {existing : PeerTransaction}
      (found : i.peerTransactions.lookup request.transactionID = some existing) :
      Prepares i request fault [] i
  | failed {prepared : PreparedPeerSet} {err : CoreError} {errs : Errors}
      {transaction : PeerTransaction} {after : Instance}
      (planned : i.preparePeerTransportKeys (request.transaction prepared) =
        (err :: errs, transaction, after)) :
      Prepares i request fault (err :: errs) (after.releasePreparedAdditions transaction)
  | opened {prepared : PreparedPeerSet} {transaction : PeerTransaction} {after : Instance}
      (valid : validTransactionID request.transactionID = true)
      (fresh : i.peerTransactions.lookup request.transactionID = none)
      (idle : i.activePeerTransaction = "")
      (accepted : i.device.preparePeerSet request.mutations fault = .ok prepared)
      (planned : i.preparePeerTransportKeys (request.transaction prepared) =
        ([], transaction, after)) :
      Prepares i request fault []
        { after.setTransaction request.transactionID transaction with
          peerTransactionOrder := after.peerTransactionOrder ++ [request.transactionID]
          activePeerTransaction := request.transactionID }.trimPeerTransactions

theorem preparePeerSet_prepares {request : PeerSetRequest}
    (done : i.preparePeerSet request fault = (errs, after)) :
    Prepares i request fault errs after := by
  obtain ⟨rfl, rfl⟩ := Prod.ext_iff.mp done
  unfold preparePeerSet
  split
  · exact .refused _
  next valid =>
  split
  · exact .refused _
  split
  · next existing found =>
    split
    · exact .refused _
    · exact .repeated found
  next fresh =>
  split
  · exact .refused _
  next idle =>
  split
  · exact .refused _
  · exact .refused _
  next prepared supported accepted =>
  split
  · next planned => exact .failed planned
  · next planned =>
    exact .opened (by simpa using valid) fresh (by simpa using idle) accepted planned

inductive Commits (i : Instance) (transactionID : String) (fault : Fault) :
    Errors → Instance → Prop where
  | refused (err : CoreError) : Commits i transactionID fault [err] i
  | already {transaction : PeerTransaction}
      (found : i.peerTransactions.lookup transactionID = some transaction)
      (state : transaction.state = .committed ∨ transaction.state = .finalized) :
      Commits i transactionID fault [] i
  | unapplied {transaction changed : PeerTransaction} {err : CoreError} {errs : Errors}
      {after : Instance}
      (found : i.peerTransactions.lookup transactionID = some transaction)
      (state : transaction.state = .prepared)
      (applied : i.applyPeerFECChanges transaction = (err :: errs, changed, after)) :
      Commits i transactionID fault (err :: errs) (after.setTransaction transactionID changed)
  | reverted {transaction changed restored : PeerTransaction} {err : CoreError}
      {errs : Errors} {mid after : Instance}
      (found : i.peerTransactions.lookup transactionID = some transaction)
      (state : transaction.state = .prepared)
      (applied : i.applyPeerFECChanges transaction = ([], changed, mid))
      (refused : mid.device.commit changed.prepared fault = .error err)
      (reverted : mid.rollbackPeerFECChanges changed = (errs, restored, after)) :
      Commits i transactionID fault (err :: errs) (after.setTransaction transactionID restored)
  | committed {transaction changed : PeerTransaction} {prepared : PreparedPeerSet}
      {device : Device} {mid : Instance}
      (found : i.peerTransactions.lookup transactionID = some transaction)
      (state : transaction.state = .prepared)
      (applied : i.applyPeerFECChanges transaction = ([], changed, mid))
      (accepted : mid.device.commit changed.prepared fault = .ok (device, prepared)) :
      Commits i transactionID fault []
        ((addPeers changed changed.mutations { mid with device }).setTransaction
          transactionID { changed with prepared, state := .committed })

theorem lookupPeerTransaction_ok {transaction : PeerTransaction}
    (found : i.lookupPeerTransaction transactionID = .ok transaction) :
    i.peerTransactions.lookup transactionID = some transaction := by
  unfold lookupPeerTransaction at found
  split at found
  · cases found
  split at found
  · cases found
  · next same => cases found; exact same

theorem commitPeerSet_commits (done : i.commitPeerSet transactionID fault = (errs, after)) :
    Commits i transactionID fault errs after := by
  obtain ⟨rfl, rfl⟩ := Prod.ext_iff.mp done
  unfold commitPeerSet
  split
  · exact .refused _
  next transaction found =>
  have found := lookupPeerTransaction_ok found
  split
  · next state => exact .already found (.inl state)
  · next state => exact .already found (.inr state)
  · exact .refused _
  next state =>
  split
  · next applied => exact .unapplied found state applied
  next applied =>
  split
  · next refused => exact .reverted found state applied refused rfl
  · next accepted => exact .committed found state applied accepted

inductive RollsBack (i : Instance) (transactionID : String) (fault : Fault) :
    Errors → Instance → Prop where
  | refused (err : CoreError) : RollsBack i transactionID fault [err] i
  | already {transaction : PeerTransaction}
      (found : i.peerTransactions.lookup transactionID = some transaction)
      (state : transaction.state = .rolledBack) : RollsBack i transactionID fault [] i
  | blocked {transaction changed : PeerTransaction} {err : CoreError} {errs : Errors}
      {after : Instance}
      (found : i.peerTransactions.lookup transactionID = some transaction)
      (state : transaction.state = .prepared ∨ transaction.state = .committed)
      (reverted : i.rollbackPeerFECChanges transaction = (err :: errs, changed, after)) :
      RollsBack i transactionID fault (err :: errs) (after.setTransaction transactionID changed)
  | stuck {transaction restored : PeerTransaction} {err : CoreError} {after : Instance}
      (found : i.peerTransactions.lookup transactionID = some transaction)
      (state : transaction.state = .prepared ∨ transaction.state = .committed)
      (reverted : i.rollbackPeerFECChanges transaction = ([], restored, after))
      (refused : after.device.rollback restored.prepared fault = .error err) :
      RollsBack i transactionID fault [err] (after.setTransaction transactionID restored)
  | withdrawn {transaction restored : PeerTransaction} {prepared : PreparedPeerSet}
      {device : Device} {after : Instance}
      (found : i.peerTransactions.lookup transactionID = some transaction)
      (state : transaction.state = .prepared)
      (reverted : i.rollbackPeerFECChanges transaction = ([], restored, after))
      (accepted : after.device.rollback restored.prepared fault = .ok (device, prepared)) :
      RollsBack i transactionID fault []
        ((({ after with device }.releasePreparedAdditions transaction).setTransaction
          transactionID { restored with prepared, state := .rolledBack }).deactivate transactionID)
  | undone {transaction restored : PeerTransaction} {prepared : PreparedPeerSet}
      {device : Device} {after : Instance}
      (found : i.peerTransactions.lookup transactionID = some transaction)
      (state : transaction.state = .committed)
      (reverted : i.rollbackPeerFECChanges transaction = ([], restored, after))
      (accepted : after.device.rollback restored.prepared fault = .ok (device, prepared)) :
      RollsBack i transactionID fault []
        (((dropPeers .add transaction.mutations { after with device }).setTransaction
          transactionID { restored with prepared, state := .rolledBack }).deactivate transactionID)

theorem rollbackPeerSet_rollsBack (done : i.rollbackPeerSet transactionID fault = (errs, after)) :
    RollsBack i transactionID fault errs after := by
  obtain ⟨rfl, rfl⟩ := Prod.ext_iff.mp done
  unfold rollbackPeerSet
  split
  · exact .refused _
  next transaction found =>
  have found := lookupPeerTransaction_ok found
  cases state : transaction.state with
  | rolledBack => exact .already found state
  | finalized => exact .refused _
  | prepared =>
    dsimp only
    split
    · next reverted => exact .blocked found (.inl state) reverted
    next reverted =>
    split
    · next refused => exact .stuck found (.inl state) reverted refused
    · next accepted => exact .withdrawn found state reverted accepted
  | committed =>
    dsimp only
    split
    · next reverted => exact .blocked found (.inr state) reverted
    next reverted =>
    split
    · next refused => exact .stuck found (.inr state) reverted refused
    · next accepted => exact .undone found state reverted accepted

inductive Finalizes (i : Instance) (transactionID : String) (fault : Fault) :
    Errors → Instance → Prop where
  | refused (err : CoreError) : Finalizes i transactionID fault [err] i
  | already {transaction : PeerTransaction}
      (found : i.peerTransactions.lookup transactionID = some transaction)
      (state : transaction.state = .finalized) : Finalizes i transactionID fault [] i
  | finalized {transaction : PeerTransaction} {prepared : PreparedPeerSet} {device : Device}
      (found : i.peerTransactions.lookup transactionID = some transaction)
      (state : transaction.state = .committed)
      (accepted : i.device.finalize transaction.prepared fault = .ok (device, prepared)) :
      Finalizes i transactionID fault []
        (((dropPeers .remove transaction.mutations { i with device }).setTransaction
          transactionID { transaction with prepared, state := .finalized }).deactivate
            transactionID)

theorem finalizePeerSet_finalizes (done : i.finalizePeerSet transactionID fault = (errs, after)) :
    Finalizes i transactionID fault errs after := by
  obtain ⟨rfl, rfl⟩ := Prod.ext_iff.mp done
  unfold finalizePeerSet
  split
  · exact .refused _
  next transaction found =>
  have found := lookupPeerTransaction_ok found
  split
  · next state => exact .already found state
  · exact .refused _
  · exact .refused _
  next state =>
  split
  · exact .refused _
  · next accepted => exact .finalized found state accepted

end Instance

end WgQuic.Core
