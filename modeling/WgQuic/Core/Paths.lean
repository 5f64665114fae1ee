import WgQuic.Core.Transactions

/-!
# Every call is a path

Each call of the core takes its peers through the moves one by one, so what
every move keeps holds in every run.
-/

namespace WgQuic.Core

open WgQuic.Bind Obfs

namespace Instance

variable {permits : Instance → String → AddrPort → Prop} {i after : Instance}
  {transactionID : String}

variable {publicKey : String} {fault : Fault} {errs : Errors} {transaction : PeerTransaction}

theorem clearPeerEndpoint_path (publicKey : String) (generation : Nat) (fault : Fault) :
    Path permits i (i.clearPeerEndpoint publicKey generation fault).2 := by
  unfold clearPeerEndpoint
  split
  · exact .refl
  · exact .refl
  next checked =>
  obtain ⟨found, newer⟩ := checkGeneration_ok checked
  split
  · exact .refl
  · exact .single (.clear found newer)

theorem installPeerEndpoint_path {endpoint : AddrPort} {generation : Nat}
    (permitted : (i.installPeerEndpoint publicKey endpoint generation fault).1 = [] → permits i
      publicKey endpoint) (canonical : canonicalAddrPort endpoint = endpoint) :
    Path permits i (i.installPeerEndpoint publicKey endpoint generation fault).2 := by
  unfold installPeerEndpoint at permitted ⊢
  split at permitted
  · exact .refl
  · exact .refl
  next peer checked =>
  obtain ⟨found, newer⟩ := checkGeneration_ok checked
  split at permitted
  · next acquired =>
    cases acquireEndpoint_acquires acquired with
    | refused => exact .refl
    | given leased => exact .single (.borrow (.policy leased))
  next release fecRelease bind acquired =>
  split at permitted
  · cases acquireEndpoint_acquires acquired with
    | plain keyless leased => exact .single (.borrow (.policy leased))
    | keyed hasKey leased keyed => exact .single (.borrow (.both leased keyed))
  next object later set =>
  unfold Device.setPeerEndpoint at set
  split at set
  · cases set
  · cases set
  split at set
  · cases set
  next valid =>
  have parsed : bind.parseEndpoint endpoint = (object, later) := by simpa using set
  have move := Moves.install found newer (permitted rfl) valid canonical acquired
  rw [parsed] at move
  exact .single move

theorem canonicalAddrPort_canonical (endpoint : AddrPort) :
    canonicalAddrPort (canonicalAddrPort endpoint) = canonicalAddrPort endpoint := by
  simp [canonicalAddrPort, Net.Addr.unmap_unmap]

theorem finalizePeerEndpoint_path (publicKey : String) (generation : Nat) :
    Path permits i (i.finalizePeerEndpoint publicKey generation).2 := by
  unfold finalizePeerEndpoint
  split
  · exact .refl
  split
  · exact .refl
  next found =>
  split
  · exact .refl
  · exact .single (.settle found)

theorem recordAuthenticatedReceive_path (event : AuthenticatedReceive) :
    Path permits i (i.recordAuthenticatedReceive event) := by
  unfold recordAuthenticatedReceive
  dsimp only
  split
  · exact .refl
  next found =>
  split
  · exact .single (.authenticate found)
  · exact .refl

theorem addPeers_path
    (unused : ∀ publicKey peer, transaction.added.lookup publicKey = some peer → peer.Unused)
    (mutations : List PeerMutation) : Path permits i (addPeers transaction mutations i) := by
  induction mutations generalizing i with
  | nil => exact .refl
  | cons mutation rest ih =>
    unfold addPeers
    split
    · next found => exact .trans (.single (.add (unused _ _ found))) ih
    · exact ih

theorem erase_of_absent (absent : i.peers.lookup publicKey = none) :
    i.peers.erase publicKey = i.peers := by
  apply AList.ext
  exact List.kerase_of_notMem_keys (AList.lookup_eq_none.mp absent)

theorem dropPeers_path (operation : PeerOperation) (mutations : List PeerMutation) :
    Path permits i (dropPeers operation mutations i) := by
  induction mutations generalizing i with
  | nil => exact .refl
  | cons mutation rest ih =>
    unfold dropPeers
    split
    · cases found : i.peers.lookup mutation.publicKey with
      | none =>
        change Path permits i (dropPeers operation rest
          { i with peers := i.peers.erase mutation.publicKey })
        rw [erase_of_absent found]
        exact ih
      | some peer => exact .trans (.single (.drop found)) ih
    · exact ih

/-- The transactions and the device change, but no peer. -/
theorem Quiet.of_ledger {i after : Instance} (peers : after.peers = i.peers)
    (bind : after.bind = i.bind) (retirements : after.retirements = i.retirements)
    (superseded : after.superseded = i.superseded) (orphans : after.orphans = i.orphans) :
    Path permits i after :=
  (Quiet.of_same peers bind retirements superseded orphans).path

theorem settled_path (transaction : PeerTransaction) :
    Path permits i ((i.setTransaction transactionID transaction).deactivate transactionID) := by
  unfold deactivate
  split
  · exact Quiet.of_ledger rfl rfl rfl rfl rfl
  · exact Quiet.of_ledger rfl rfl rfl rfl rfl

theorem preparePeerSet_path {request : PeerSetRequest}
    (done : i.preparePeerSet request fault = (errs, after)) : Path permits i after := by
  cases preparePeerSet_prepares done with
  | refused | repeated => exact .refl
  | failed planned => exact (failed_rekeys planned).quiet.path
  | opened valid fresh idle accepted planned =>
    exact (preparePeerTransportKeys_rekeys planned).quiet.path.trans
      (Quiet.of_ledger rfl rfl rfl rfl rfl)

theorem commitPeerSet_path (orderly : i.ledger.Orderly)
    (done : i.commitPeerSet transactionID fault = (errs, after)) : Path permits i after := by
  cases commitPeerSet_commits done with
  | refused | already => exact .refl
  | unapplied found state applied =>
    exact (applyPeerFECChanges_applies applied).retunes.path.trans
      (Quiet.of_ledger rfl rfl rfl rfl rfl)
  | reverted found state applied refused reverted =>
    exact ((applyPeerFECChanges_applies applied).retunes.path.trans
      (rollbackPeerFECChanges_applies reverted).retunes.path).trans
      (Quiet.of_ledger rfl rfl rfl rfl rfl)
  | @committed transaction changed prepared device mid found state applied accepted =>
    have wellFormed := applied_wellFormed (orderly.wellFormed _ _ found)
      (applyPeerFECChanges_applies applied).same
    have first : Path permits i mid := (applyPeerFECChanges_applies applied).retunes.path
    have second : Path permits mid { mid with device } := Quiet.of_ledger rfl rfl rfl rfl rfl
    exact ((first.trans second).trans (addPeers_path wellFormed.unused _)).trans
      (Quiet.of_ledger rfl rfl rfl rfl rfl)

theorem rollbackPeerSet_path (done : i.rollbackPeerSet transactionID fault = (errs, after)) :
    Path permits i after := by
  cases rollbackPeerSet_rollsBack done with
  | refused | already => exact .refl
  | blocked found state reverted | stuck found state reverted =>
    exact (rollbackPeerFECChanges_applies reverted).retunes.path.trans
      (Quiet.of_ledger rfl rfl rfl rfl rfl)
  | @withdrawn transaction restored prepared device mid found state reverted accepted =>
    have first : Path permits i mid := (rollbackPeerFECChanges_applies reverted).retunes.path
    have second : Path permits mid { mid with device } := Quiet.of_ledger rfl rfl rfl rfl rfl
    exact ((first.trans second).trans (releasePreparedAdditions_rekeys _ _).quiet.path).trans
      (settled_path _)
  | @undone transaction restored prepared device mid found state reverted accepted =>
    have first : Path permits i mid := (rollbackPeerFECChanges_applies reverted).retunes.path
    have second : Path permits mid { mid with device } := Quiet.of_ledger rfl rfl rfl rfl rfl
    exact ((first.trans second).trans (dropPeers_path _ _)).trans (settled_path _)

theorem finalizePeerSet_path (done : i.finalizePeerSet transactionID fault = (errs, after)) :
    Path permits i after := by
  cases finalizePeerSet_finalizes done with
  | refused | already => exact .refl
  | @finalized transaction prepared device found state accepted =>
    have first : Path permits i { i with device } := Quiet.of_ledger rfl rfl rfl rfl rfl
    exact (first.trans (dropPeers_path _ _)).trans (settled_path _)

theorem dial_quiet (object : Nat) :
    i.Quiet { i with bind := (i.bind.sessionForEndpoint object).2 } := by
  unfold EndpointBind.sessionForEndpoint
  split
  · next ep state found =>
    split
    · exact .refl i
    split
    · exact .refl i
    · refine ⟨rfl, rfl, rfl, rfl, ?_, rfl, rfl, rfl⟩
      intro endpoint other lookup
      rcases AList.lookup_insert_cases lookup with ⟨rfl, rfl⟩ | ⟨_, lookup⟩
      · exact .inr ⟨ep, found, rfl⟩
      · exact .inl lookup
  · exact .refl i

theorem openBind_quiet (failure : Option String) (endpoints : List (AddrPort × Key))
    (leases : List Key) : i.Quiet { i with bind := i.bind.open_ failure endpoints leases } := by
  have keys := ArmorBind.endpointBook_open_ (b := i.bind.keys) failure endpoints leases
  unfold EndpointBind.open_
  split
  · next opened =>
    rw [opened] at keys
    exact ⟨rfl, rfl, keys, rfl, fun _ _ lookup => by simp at lookup, rfl, rfl, rfl⟩
  · next opened =>
    rw [opened] at keys
    exact ⟨rfl, rfl, keys, rfl, fun _ _ lookup => .inl lookup, rfl, rfl, rfl⟩

theorem closeBind_quiet : i.Quiet { i with bind := i.bind.close } :=
  ⟨rfl, rfl, ArmorBind.endpointBook_close, rfl, fun _ _ lookup => by
    simp [EndpointBind.close] at lookup, rfl, rfl, rfl⟩

/-- A call that installs an endpoint installs one that `permits` lets it. -/
def Installs (permits : Instance → String → AddrPort → Prop) (i : Instance) : CoreCall → Prop
  | .setPeerEndpoint publicKey (some endpoint) generation fault =>
    (i.setPeerEndpoint publicKey (some endpoint) generation fault).1 = [] →
      permits i publicKey (canonicalAddrPort endpoint)
  | _ => True

instance [∀ i publicKey endpoint, Decidable (permits i publicKey endpoint)]
    (i : Instance) (call : CoreCall) : Decidable (Installs permits i call) := by
  unfold Installs
  split <;> infer_instance

theorem step_path (orderly : i.ledger.Orderly) (call : CoreCall)
    (permitted : Installs permits i call) : Path permits i (i.step call) := by
  cases call with
  | setPeerEndpoint publicKey endpoint generation fault =>
    cases endpoint with
    | none => exact .refl
    | some endpoint =>
      rw [step, answer, setPeerEndpoint]
      rw [Installs, setPeerEndpoint] at permitted
      split
      · exact .refl
      · next valid =>
        rw [if_neg valid] at permitted
        exact installPeerEndpoint_path permitted (canonicalAddrPort_canonical endpoint)
  | clearPeerEndpoint publicKey generation fault => exact clearPeerEndpoint_path _ _ _
  | finalizePeerEndpoint publicKey generation => exact finalizePeerEndpoint_path _ _
  | preparePeerSet request fault => exact preparePeerSet_path rfl
  | commitPeerSet transactionID fault => exact commitPeerSet_path orderly rfl
  | rollbackPeerSet transactionID fault => exact rollbackPeerSet_path rfl
  | finalizePeerSet transactionID fault => exact finalizePeerSet_path rfl
  | recordAuthenticatedReceive event => exact recordAuthenticatedReceive_path event
  | receive =>
    exact Quiet.path ⟨rfl, rfl, rfl, rfl, fun _ _ lookup => .inl lookup, rfl, rfl, rfl⟩
  | dial object => exact (dial_quiet object).path
  | openBind failure endpoints leases => exact (openBind_quiet _ _ _).path
  | closeBind => exact closeBind_quiet.path

/-- Calls that are let happen one after the other. -/
def Follows (allowed : Instance → CoreCall → Prop) : List CoreCall → Instance → Prop
  | [], _ => True
  | call :: rest, i => allowed i call ∧ Follows allowed rest (i.step call)

instance {allowed : Instance → CoreCall → Prop} [∀ i call, Decidable (allowed i call)] :
    ∀ (calls : List CoreCall) (i : Instance), Decidable (Follows allowed calls i)
  | [], _ => inferInstanceAs (Decidable True)
  | call :: rest, i =>
    have : Decidable (Follows allowed rest (i.step call)) := instDecidableFollows rest _
    inferInstanceAs (Decidable (allowed i call ∧ Follows allowed rest (i.step call)))

variable {allowed : Instance → CoreCall → Prop}

theorem Follows.reaches {start : Instance}
    {calls : List CoreCall} (follows : Follows allowed calls i)
    (reached : Reaches allowed start i) : Reaches allowed start (calls.foldl step i) := by
  induction calls generalizing i with
  | nil => exact reached
  | cons call rest ih => exact ih follows.2 (.call reached call follows.1)

theorem Path.holds {holds : Instance → Prop} (path : Path permits i after)
    (moves : ∀ i after, Moves permits i after → holds i → holds after) (starts : holds i) :
    holds after := by
  induction path with
  | refl => exact starts
  | tail _ last kept => exact moves _ _ last kept

/-- Two peers, by the texts of their keys. -/
def firstPeer : String := "AQAAAAAAAAAAAAAAAAAAAAAAAAAAAAAAAAAAAAAAAAA="

def secondPeer : String := "AgAAAAAAAAAAAAAAAAAAAAAAAAAAAAAAAAAAAAAAAAA="

/-- A core with the two, without obfuscation. -/
def pairCore : Instance :=
  newInstance { obfs := false, derive := fun _ _ => .error "" }
    { obfsMode := .none, obfsKeys := [] } [{ publicKey := firstPeer }, { publicKey := secondPeer }]

def sampleEndpoint (bits : BitVec 32) : AddrPort := ⟨.v4 bits, 1⟩

/-- What every move keeps holds in every run. -/
theorem holds_of_reaches (permits : Instance → String → AddrPort → Prop) {start : Instance}
    {holds : Instance → Prop} (orderly : start.ledger.Orderly)
    (permitted : ∀ i call, allowed i call → Installs permits i call)
    (moves : ∀ i after, Moves permits i after → holds i → holds after)
    (starts : holds start) (reached : Reaches allowed start i) : holds i := by
  induction reached with
  | refl => exact starts
  | call reached call allowedCall ih =>
    exact (step_path (orderly_of_reaches orderly reached) call
      (permitted _ _ allowedCall)).holds moves ih

end Instance

end WgQuic.Core
