import WgQuic.Core.PeerNames

/-!
# The bind counts the holders

In the books of the bind an endpoint has one reference for every peer that is at
it, and for every time that a peer has left it without settling.
-/

namespace WgQuic.Core

open WgQuic.Bind Obfs PeerRuntime

/-- The endpoints that a peer holds under a key. -/
def PeerRuntime.keyedEndpoints (key : Key) (peer : PeerRuntime) : List AddrPort :=
  if peer.obfsKey = some key then peer.endpointsHeld else []

section Counting

variable {bind : EndpointBind} {peer : PeerRuntime}

theorem Holds.count_endpoints (holds : Holds bind peer) (endpoint : AddrPort) :
    peer.fecFunctions.countP (bind.fec.book.isFor endpoint) =
      peer.endpointsHeld.countP (· == endpoint) := by
  rw [fecFunctions, endpointsHeld, List.countP_filterMap, List.countP_filterMap]
  refine List.countP_congr ?_
  intro resource listed
  cases holds.keeps resource listed with
  | nothing => rfl
  | plain _ placed | keyed _ placed => simp [LeaseBook.isFor_of_place placed]

theorem Holds.count_keyed (holds : Holds bind peer) (endpoint : AddrPort) (key : Key) :
    (peer.keyFunctions.countP fun index =>
      decide (bind.keys.endpointBook.place index = some (endpoint, key))) =
      (peer.keyedEndpoints key).countP (· == endpoint) := by
  unfold keyedEndpoints
  split
  · next hasKey =>
    rw [keyFunctions, endpointsHeld, List.countP_filterMap, List.countP_filterMap]
    refine List.countP_congr ?_
    intro resource listed
    cases holds.keeps resource listed with
    | nothing => rfl
    | plain keyless _ => rw [hasKey] at keyless; cases keyless
    | keyed known _ associated =>
      rw [hasKey] at known
      cases known
      simp [associated]
  next otherKey =>
  rw [List.countP_nil, List.countP_eq_zero]
  intro index listed
  rw [keyFunctions, List.mem_filterMap] at listed
  obtain ⟨resource, listed, function⟩ := listed
  rw [decide_eq_true_iff]
  intro placed
  cases holds.keeps resource listed with
  | nothing | plain => cases function
  | keyed known _ associated =>
    cases function
    rw [placed] at associated
    cases associated
    exact otherKey known

end Counting

namespace Instance

variable {i : Instance}

/-- The books of the bind agree with what the peers hold. -/
structure Matched (i : Instance) : Prop where
  refs : ∀ endpoint, i.bind.fec.book.refs endpoint = (i.peers.gather endpointsHeld).count endpoint
  /-- Every holder has a function that was not called yet, and the policy that is
  stored for the endpoint. -/
  holders : ∀ publicKey peer, i.peers.lookup publicKey = some peer →
    ∀ resource ∈ peer.resources, ∀ endpoint, resource.endpoint = some endpoint →
    ∃ function policy refs, resource.releaseFECPolicy = some function ∧
      i.bind.fec.book.handle function = some { resource := endpoint, tag := policy } ∧
      i.bind.fec.book.lease endpoint = some (policy, refs)
  selected : ∀ publicKey peer endpoint, i.peers.lookup publicKey = some peer →
    peer.status.selectedEndpoint = some endpoint →
    ∃ refs, i.bind.fec.book.lease endpoint = some (peer.fecPolicy, refs)
  keyRefs : ∀ endpoint key, i.bind.keys.endpointBook.refsFor endpoint key =
    (i.peers.gather (keyedEndpoints key)).count endpoint
  keyHolders : ∀ publicKey peer key, i.peers.lookup publicKey = some peer →
    peer.obfsKey = some key →
    ∀ resource ∈ peer.resources, ∀ endpoint, resource.endpoint = some endpoint →
    ∃ association, resource.releaseAssociation = some association ∧
      i.bind.keys.endpointBook.handle association = some { resource := endpoint, tag := key }
  /-- The function of a lease that was replaced was never called. -/
  superseded : ∀ function ∈ i.superseded, ∃ handle,
    i.bind.fec.book.handle function = some handle ∧ handle.released = false

theorem held_of_no_orphans {α : Type} (none : i.orphans = []) (part : PeerRuntime → List α) :
    i.held part = i.peers.gather part := by
  rw [held, none, List.flatMap_nil, List.append_nil]

/-- A function that is held was handed out for its place, and is still open. -/
theorem handle_of_held {R T : Type} [DecidableEq R] {book : LeaseBook R T} {held : List Nat}
    {function : Nat} {resource : R} {tag : T} (balanced : book.Balanced held)
    (listed : function ∈ held) (placed : book.place function = some (resource, tag)) :
    book.handle function = some { resource, tag } := by
  obtain ⟨⟨_, _, _⟩, found, unreleased, _⟩ := balanced.agrees function listed
  rw [LeaseBook.place, found] at placed
  cases placed
  dsimp only at unreleased
  rw [found, unreleased]

theorem Accounted.matched (accounted : i.Accounted) (none : i.orphans = []) : i.Matched := by
  have ⟨fec, keys, holds, superseded⟩ := accounted
  refine ⟨?_, ?_, ?_, ?_, ?_, fun function listed => (superseded function listed).2⟩
  · intro endpoint
    rw [fec.counts, held_of_no_orphans none]
    exact AList.countP_gather_congr fun publicKey peer found =>
      (holds publicKey peer found).count_endpoints endpoint
  · intro publicKey peer found resource listed endpoint isEndpoint
    have keeps := (holds publicKey peer found).keeps resource listed
    have leased : ∀ {function policy}, i.bind.fec.book.place function = some (endpoint, policy) →
        resource.releaseFECPolicy = some function →
        ∃ function policy refs, resource.releaseFECPolicy = some function ∧
          i.bind.fec.book.handle function = some { resource := endpoint, tag := policy } ∧
          i.bind.fec.book.lease endpoint = some (policy, refs) := by
      intro function policy placed has
      have member := mem_held found listed has
      exact ⟨function, policy, _, has, handle_of_held fec member placed,
        fec.lease_of_place member placed⟩
    cases keeps with
    | nothing => cases isEndpoint
    | plain _ placed | keyed _ placed => cases isEndpoint; exact leased placed rfl
  · intro publicKey peer endpoint found chosen
    exact ⟨_, accounted.lease_of_selected found chosen⟩
  · intro endpoint key
    rw [keys.refsFor, held_of_no_orphans none]
    exact AList.countP_gather_congr fun publicKey peer found =>
      (holds publicKey peer found).count_keyed endpoint key
  · intro publicKey peer key found hasKey resource listed endpoint isEndpoint
    cases (holds publicKey peer found).keeps resource listed with
    | nothing => cases isEndpoint
    | plain keyless _ => rw [hasKey] at keyless; cases keyless
    | @keyed _ _ association _ known same _ associated =>
      cases isEndpoint
      rw [hasKey] at same
      cases same
      exact ⟨association, rfl, handle_of_held keys (mem_held found listed rfl) associated⟩

/-- In every run in which no key is written with a line break. -/
theorem leases_match_holders {settings : TransportSettings} {config : Bind.Config}
    {configured : List ConfiguredPeer} (plain : ∀ peer ∈ configured, Plain peer.publicKey)
    (reached : Reaches PlainKeys (newInstance settings config configured) i) : i.Matched :=
  (accounted_of_reaches reached).matched (aligned_of_reaches plain reached).orphans

/-- The peer is removed by a text that the device reads as its key, and added once
more by its own. -/
def readdition : List CoreCall := [.setPeerEndpoint firstPeer (some (sampleEndpoint 1)) 1 none,
  .preparePeerSet ⟨"remove", [{ operation := .remove, publicKey := firstPeer ++ "\n" }], 1⟩ none,
  .commitPeerSet "remove" none, .finalizePeerSet "remove" none,
  .preparePeerSet ⟨"add", [{ operation := .add, publicKey := firstPeer }], 2⟩ none,
  .commitPeerSet "add" none]

/-- The endpoint keeps a reference that no peer has any more. -/
theorem lease_without_holder : ∃ i, Reaches (fun _ _ => True) pairCore i ∧ ¬i.Matched := by
  refine ⟨readdition.foldl step pairCore, Follows.reaches (by decide +kernel) .refl, ?_⟩
  intro matched
  have counted := matched.refs (sampleEndpoint 1)
  cases counted

/-- The peer moves to an endpoint, changes its policy there, and moves on. -/
def migration : List CoreCall := [.setPeerEndpoint firstPeer (some (sampleEndpoint 1)) 1 none,
  .preparePeerSet ⟨"update",
    [{ operation := .update, publicKey := firstPeer, fecPolicy := "latency" }], 1⟩ none,
  .commitPeerSet "update" none, .finalizePeerSet "update" none,
  .setPeerEndpoint firstPeer (some (sampleEndpoint 2)) 2 none]

theorem migration_matched : (migration.foldl step pairCore).superseded = [0] ∧
      (migration.foldl step pairCore).bind.fec.book.refs (sampleEndpoint 1) = 1 ∧
      (migration.foldl step pairCore).Matched := by
  refine ⟨by decide +kernel, by decide +kernel, ?_⟩
  exact leases_match_holders (by decide) (Follows.reaches (by decide +kernel) .refl)

end Instance

end WgQuic.Core
