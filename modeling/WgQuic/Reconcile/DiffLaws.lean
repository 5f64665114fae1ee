import WgQuic.Lib.Keyed
import WgQuic.Reconcile.Diff

/-!
# What a difference says

The lists of `Compare` one by one, when it asks for a restart, and when it
reports nothing at all.
-/

namespace WgQuic.Reconcile

open Canonical (sortPrefixes)
open WgQuic.Configuration (Config Peer)

variable {current desired : Config}

/-- The update that a desired peer asks for. -/
def peerChange (current : List Peer) (peer : Peer) : Option PeerChange :=
  (peerMap current peer.publicKey).bind fun before =>
    if (changedPeerFields before peer).isEmpty then none
    else some { publicKey := peer.publicKey, fields := changedPeerFields before peer }

def presharedKeyReasons (current : List Peer) (peer : Peer) : List String :=
  match peerMap current peer.publicKey with
  | none => []
  | some before =>
    reasonIf (before.presharedKey != peer.presharedKey)
      ("active peer " ++ shortKey peer.publicKey ++ " preshared key changed")

def fullTunnelReasons (current desired : Config) : List String :=
  if usesAutomaticTable current && usesAutomaticTable desired then
    reasonIf (hasDefaultRoute current true != hasDefaultRoute desired true)
        "automatic IPv4 full-tunnel mode changed" ++
      reasonIf (hasDefaultRoute current false != hasDefaultRoute desired false)
        "automatic IPv6 full-tunnel mode changed"
  else []

/-- The desired peers with a key that is new. -/
def addedPeers (current desired : List Peer) : List Peer :=
  desired.filter fun peer => (peerMap current peer.publicKey).isNone

/-- The current peers with a key that is no longer desired. -/
def removedPeers (current desired : List Peer) : List Peer :=
  current.filter fun peer => (peerMap desired peer.publicKey).isNone

theorem foldl_comparePeer (current peers : List Peer) (diff : Diff) :
    peers.foldl (comparePeer current) diff = { diff with
        added := diff.added ++ (addedPeers current peers).map Peer.publicKey
        updated := diff.updated ++ peers.filterMap (peerChange current)
        restartReasons := diff.restartReasons ++ peers.flatMap (presharedKeyReasons current) } := by
  induction peers generalizing diff with
  | nil => simp [addedPeers]
  | cons peer rest ih =>
    rw [List.foldl_cons, ih, comparePeer]
    cases found : peerMap current peer.publicKey with
    | none => simp [addedPeers, peerChange, presharedKeyReasons, found]
    | some before =>
      cases fields : changedPeerFields before peer with
      | nil => simp [addedPeers, peerChange, presharedKeyReasons, found, fields]
      | cons field others =>
        simp [addedPeers, peerChange, presharedKeyReasons, found, fields]

theorem compare_added (current desired : Config) : (compare current desired).added =
      (addedPeers current.peers desired.peers).map Peer.publicKey := by
  unfold compare
  simp only [foldl_comparePeer]
  split <;> rfl

theorem compare_updated (current desired : Config) :
    (compare current desired).updated = desired.peers.filterMap (peerChange current.peers) := by
  unfold compare
  simp only [foldl_comparePeer]
  split <;> rfl

theorem compare_removed (current desired : Config) : (compare current desired).removed =
      (removedPeers current.peers desired.peers).map Peer.publicKey := by
  unfold compare
  split <;> rfl

theorem compare_restartReasons (current desired : Config) :
    (compare current desired).restartReasons = compareImmutable current desired ++
        desired.peers.flatMap (presharedKeyReasons current.peers) ++
          fullTunnelReasons current desired := by
  unfold compare fullTunnelReasons
  simp only [foldl_comparePeer]
  split
  · simp [compareRouteOwnership]
  · simp [compareRouteOwnership]

theorem compare_routeAdditions (current desired : Config) :
    (compare current desired).routeAdditions =
      sortPrefixes ((ownedPrefixes desired.peers).filter fun owned =>
        (prefixOwners current.peers owned).isNone) := by
  unfold compare
  split <;> rfl

theorem compare_routeRemovals (current desired : Config) : (compare current desired).routeRemovals =
      sortPrefixes ((ownedPrefixes current.peers).filter fun owned =>
        (prefixOwners desired.peers owned).isNone) := by
  unfold compare
  split <;> rfl

theorem reasonIf_eq_nil {changed : Bool} {reason : String} :
    reasonIf changed reason = [] ↔ changed = false := by
  cases changed <;> simp [reasonIf]

theorem compareImmutable_eq_nil : compareImmutable current desired = [] ↔
      current.interface = desired.interface ∧ current.transport = desired.transport := by
  obtain ⟨⟨⟩, peers, transport⟩ := current
  obtain ⟨⟨⟩, otherPeers, otherTransport⟩ := desired
  simp [compareImmutable, reasonIf_eq_nil, and_assoc]

/-- What a change must keep to go without a restart. -/
structure Continues (current desired : Config) : Prop where
  interface : current.interface = desired.interface
  transport : current.transport = desired.transport
  presharedKey : ∀ peer ∈ desired.peers, ∀ before,
    peerMap current.peers peer.publicKey = some before → before.presharedKey = peer.presharedKey
  fullTunnel : current.interface.table = "auto".toList → ∀ ipv4,
    hasDefaultRoute current ipv4 = hasDefaultRoute desired ipv4

variable {peer : Peer} {peers : List Peer}

theorem presharedKeyReasons_eq_nil {current : List Peer} :
    presharedKeyReasons current peer = [] ↔ ∀ before,
      peerMap current peer.publicKey = some before → before.presharedKey = peer.presharedKey := by
  unfold presharedKeyReasons
  split
  · next absent => simp [absent]
  · next before found => simp [found, reasonIf_eq_nil]

theorem restartRequired_eq_false :
    (compare current desired).restartRequired = false ↔ Continues current desired := by
  rw [Diff.restartRequired, compare_restartReasons]
  simp only [Bool.not_eq_eq_eq_not, Bool.not_false, List.isEmpty_iff, List.append_eq_nil_iff,
    compareImmutable_eq_nil, List.flatMap_eq_nil_iff, presharedKeyReasons_eq_nil]
  constructor
  · rintro ⟨⟨⟨interface, transport⟩, presharedKey⟩, tunnel⟩
    refine ⟨interface, transport, presharedKey, fun table => ?_⟩
    have automatic : (usesAutomaticTable current && usesAutomaticTable desired) = true := by
      simp [usesAutomaticTable, ← interface, table]
    rw [fullTunnelReasons, if_pos automatic, List.append_eq_nil_iff, reasonIf_eq_nil,
      reasonIf_eq_nil, bne_eq_false_iff_eq, bne_eq_false_iff_eq] at tunnel
    exact Bool.rec tunnel.2 tunnel.1
  · rintro ⟨interface, transport, presharedKey, fullTunnel⟩
    refine ⟨⟨⟨interface, transport⟩, presharedKey⟩, ?_⟩
    unfold fullTunnelReasons
    split
    · next automatic =>
      have table : current.interface.table = "auto".toList :=
        eq_of_beq (Bool.and_eq_true_iff.mp automatic).1
      rw [fullTunnel table, fullTunnel table]
      simp [reasonIf]
    · rfl

theorem changedPeerFields_eq_nil {before : Peer} : changedPeerFields before peer = [] ↔
      before.allowedIPs = peer.allowedIPs ∧ before.endpoint = peer.endpoint ∧
        before.persistentKeepalive = peer.persistentKeepalive ∧
          before.fecPolicy = peer.fecPolicy := by
  simp [changedPeerFields, reasonIf_eq_nil]

theorem peer_eq {before : Peer} (publicKey : before.publicKey = peer.publicKey)
    (presharedKey : before.presharedKey = peer.presharedKey)
    (fields : changedPeerFields before peer = []) : before = peer := by
  obtain ⟨allowedIPs, endpoint, keepalive, policy⟩ := changedPeerFields_eq_nil.mp fields
  cases before
  simp_all

theorem peerChange_eq_none :
    peerChange peers peer = none ↔ ∀ before, peerMap peers peer.publicKey = some before →
      changedPeerFields before peer = [] := by
  rw [peerChange]
  simp

theorem changed_eq_false : (compare current desired).changed = false ↔
      addedPeers current.peers desired.peers = [] ∧
        (∀ peer ∈ desired.peers, peerChange current.peers peer = none) ∧
          removedPeers current.peers desired.peers = [] := by
  rw [Diff.changed, compare_added, compare_updated, compare_removed]
  simp [List.filterMap_eq_nil_iff, and_assoc]

theorem hasDefaultRoute_congr (same : ∀ peer, peer ∈ current.peers ↔ peer ∈ desired.peers)
    (ipv4 : Bool) : hasDefaultRoute current ipv4 = hasDefaultRoute desired ipv4 := by
  rw [Bool.eq_iff_iff, hasDefaultRoute, hasDefaultRoute, List.any_eq_true, List.any_eq_true]
  exact exists_congr fun peer => and_congr_left fun _ => same peer

theorem mem_addedPeers {wanted : List Peer} : peer ∈ addedPeers peers wanted ↔
      peer ∈ wanted ∧ peer.publicKey ∉ peers.map Peer.publicKey := by
  rw [addedPeers, List.mem_filter, Option.isNone_iff_eq_none]
  exact and_congr_right fun _ => Keyed.last_eq_none

theorem mem_removedPeers {wanted : List Peer} : peer ∈ removedPeers peers wanted ↔
      peer ∈ peers ∧ peer.publicKey ∉ wanted.map Peer.publicKey := by
  rw [removedPeers, List.mem_filter, Option.isNone_iff_eq_none]
  exact and_congr_right fun _ => Keyed.last_eq_none

/-- Nothing is reported when the peers are the same, in whatever order. -/
theorem compare_silent_iff (currentKeys : (current.peers.map Peer.publicKey).Nodup) :
    (compare current desired).changed = false ∧ (compare current desired).restartRequired = false ↔
      current.interface = desired.interface ∧ current.transport = desired.transport ∧
        ∀ peer, peer ∈ current.peers ↔ peer ∈ desired.peers := by
  rw [changed_eq_false, restartRequired_eq_false]
  constructor
  · rintro ⟨⟨added, updated, removed⟩, continues⟩
    refine ⟨continues.interface, continues.transport, ?_⟩
    have kept : ∀ peer ∈ desired.peers, peer ∈ current.peers := by
      intro peer member
      cases found : peerMap current.peers peer.publicKey with
      | none =>
        have new : peer ∈ addedPeers current.peers desired.peers :=
          mem_addedPeers.mpr ⟨member, Keyed.last_eq_none.mp found⟩
        rw [added] at new
        cases new
      | some before =>
        obtain ⟨listed, key⟩ := Keyed.mem_of_last found
        have same := peer_eq key (continues.presharedKey peer member before found)
          (peerChange_eq_none.mp (updated peer member) before found)
        exact same ▸ listed
    refine fun peer => ⟨fun member => ?_, kept peer⟩
    by_cases listed : peer.publicKey ∈ desired.peers.map Peer.publicKey
    · obtain ⟨other, wanted, key⟩ := List.mem_map.mp listed
      exact List.inj_on_of_nodup_map currentKeys (kept other wanted) member key ▸ wanted
    · have gone : peer ∈ removedPeers current.peers desired.peers :=
        mem_removedPeers.mpr ⟨member, listed⟩
      rw [removed] at gone
      cases gone
  · rintro ⟨interface, transport, same⟩
    have found : ∀ peer ∈ desired.peers, peerMap current.peers peer.publicKey = some peer :=
      fun peer member => Keyed.last_of_mem currentKeys ((same peer).mpr member)
    refine ⟨⟨?_, ?_, ?_⟩, interface, transport, ?_, fun _ => hasDefaultRoute_congr same⟩
    · refine List.eq_nil_iff_forall_not_mem.mpr fun peer member => ?_
      obtain ⟨wanted, new⟩ := mem_addedPeers.mp member
      exact new (List.mem_map_of_mem ((same peer).mpr wanted))
    · intro peer member
      refine peerChange_eq_none.mpr fun before other => ?_
      cases (found peer member).symm.trans other
      simp [changedPeerFields_eq_nil]
    · refine List.eq_nil_iff_forall_not_mem.mpr fun peer member => ?_
      obtain ⟨listed, gone⟩ := mem_removedPeers.mp member
      exact gone (List.mem_map_of_mem ((same peer).mp listed))
    · intro peer member before other
      cases (found peer member).symm.trans other
      rfl

end WgQuic.Reconcile
