import Mathlib.Data.List.Dedup
import WgQuic.Reconcile.Canonical

/-!
# Differences of desired configurations

`Compare`: the mutable peer changes between two configurations in canonical form,
their route consequences, and the reasons why a change needs a restart.
-/

namespace WgQuic.Reconcile

open Canonical (sortPrefixes)
open WgQuic.Configuration (Config NetPrefix Peer Text)

structure PeerChange where
  publicKey : Text
  fields : List String
deriving DecidableEq, Repr

structure PrefixMove where
  moved : NetPrefix
  source : Text
  target : Text
deriving DecidableEq, Repr

structure Diff where
  added : List Text := []
  updated : List PeerChange := []
  removed : List Text := []
  routeAdditions : List NetPrefix := []
  routeRemovals : List NetPrefix := []
  ownershipMoves : List PrefixMove := []
  restartReasons : List String := []
deriving DecidableEq, Repr

def Diff.changed (diff : Diff) : Bool :=
  !diff.added.isEmpty || !diff.updated.isEmpty || !diff.removed.isEmpty

def Diff.restartRequired (diff : Diff) : Bool := !diff.restartReasons.isEmpty

/-- One `add` of `compareImmutable`. -/
def reasonIf (changed : Bool) (reason : String) : List String :=
  if changed then [reason] else []

def compareImmutable (current desired : Config) : List String :=
  let before := current.interface
  let after := desired.interface
  reasonIf (before.privateKey != after.privateKey)
      "interface private key changed" ++
    reasonIf (before.addresses != after.addresses)
      "interface addresses changed" ++
    reasonIf (before.listenPort != after.listenPort)
      "interface listen port changed" ++
    reasonIf (before.fwMark != after.fwMark) "interface fwmark changed" ++
    reasonIf (before.dns != after.dns) "interface DNS policy changed" ++
    reasonIf (before.mtu != after.mtu) "interface MTU changed" ++
    reasonIf (before.table != after.table) "interface route table changed" ++
    reasonIf (before.preUp != after.preUp) "interface PreUp hooks changed" ++
    reasonIf (before.postUp != after.postUp) "interface PostUp hooks changed" ++
    reasonIf (before.preDown != after.preDown)
      "interface PreDown hooks changed" ++
    reasonIf (before.postDown != after.postDown)
      "interface PostDown hooks changed" ++
    reasonIf (before.saveConfig != after.saveConfig)
      "interface SaveConfig changed" ++
    reasonIf (current.transport != desired.transport)
      "interface transport policy changed"

def changedPeerFields (current desired : Peer) : List String :=
  reasonIf (current.allowedIPs != desired.allowedIPs) "allowed_ips" ++
    reasonIf (current.endpoint != desired.endpoint) "endpoint" ++
    reasonIf (current.persistentKeepalive != desired.persistentKeepalive)
      "persistent_keepalive" ++
    reasonIf (current.fecPolicy != desired.fecPolicy) "fec_policy"

/-- `peerMap`: a later peer replaces an earlier one with the same key. -/
def peerMap (peers : List Peer) (publicKey : Text) : Option Peer :=
  peers.reverse.find? fun peer => peer.publicKey = publicKey

/-- `prefixOwners`: the last peer that lists a prefix owns it. -/
def prefixOwners (peers : List Peer) (owned : NetPrefix) : Option Text :=
  (peers.reverse.find? fun peer => owned ∈ peer.allowedIPs).map Peer.publicKey

def ownedPrefixes (peers : List Peer) : List NetPrefix :=
  (peers.flatMap Peer.allowedIPs).dedup

def compareRouteOwnership (current desired : List Peer) (diff : Diff) : Diff :=
  let wanted := ownedPrefixes desired
  let moved := sortPrefixes (wanted.filter fun owned =>
    (prefixOwners current owned).isSome &&
      prefixOwners current owned != prefixOwners desired owned)
  { diff with
    routeAdditions := sortPrefixes (wanted.filter fun owned =>
      (prefixOwners current owned).isNone)
    routeRemovals := sortPrefixes ((ownedPrefixes current).filter fun owned =>
      (prefixOwners desired owned).isNone)
    ownershipMoves := moved.map fun owned =>
      { moved := owned
        source := (prefixOwners current owned).getD []
        target := (prefixOwners desired owned).getD [] } }

def usesAutomaticTable (config : Config) : Bool :=
  config.interface.table == "auto".toList

def hasDefaultRoute (config : Config) (ipv4 : Bool) : Bool :=
  config.peers.any fun peer => peer.allowedIPs.any fun owned =>
    owned.val.bits == 0 && owned.val.addr.is4 == ipv4

def shortKey (publicKey : Text) : String :=
  String.ofList (publicKey.take 8)

/-- One round of the loop over the desired peers. -/
def comparePeer (current : List Peer) (diff : Diff) (peer : Peer) : Diff :=
  match peerMap current peer.publicKey with
  | none => { diff with added := diff.added ++ [peer.publicKey] }
  | some before =>
    let fields := changedPeerFields before peer
    { diff with
      restartReasons := diff.restartReasons ++ reasonIf (before.presharedKey != peer.presharedKey)
          ("active peer " ++ shortKey peer.publicKey ++ " preshared key changed")
      updated := diff.updated ++ if fields.isEmpty then []
        else [{ publicKey := peer.publicKey, fields := fields }] }

/-- `Compare` on two present configurations. -/
def compare (current desired : Config) : Diff :=
  let immutable : Diff := { restartReasons := compareImmutable current desired }
  let updated := desired.peers.foldl (comparePeer current.peers) immutable
  let removed := { updated with
    removed := (current.peers.filter fun peer =>
      (peerMap desired.peers peer.publicKey).isNone).map Peer.publicKey }
  let routed := compareRouteOwnership current.peers desired.peers removed
  if usesAutomaticTable current && usesAutomaticTable desired then
    { routed with
      restartReasons := routed.restartReasons ++
        reasonIf (hasDefaultRoute current true != hasDefaultRoute desired true)
          "automatic IPv4 full-tunnel mode changed" ++
        reasonIf (hasDefaultRoute current false != hasDefaultRoute desired false)
          "automatic IPv6 full-tunnel mode changed" }
  else routed

end WgQuic.Reconcile
