import WgQuic.Configuration.Model
import WgQuic.Core.Instance
import WgQuic.Lib.Keyed

/-!
# The peers of the core's configuration

A request names its prefixes in texts.  `parseCorePeerMutations` reads them, and
once a transaction is committed `applyCommittedPeerConfig` brings the peers of
the configuration up to date, one mutation after the other.
-/

namespace WgQuic.Core

open Net
open WgQuic.Configuration (NetPrefix Peer Text)

/-- `control.PeerMutation`, as it is sent to the core. -/
structure WireMutation where
  operation : String
  publicKey : Text
  presharedKey : Text
  allowedIPs : List Text
  endpoint : Text
  persistentKeepalive : UInt16
  fecPolicy : Text

/-- `wgdevice.PeerMutation` -/
structure DeviceMutation where
  operation : PeerOperation
  peer : Peer

/-- Mutations and prefixes are numbered from one. -/
inductive MutationError where
  | operation (number : Nat) (name : String)
  | allowedIP (number prefixNumber : Nat) (text : Text)

def parseOperation : String → Option PeerOperation
  | "add" => some .add
  | "update" => some .update
  | "remove" => some .remove
  | _ => none

/-- The loop over the prefixes of a mutation. -/
def parseAllowedIPs (number : Nat) :
    Nat → List Text → Except MutationError (List NetPrefix)
  | _, [] => .ok []
  | prefixNumber, text :: rest =>
    match parsePrefix text with
    | none => .error (.allowedIP number prefixNumber text)
    | some owned => do
        let rest ← parseAllowedIPs number (prefixNumber + 1) rest
        return .ofPrefix owned.masked :: rest

/-- The loop of `parseCorePeerMutations`. -/
def parseMutations : Nat → List WireMutation → Except MutationError (List DeviceMutation)
  | _, [] => .ok []
  | number, value :: rest =>
    match parseOperation value.operation with
    | none => .error (.operation number value.operation)
    | some operation => do
        let allowedIPs ← parseAllowedIPs number 1 value.allowedIPs
        let rest ← parseMutations (number + 1) rest
        return {
          operation
          peer := {
            publicKey := value.publicKey
            presharedKey := value.presharedKey
            allowedIPs
            endpoint := value.endpoint
            persistentKeepalive := value.persistentKeepalive
            fecPolicy := value.fecPolicy } } :: rest

def parseCorePeerMutations (values : List WireMutation) :
    Except MutationError (List DeviceMutation) :=
  parseMutations 1 values

/-- One round of the loop of `applyCommittedPeerConfig`. -/
def applyMutation (peers : List Peer) (mutation : DeviceMutation) : List Peer :=
  match mutation.operation with
  | .add => peers ++ [mutation.peer]
  | .update => Keyed.replace Peer.publicKey peers mutation.peer
  | .remove => Keyed.remove Peer.publicKey peers mutation.peer.publicKey
  | .other _ => peers

def applyCommittedPeerConfig (peers : List Peer) (mutations : List DeviceMutation) : List Peer :=
  mutations.foldl applyMutation peers

section Apply

variable {peers added updated removed : List Peer}

def mutationsFor (added updated removed : List Peer) : List DeviceMutation :=
  added.map (.mk .add) ++ updated.map (.mk .update) ++ removed.map (.mk .remove)

theorem foldl_applyMutation_add :
    (added.map (DeviceMutation.mk .add)).foldl applyMutation peers = peers ++ added := by
  induction added generalizing peers with
  | nil => simp
  | cons first rest ih =>
    rw [List.map_cons, List.foldl_cons, ih]
    simp [applyMutation]

theorem applyCommittedPeerConfig_eq :
    applyCommittedPeerConfig peers (mutationsFor added updated removed) =
      (removed.map Peer.publicKey).foldl (Keyed.remove Peer.publicKey)
        (updated.foldl (Keyed.replace Peer.publicKey) (peers ++ added)) := by
  rw [applyCommittedPeerConfig, mutationsFor, List.foldl_append, List.foldl_append,
    foldl_applyMutation_add, List.foldl_map, List.foldl_map, List.foldl_map]
  rfl

/-- The peers that are left, when new peers are added and old ones are updated. -/
theorem mem_applyCommittedPeerConfig (keys : ((peers ++ added).map Peer.publicKey).Nodup)
    (once : (updated.map Peer.publicKey).Nodup)
    (known : ∀ peer ∈ updated, peer.publicKey ∈ (peers ++ added).map Peer.publicKey) :
    ((applyCommittedPeerConfig peers (mutationsFor added updated removed)).map
        Peer.publicKey).Nodup ∧
      ∀ peer, peer ∈ applyCommittedPeerConfig peers (mutationsFor added updated removed) ↔
        (peer ∈ updated ∨ (peer ∈ peers ++ added ∧ peer.publicKey ∉ updated.map Peer.publicKey)) ∧
          peer.publicKey ∉ removed.map Peer.publicKey := by
  rw [applyCommittedPeerConfig_eq]
  have kept : ((updated.foldl (Keyed.replace Peer.publicKey) (peers ++ added)).map
      Peer.publicKey).Nodup := by rwa [Keyed.map_foldl_replace]
  obtain ⟨nodup, members⟩ := @Keyed.foldl_remove _ _ _ _ _ (removed.map Peer.publicKey) kept
  refine ⟨nodup, fun peer => ?_⟩
  rw [members, Keyed.mem_foldl_replace keys once known]

end Apply

end WgQuic.Core
