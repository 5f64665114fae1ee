import WgQuic.Reconcile.Desired
import WgQuic.Reconcile.DiffLaws

/-!
# Configurations in another order

Two configurations that differ only in the order of their peers, prefixes and
addresses have the same canonical form, and `Compare` sees no difference.
-/

namespace WgQuic.Canonical

open Net WgQuic.Configuration

section Comparison

variable {letters : Strings.LowerCase} {cfg other : Config}
variable (left : CanonicalConfig letters cfg) (right : CanonicalConfig letters other)

include left right

/-- Sorted peers are determined by what they are. -/
theorem peers_eq
    (same : ∀ peer, peer ∈ cfg.peers ↔ peer ∈ other.peers) : cfg.peers = other.peers := by
  have perm : cfg.peers.Perm other.peers :=
    (List.perm_ext_iff_of_nodup left.keys.of_map right.keys.of_map).mpr same
  rw [← left.sorted, ← right.sorted]
  refine peerLe_follows.eq_of_perm perm fun first firstMember second secondMember rank => ?_
  exact List.inj_on_of_nodup_map left.keys firstMember secondMember
    (eq_of_keyBytes (left.peers first firstMember).publicKey
      (left.peers second secondMember).publicKey rank)

/-- `Compare` tells canonical configurations apart. -/
theorem compare_silent_iff_eq : (Reconcile.compare cfg other).changed = false ∧
        (Reconcile.compare cfg other).restartRequired = false ↔ cfg = other := by
  rw [Reconcile.compare_silent_iff left.keys]
  constructor
  · rintro ⟨interface, transport, same⟩
    have peers := peers_eq left right same
    obtain ⟨_, _, _⟩ := other
    cases interface
    cases transport
    cases peers
    rfl
  · rintro rfl
    exact ⟨rfl, rfl, fun _ => .rfl⟩

end Comparison

/-- The peers differ in the order of their prefixes. -/
structure PeerRearranged (peer other : Peer) : Prop where
  allowedIPs : peer.allowedIPs.Perm other.allowedIPs
  rest : { other with allowedIPs := peer.allowedIPs } = peer

/-- The peers, the prefixes of each peer and the addresses are in another order. -/
structure Rearranged (cfg other : Config) : Prop where
  addresses : cfg.interface.addresses.Perm other.interface.addresses
  interface : { other.interface with addresses := cfg.interface.addresses } = cfg.interface
  transport : other.transport = cfg.transport
  peers : ∃ listed, List.Forall₂ PeerRearranged cfg.peers listed ∧ listed.Perm other.peers

theorem PeerRearranged.symm {peer other : Peer} (rearranged : PeerRearranged peer other) :
    PeerRearranged other peer where
  allowedIPs := rearranged.allowedIPs.symm
  rest := by rw [← rearranged.rest]

theorem Rearranged.symm {cfg other : Config} (rearranged : Rearranged cfg other) :
    Rearranged other cfg where
  addresses := rearranged.addresses.symm
  interface := by rw [← rearranged.interface]
  transport := rearranged.transport.symm
  peers := by
    obtain ⟨listed, related, perm⟩ := rearranged.peers
    refine List.perm_comp_forall₂ perm.symm (related.flip.imp fun _ _ => ?_)
    exact PeerRearranged.symm

section Order

variable {letters : Strings.LowerCase} {active : List Peer}

theorem Canonicalizes.rearranged {peer other result : Peer}
    (made : Canonicalizes letters active peer result) (rearranged : PeerRearranged peer other) :
    Canonicalizes letters active other result := by
  have perm := rearranged.allowedIPs
  have rest := rearranged.rest
  obtain ⟨key, shared, allowedIPs, endpoint, keepalive, policy⟩ := peer
  cases rest
  exact { made with
    valid := fun owned member => made.valid owned (perm.mem_iff.mpr member)
    allowedIPs := made.allowedIPs.trans (sortPrefixes_eq (perm.map _)) }

theorem canonicalizes_rearranged {peers listed results : List Peer}
    (related : List.Forall₂ PeerRearranged peers listed)
    (made : List.Forall₂ (Canonicalizes letters active) peers results) :
    List.Forall₂ (Canonicalizes letters active) listed results := by
  induction related generalizing results with
  | nil => exact made
  | cons first _ ih =>
    cases made with
    | cons one later => exact .cons (one.rearranged first) (ih later)

theorem canonicalizePeers_rearranged {peers listed others found : List Peer}
    (related : List.Forall₂ PeerRearranged peers listed) (perm : listed.Perm others)
    (made : canonicalizePeers letters active peers = .ok found) :
    canonicalizePeers letters active others = .ok found := by
  obtain ⟨results, one, keys, prefixes, rfl⟩ := canonicalizePeers_eq_ok.mp made
  obtain ⟨rearranged, each, same⟩ :=
    List.perm_comp_forall₂ perm.symm (canonicalizes_rearranged related one)
  refine canonicalizePeers_eq_ok.mpr ⟨rearranged, each, (same.map _).nodup_iff.mpr keys,
    (same.flatMap_right _).nodup_iff.mpr prefixes, ?_⟩
  refine peerLe_follows.eq_of_perm same.symm fun first firstMember second secondMember rank => ?_
  obtain ⟨_, -, firstMade⟩ := Fallible.exists_of_mem one firstMember
  obtain ⟨_, -, secondMade⟩ := Fallible.exists_of_mem one secondMember
  exact List.inj_on_of_nodup_map keys firstMember secondMember
    (eq_of_keyBytes (canonicalKey_self firstMade.publicKey)
      (canonicalKey_self secondMade.publicKey) rank)

theorem canonicalizeInterface_rearranged {iface other found : Interface}
    (perm : iface.addresses.Perm other.addresses)
    (rest : { other with addresses := iface.addresses } = iface)
    (made : canonicalizeInterface letters iface = .ok found) :
    canonicalizeInterface letters other = .ok found := by
  obtain ⟨privateKey, dns, key, addresses, domains, rfl⟩ := canonicalizeInterface_eq_ok.mp made
  obtain ⟨valid, nodup, -⟩ := checkAddresses_eq_ok.mp addresses
  rw [← rest] at key domains ⊢
  refine canonicalizeInterface_eq_ok.mpr ⟨privateKey, dns, key, checkAddresses_eq_ok.mpr
    ⟨fun address member => valid address (perm.mem_iff.mpr member), perm.nodup_iff.mp nodup,
      by simp⟩, domains, ?_⟩
  rw [sortPrefixes_eq perm]

theorem canonicalize_rearranged {cfg other found : Config} (rearranged : Rearranged cfg other)
    (made : canonicalize letters cfg active = .ok found) :
    canonicalize letters other active = .ok found := by
  obtain ⟨iface, transport, peers, checked⟩ := canonicalize_eq_ok.mp made
  obtain ⟨listed, related, perm⟩ := rearranged.peers
  refine canonicalize_eq_ok.mpr ⟨canonicalizeInterface_rearranged rearranged.addresses
    rearranged.interface iface, ?_, canonicalizePeers_rearranged related perm peers, checked⟩
  rw [rearranged.transport]
  exact transport

variable {hash : NonSecretProjection → Text}

theorem fromConfig_rearranged (cfg other : Config) (active : Option (Desired letters))
    (rearranged : Rearranged cfg other) :
    ((∃ desired, fromConfig letters hash cfg active = .ok desired) ↔
        ∃ desired, fromConfig letters hash other active = .ok desired) ∧
      ∀ first second, fromConfig letters hash cfg active = .ok first →
        fromConfig letters hash other active = .ok second →
          first.config = second.config ∧ first.digest = second.digest ∧
            (Reconcile.compare first.config second.config).changed = false ∧
            (Reconcile.compare first.config second.config).restartRequired = false := by
  have moves : ∀ {cfg other : Config} {desired : Desired letters}, Rearranged cfg other →
      fromConfig letters hash cfg active = .ok desired →
        fromConfig letters hash other active = .ok desired := by
    intro cfg other desired rearranged made
    obtain ⟨found, digest⟩ := fromConfig_eq_ok.mp made
    exact fromConfig_eq_ok.mpr ⟨canonicalize_rearranged rearranged found, digest⟩
  constructor
  · exact ⟨fun ⟨desired, made⟩ => ⟨desired, moves rearranged made⟩,
      fun ⟨desired, made⟩ => ⟨desired, moves rearranged.symm made⟩⟩
  · intro first second made again
    cases (moves rearranged made).symm.trans again
    exact ⟨rfl, rfl, (compare_silent_iff_eq first.canonical first.canonical).mpr rfl⟩

/-- The prefix `10.number.0.0/16` -/
def netOf (number : Nat) : NetPrefix :=
  ⟨⟨.v4 (BitVec.ofNat 32 (10 * 2 ^ 24 + number * 2 ^ 16)), 16⟩, rfl⟩

/-- A peer whose key starts with the given symbol. -/
def peerOwning (symbol : Char) (allowedIPs : List NetPrefix) : Peer where
  publicKey := symbol :: (List.replicate 42 'A' ++ ['='])
  allowedIPs
  fecPolicy := defaultFECPolicy

/-- Two peers with two prefixes each, and two addresses, in some order. -/
def pairIn (order : {α : Type} → List α → List α) : Config where
  interface := {
    privateKey := List.replicate 43 'A' ++ ['=']
    addresses := order [netOf 0, netOf 9]
    mtu := 1280
    table := "auto".toList }
  peers := order
    [peerOwning 'A' (order [netOf 1, netOf 2]), peerOwning 'E' (order [netOf 3, netOf 4])]
  transport := defaultTransport

theorem peerOwning_self {symbol : Char} {allowedIPs : List NetPrefix}
    (key : canonicalKey (peerOwning symbol []).publicKey = .ok (peerOwning symbol []).publicKey)
    (plain : ∀ owned ∈ allowedIPs, owned.val.isValid = true ∧ owned.masked = owned)
    (sorted : allowedIPs.Pairwise fun left right => left.val.le right.val) :
    Canonicalizes .plain [] (peerOwning symbol allowedIPs) (peerOwning symbol allowedIPs) where
  publicKey := key
  presharedKey := rfl
  endpoint := rfl
  persistentKeepalive := rfl
  fecPolicy := rfl
  known := show defaultFECPolicy ∈ fecPolicies by decide
  valid owned member := (plain owned member).1
  allowedIPs := by
    change allowedIPs = sortPrefixes (allowedIPs.map NetPrefix.masked)
    rw [List.map_congr_left fun owned member => (plain owned member).2, List.map_id']
    exact (List.mergeSort_of_pairwise sorted).symm

theorem canonicalize_pair : canonicalize .plain (pairIn id) [] = .ok (pairIn id) := by
  have addresses : sortPrefixes [netOf 0, netOf 9] = [netOf 0, netOf 9] :=
    List.mergeSort_of_pairwise (by decide)
  have sorted : (pairIn id).peers.mergeSort peerLe = (pairIn id).peers :=
    List.mergeSort_of_pairwise (by decide +kernel)
  refine canonicalize_eq_ok.mpr ⟨canonicalizeInterface_eq_ok.mpr
    ⟨(pairIn id).interface.privateKey, [], ?_, ?_, rfl, ?_⟩, rfl, canonicalizePeers_eq_ok.mpr
      ⟨_, .cons (peerOwning_self ?_ ?_ ?_) (.cons (peerOwning_self ?_ ?_ ?_) .nil), ?_, ?_,
        sorted.symm⟩, (), ?_⟩
  rotate_left 2
  · exact congrArg (fun addresses => { (pairIn id).interface with addresses }) addresses.symm
  all_goals decide +kernel

theorem pair_swapped : Rearranged (pairIn id) (pairIn List.reverse) where
  addresses := (List.reverse_perm _).symm
  interface := rfl
  transport := rfl
  peers := ⟨_, .cons ⟨(List.reverse_perm _).symm, rfl⟩
    (.cons ⟨(List.reverse_perm _).symm, rfl⟩ .nil), (List.reverse_perm _).symm⟩

theorem pair_swapped_same :
    ∃ first second, fromConfig .plain (fun _ => []) (pairIn id) none = .ok first ∧
      fromConfig .plain (fun _ => []) (pairIn List.reverse) none = .ok second ∧
      first.config = second.config ∧ first.digest = second.digest ∧
      (Reconcile.compare first.config second.config).changed = false ∧
      (Reconcile.compare first.config second.config).restartRequired = false := by
  have made : fromConfig .plain (fun _ => []) (pairIn id) none =
      .ok ⟨_, [], canonicalConfig (canonicalPeer_of_active .plain none) canonicalize_pair⟩ :=
    fromConfig_eq_ok.mpr ⟨canonicalize_pair, rfl⟩
  have same := @fromConfig_rearranged .plain (fun _ => []) _ _ none pair_swapped
  obtain ⟨second, again⟩ := same.1.mp ⟨_, made⟩
  exact ⟨_, second, made, again, same.2 _ _ made again⟩

end Order

end WgQuic.Canonical
