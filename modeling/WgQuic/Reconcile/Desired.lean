import WgQuic.Lib.Keyed
import WgQuic.Reconcile.CanonicalForm

/-!
# Desired configurations

A `Desired` is made by `FromConfig` only, so that what canonicalization
establishes holds of every one.  Its configuration is its own canonical form,
unless the host name of an endpoint reads as the unspecified address once its
trailing dot is gone.
-/

namespace WgQuic.Canonical

open Net WgQuic.Configuration Fallible

structure NonSecretInterface where
  addresses : List NetPrefix
  listenPort : UInt16
  fwMark : UInt32
  dns : List Text
  mtu : Int
  table : Text
  preUp : List Text
  postUp : List Text
  preDown : List Text
  postDown : List Text
  saveConfig : Bool

structure NonSecretPeer where
  publicKey : Text
  allowedIPs : List NetPrefix
  endpoint : Text
  persistentKeepalive : UInt16
  fecPolicy : Text

structure NonSecretProjection where
  interface : NonSecretInterface
  transport : Transport
  peers : List NonSecretPeer

def nonSecretInterface (iface : Interface) : NonSecretInterface where
  addresses := iface.addresses
  listenPort := iface.listenPort
  fwMark := iface.fwMark
  dns := iface.dns
  mtu := iface.mtu
  table := iface.table
  preUp := iface.preUp
  postUp := iface.postUp
  preDown := iface.preDown
  postDown := iface.postDown
  saveConfig := iface.saveConfig

def nonSecretPeer (peer : Peer) : NonSecretPeer where
  publicKey := peer.publicKey
  allowedIPs := peer.allowedIPs
  endpoint := peer.endpoint
  persistentKeepalive := peer.persistentKeepalive
  fecPolicy := peer.fecPolicy

def nonSecretProjection (cfg : Config) : NonSecretProjection where
  interface := nonSecretInterface cfg.interface
  transport := cfg.transport
  peers := cfg.peers.map nonSecretPeer

structure CanonicalPeer (peer : Peer) : Prop where
  publicKey : canonicalKey peer.publicKey = .ok peer.publicKey
  presharedKey : peer.presharedKey = [] ∨ canonicalKey peer.presharedKey = .ok peer.presharedKey
  fecPolicy : peer.fecPolicy ∈ fecPolicies
  valid : ∀ owned ∈ peer.allowedIPs, owned.val.isValid = true
  masked : ∀ owned ∈ peer.allowedIPs, owned.masked = owned
  sorted : sortPrefixes peer.allowedIPs = peer.allowedIPs

structure CanonicalConfig (letters : Strings.LowerCase) (cfg : Config) : Prop where
  table : canonicalTable letters cfg.interface.table = cfg.interface.table
  peers : ∀ peer ∈ cfg.peers, CanonicalPeer peer
  keys : (cfg.peers.map Peer.publicKey).Nodup
  prefixes : (cfg.peers.flatMap Peer.allowedIPs).Nodup
  sorted : cfg.peers.mergeSort peerLe = cfg.peers

structure Desired (letters : Strings.LowerCase) where
  config : Config
  digest : Text
  canonical : CanonicalConfig letters config

def activePeers {letters : Strings.LowerCase} : Option (Desired letters) → List Peer
  | none => []
  | some desired => desired.config.peers

section Loops

variable {letters : Strings.LowerCase} {active : List Peer}

theorem canonicalizePeers_eq_ok {peers found : List Peer} :
    canonicalizePeers letters active peers = .ok found ↔
      ∃ listed, List.Forall₂ (Canonicalizes letters active) peers listed ∧
        (listed.map Peer.publicKey).Nodup ∧ (listed.flatMap Peer.allowedIPs).Nodup ∧
          found = listed.mergeSort peerLe := by
  rw [canonicalizePeers, map_eq_ok]
  refine exists_congr fun listed => ?_
  rw [canonicalPeers_eq_ok]
  simp [and_assoc, eq_comm (a := found)]

theorem checkAddresses_eq_ok {seen addresses : List NetPrefix} :
    checkAddresses seen addresses = .ok () ↔
      (∀ address ∈ addresses, address.val.isValid = true) ∧ addresses.Nodup ∧
        ∀ address ∈ addresses, address ∉ seen := by
  induction addresses generalizing seen with
  | nil => simp [checkAddresses]
  | cons address rest ih =>
    rw [checkAddresses]
    cases valid : address.val.isValid with
    | false => simp [valid]
    | true =>
      by_cases earlier : address ∈ seen
      · simp [earlier]
      · rw [if_neg Bool.noConfusion, if_neg earlier, ih, List.nodup_cons, List.forall_mem_cons,
          List.forall_mem_cons]
        simp only [List.mem_cons, not_or]
        constructor
        · rintro ⟨sound, nodup, unseen⟩
          exact ⟨⟨valid, sound⟩, ⟨fun twice => (unseen _ twice).1 rfl, nodup⟩, earlier,
            fun other member => (unseen other member).2⟩
        · rintro ⟨⟨-, sound⟩, ⟨once, nodup⟩, -, unseen⟩
          exact ⟨sound, nodup, fun other member =>
            ⟨fun same => once (same ▸ member), unseen other member⟩⟩

theorem Canonicalizes.canonicalPeer {peer result : Peer}
    (made : Canonicalizes letters active peer result)
    (inherited : ∀ peer ∈ active, CanonicalPeer peer) : CanonicalPeer result where
  publicKey := canonicalKey_self made.publicKey
  presharedKey := by
    have shared := made.presharedKey
    unfold canonicalPresharedKey at shared
    split at shared
    · cases known : activePeer active result.publicKey with
      | none =>
        rw [known] at shared
        exact .inl (Except.ok.inj shared).symm
      | some other =>
        rw [known] at shared
        have same : other.presharedKey = result.presharedKey := Except.ok.inj shared
        rw [← same]
        exact (inherited other (Keyed.mem_of_last known).1).presharedKey
    · exact .inr (canonicalKey_self shared)
  fecPolicy := made.known
  valid := by
    intro owned member
    obtain ⟨source, listed, rfl⟩ := List.mem_map.mp (made.mem_allowedIPs.mp member)
    exact (Prefix.masked_isValid _).trans (made.valid source listed)
  masked := by
    intro owned member
    obtain ⟨source, listed, rfl⟩ := List.mem_map.mp (made.mem_allowedIPs.mp member)
    exact Subtype.ext (Prefix.masked_masked _)
  sorted := by
    rw [made.allowedIPs, sortPrefixes_sortPrefixes]

theorem canonicalize_eq_ok {cfg found : Config} : canonicalize letters cfg active = .ok found ↔
      canonicalizeInterface letters cfg.interface = .ok found.interface ∧
        canonicalizeTransport cfg.transport = .ok found.transport ∧
          canonicalizePeers letters active cfg.peers = .ok found.peers ∧
            ∃ checked, found.validate = .ok checked := by
  simp only [canonicalize, bind_eq_ok, mapError_eq_ok, pure_eq_ok]
  constructor
  · rintro ⟨interface, first, transport, second, peers, third, checked, fourth, rfl⟩
    exact ⟨first, second, third, checked, fourth⟩
  · rintro ⟨first, second, third, checked, fourth⟩
    exact ⟨_, first, _, second, _, third, checked, fourth, rfl⟩

theorem canonicalizeInterface_eq_ok {iface found : Interface} :
    canonicalizeInterface letters iface = .ok found ↔
      ∃ privateKey dns, canonicalKey iface.privateKey = .ok privateKey ∧
        checkAddresses [] iface.addresses = .ok () ∧ canonicalizeDNS letters 1 iface.dns = .ok dns ∧
            found = { iface with
              privateKey
              mtu := if iface.mtu = 0 then 1280 else iface.mtu
              table := canonicalTable letters iface.table
              addresses := sortPrefixes iface.addresses
              dns } := by
  simp only [canonicalizeInterface, bind_eq_ok, mapError_eq_ok, pure_eq_ok]
  constructor
  · rintro ⟨privateKey, key, ⟨⟩, addresses, dns, domains, rfl⟩
    exact ⟨privateKey, dns, key, addresses, domains, rfl⟩
  · rintro ⟨privateKey, dns, key, addresses, domains, rfl⟩
    exact ⟨privateKey, key, (), addresses, dns, domains, rfl⟩

theorem canonicalConfig {cfg found : Config} (inherited : ∀ peer ∈ active, CanonicalPeer peer)
    (made : canonicalize letters cfg active = .ok found) : CanonicalConfig letters found := by
  obtain ⟨iface, -, peers, -⟩ := canonicalize_eq_ok.mp made
  obtain ⟨privateKey, dns, -, -, -, written⟩ := canonicalizeInterface_eq_ok.mp iface
  obtain ⟨listed, related, keys, prefixes, sorted⟩ := canonicalizePeers_eq_ok.mp peers
  have perm : found.peers.Perm listed := by
    rw [sorted]
    exact List.mergeSort_perm _ _
  constructor
  · rw [written]
    exact canonicalTable_canonical _
  · intro result member
    obtain ⟨peer, -, one⟩ := exists_of_mem related (perm.mem_iff.mp member)
    exact one.canonicalPeer inherited
  · exact (perm.map _).nodup_iff.mpr keys
  · exact (perm.flatMap_right _).nodup_iff.mpr prefixes
  · rw [sorted]
    exact peerLe_follows.mergeSort_mergeSort listed

end Loops

section FromConfig

variable (letters : Strings.LowerCase) (hash : NonSecretProjection → Text)

theorem canonicalPeer_of_active (active : Option (Desired letters)) :
    ∀ peer ∈ activePeers active, CanonicalPeer peer := by
  cases active with
  | none => exact fun _ => nofun
  | some desired => exact desired.canonical.peers

/-- `hash` stands for the encoding of the projection and its SHA-256. -/
def fromConfig (cfg : Config) (active : Option (Desired letters)) :
    Except CanonicalError (Desired letters) :=
  match made : canonicalize letters cfg (activePeers active) with
  | .error err => .error err
  | .ok config =>
    .ok ⟨config, hash (nonSecretProjection config),
      canonicalConfig (canonicalPeer_of_active letters active) made⟩

variable {letters hash} {cfg : Config} {active : Option (Desired letters)}
  {desired : Desired letters}

theorem fromConfig_eq_ok : fromConfig letters hash cfg active = .ok desired ↔
      canonicalize letters cfg (activePeers active) = .ok desired.config ∧
        desired.digest = hash (nonSecretProjection desired.config) := by
  unfold fromConfig
  split
  · next err refused =>
    rw [refused]
    exact ⟨nofun, nofun⟩
  next config made =>
  obtain ⟨other, digest, canonical⟩ := desired
  constructor
  · rintro ⟨⟩
    exact ⟨made, rfl⟩
  · rintro ⟨again, digested⟩
    cases made.symm.trans again
    change digest = _ at digested
    rw [digested]

theorem fromConfig_eq_error {err : CanonicalError}
    (refused : canonicalize letters cfg (activePeers active) = .error err) :
    fromConfig letters hash cfg active = .error err := by
  unfold fromConfig
  split
  · next other found => rw [Except.error.inj (found.symm.trans refused)]
  · next config made => cases refused.symm.trans made

end FromConfig

/-! ## Canonicalizing again -/

section Again

variable {letters : Strings.LowerCase} {hash : NonSecretProjection → Text}

theorem canonicalizeDNS_canonical {number : Nat} {entries found : List Text}
    (made : canonicalizeDNS letters number entries = .ok found) (again : Nat) :
    canonicalizeDNS letters again found = .ok found := by
  induction entries generalizing number again found with
  | nil =>
    cases made
    rfl
  | cons entry rest ih =>
    rw [canonicalizeDNS] at made
    simp only [bind_eq_ok, pure_eq_ok] at made
    obtain ⟨first, one, others, later, rfl⟩ := made
    rw [canonicalizeDNS, canonicalDNS_canonical one again, ih later (again + 1)]
    rfl

theorem canonicalizeInterface_canonical {iface found : Interface}
    (made : canonicalizeInterface letters iface = .ok found) :
    canonicalizeInterface letters found = .ok found := by
  obtain ⟨privateKey, dns, key, addresses, domains, rfl⟩ := canonicalizeInterface_eq_ok.mp made
  obtain ⟨valid, nodup, -⟩ := checkAddresses_eq_ok.mp addresses
  have perm := sortPrefixes_perm iface.addresses
  refine canonicalizeInterface_eq_ok.mpr ⟨privateKey, dns, canonicalKey_self key,
    checkAddresses_eq_ok.mpr ⟨fun address member => valid address (perm.mem_iff.mp member),
      perm.nodup_iff.mpr nodup, by simp⟩, canonicalizeDNS_canonical domains 1, ?_⟩
  simp only [canonicalTable_canonical, sortPrefixes_sortPrefixes]
  split <;> simp_all

theorem orDefault_orDefault (value fallback : Text) :
    orDefault (orDefault value fallback) fallback = orDefault value fallback := by
  unfold orDefault
  split
  · split <;> rfl
  · rfl

theorem canonicalizeTransport_canonical {transport found : Transport}
    (made : canonicalizeTransport transport = .ok found) :
    canonicalizeTransport found = .ok found := by
  obtain ⟨⟨⟩, checked, rfl⟩ := Fallible.map_eq_ok.mp made
  have settled : withDefaults (withDefaults transport) = withDefaults transport := by
    simp only [withDefaults, orDefault_orDefault]
  rw [canonicalizeTransport, settled, checked]
  rfl

/-- A canonical peer stays what it is when its endpoint does. -/
theorem CanonicalPeer.canonicalizes {peer : Peer} {active : List Peer}
    (canonical : CanonicalPeer peer)
    (same : ∀ other, activePeer active peer.publicKey = some other →
      peer.presharedKey = [] → other.presharedKey = [])
    (endpoint : canonicalPeerEndpoint letters peer.endpoint = .ok peer.endpoint) :
    Canonicalizes letters active peer peer where
  publicKey := canonical.publicKey
  presharedKey := by
    unfold canonicalPresharedKey
    split
    · next empty =>
      cases known : activePeer active peer.publicKey with
      | none => rw [empty]; rfl
      | some other =>
        rw [empty, ← same other known empty]
        rfl
    · next filled => exact canonical.presharedKey.resolve_left filled
  endpoint := endpoint
  persistentKeepalive := rfl
  fecPolicy := by
    have filled : peer.fecPolicy ≠ [] := by
      intro empty
      have known := canonical.fecPolicy
      rw [empty] at known
      exact absurd known (by decide)
    exact (if_neg filled).symm
  known := canonical.fecPolicy
  valid := canonical.valid
  allowedIPs := by
    rw [List.map_congr_left canonical.masked, List.map_id', canonical.sorted]

/-- No second pass is refused: the endpoint of no peer becomes the unspecified address. -/
def Specified (letters : Strings.LowerCase) (peers : List Peer) : Prop :=
  ∀ peer ∈ peers, ∀ port, canonicalEndpoint letters peer.endpoint ≠ .ok (unspecifiedEndpoint port)

theorem canonicalPeerEndpoint_canonical {value found : Text}
    (made : canonicalPeerEndpoint letters value = .ok found)
    (specified : ∀ port, canonicalEndpoint letters value ≠ .ok (unspecifiedEndpoint port)) :
    canonicalPeerEndpoint letters found = .ok found := by
  unfold canonicalPeerEndpoint at made
  split at made
  · cases made
    rfl
  · rcases canonicalEndpoint_canonical made with ⟨again, -⟩ | ⟨-, port, rfl⟩
    · unfold canonicalPeerEndpoint
      split
      · next empty => rw [empty]
      · exact again
    · exact absurd made (specified port)

theorem canonicalPeerEndpoint_unspecified {value again : Text} {port : Nat}
    (made : canonicalEndpoint letters value = .ok (unspecifiedEndpoint port)) :
    canonicalPeerEndpoint letters (unspecifiedEndpoint port) ≠ .ok again := by
  rw [canonicalPeerEndpoint]
  rcases canonicalEndpoint_canonical made with ⟨-, other⟩ | ⟨refused, -⟩
  · exact absurd rfl (other port)
  · rw [refused]
    exact nofun

variable {cfg : Config} {active : List Peer} {found : Config}

theorem canonicalize_again (made : canonicalize letters cfg active = .ok found)
    (canonical : CanonicalConfig letters found) (specified : Specified letters cfg.peers)
    (later : List Peer)
    (inherits : ∀ peer ∈ found.peers, ∀ other, activePeer later peer.publicKey = some other →
      peer.presharedKey = [] → other.presharedKey = []) :
    canonicalize letters found later = .ok found := by
  obtain ⟨iface, transport, peers, checked⟩ := canonicalize_eq_ok.mp made
  obtain ⟨listed, related, -, -, sorted⟩ := canonicalizePeers_eq_ok.mp peers
  refine canonicalize_eq_ok.mpr ⟨canonicalizeInterface_canonical iface,
    canonicalizeTransport_canonical transport, canonicalizePeers_eq_ok.mpr ⟨found.peers, ?_,
      canonical.keys, canonical.prefixes, canonical.sorted.symm⟩, checked⟩
  refine List.forall₂_same.mpr fun result member => ?_
  have inListed : result ∈ listed := by
    rw [sorted] at member
    exact (List.mergeSort_perm _ _).mem_iff.mp member
  obtain ⟨peer, source, one⟩ := exists_of_mem related inListed
  exact (canonical.peers result member).canonicalizes (inherits result member)
    (canonicalPeerEndpoint_canonical one.endpoint (specified peer source))

theorem specified_of_again (made : canonicalize letters cfg active = .ok found)
    {later : List Peer} {again : Config}
    (accepted : canonicalize letters found later = .ok again) : Specified letters cfg.peers := by
  intro peer member port unspecified
  obtain ⟨-, -, peers, -⟩ := canonicalize_eq_ok.mp made
  obtain ⟨listed, related, -, -, sorted⟩ := canonicalizePeers_eq_ok.mp peers
  obtain ⟨result, inListed, one⟩ := exists_of_mem related.flip member
  have endpoint : result.endpoint = unspecifiedEndpoint port := by
    have written := one.endpoint
    unfold canonicalPeerEndpoint at written
    split at written
    · next empty =>
      rw [empty] at unspecified
      cases unspecified
    · exact Except.ok.inj (written.symm.trans unspecified)
  have inFound : result ∈ found.peers := by
    rw [sorted]
    exact (List.mergeSort_perm _ _).mem_iff.mpr inListed
  obtain ⟨-, -, secondPeers, -⟩ := canonicalize_eq_ok.mp accepted
  obtain ⟨_, secondRelated, -⟩ := canonicalizePeers_eq_ok.mp secondPeers
  obtain ⟨_, -, second⟩ := exists_of_mem secondRelated.flip inFound
  have refused := second.endpoint
  rw [endpoint] at refused
  exact canonicalPeerEndpoint_unspecified unspecified refused

theorem fromConfig_again (cfg : Config) (active : Option (Desired letters))
    (desired : Desired letters) (made : fromConfig letters hash cfg active = .ok desired) :
    ((fromConfig letters hash desired.config none = .ok desired ∧
        fromConfig letters hash desired.config (some desired) = .ok desired) ↔
      ∀ peer ∈ cfg.peers, ∀ port,
        canonicalEndpoint letters peer.endpoint ≠ .ok (unspecifiedEndpoint port)) ∧
    ∀ peer ∈ cfg.peers,
      (∃ port, canonicalEndpoint letters peer.endpoint = .ok (unspecifiedEndpoint port)) ↔
        ∃ spec, PeerEndpoint.parse peer.endpoint = .ok spec ∧ spec.address = none ∧
          letters.text (Strings.trimSuffix ['.'] (Strings.trimSpace spec.host)) =
            "0.0.0.0".toList := by
  refine ⟨?_, fun _ _ => canonicalEndpoint_unspecified⟩
  obtain ⟨found, digest⟩ := fromConfig_eq_ok.mp made
  constructor
  · rintro ⟨again, -⟩
    exact specified_of_again found (fromConfig_eq_ok.mp again).1
  · intro specified
    have again := canonicalize_again found desired.canonical specified
    constructor
    · exact fromConfig_eq_ok.mpr ⟨again [] nofun, digest⟩
    · refine fromConfig_eq_ok.mpr ⟨again desired.config.peers ?_, digest⟩
      intro peer member other known empty
      have same : activePeer desired.config.peers peer.publicKey = some peer :=
        Keyed.last_of_mem desired.canonical.keys member
      cases same.symm.trans known
      exact empty

/-- One peer at an endpoint; both keys are zero. -/
def reachedAt (endpoint : String) : Config where
  interface := { privateKey := List.replicate 43 'A' ++ ['='] }
  peers := [{ publicKey := List.replicate 43 'A' ++ ['='], endpoint := endpoint.toList }]
  transport := defaultTransport

/-- The canonical form of such a configuration. -/
def canonicalReachedAt (endpoint : String) : Config where
  interface :=
    { privateKey := List.replicate 43 'A' ++ ['='], mtu := 1280, table := "auto".toList }
  peers := [{
    publicKey := List.replicate 43 'A' ++ ['=']
    endpoint := endpoint.toList
    fecPolicy := defaultFECPolicy }]
  transport := defaultTransport

/-- With its trailing dot gone, a host name is the unspecified address. -/
theorem trailing_dot_refused_again :
    ∃ desired, fromConfig .plain (fun _ => []) (reachedAt "0.0.0.0.:51820") none = .ok desired ∧
      fromConfig .plain (fun _ => []) desired.config none = .error (.endpoint 1 .unspecified) := by
  have made : canonicalize .plain (reachedAt "0.0.0.0.:51820") [] =
      .ok (canonicalReachedAt "0.0.0.0:51820") := by decide +kernel
  have refused : canonicalize .plain (canonicalReachedAt "0.0.0.0:51820") [] =
      .error (.endpoint 1 .unspecified) := by decide +kernel
  exact ⟨⟨_, [], canonicalConfig (canonicalPeer_of_active .plain none) made⟩,
    fromConfig_eq_ok.mpr ⟨made, rfl⟩, fromConfig_eq_error refused⟩

theorem hostname_kept_again :
    ∃ desired, fromConfig .plain (fun _ => []) (reachedAt "VPN.example.:51820") none = .ok desired ∧
      fromConfig .plain (fun _ => []) desired.config none = .ok desired ∧
      fromConfig .plain (fun _ => []) desired.config (some desired) = .ok desired := by
  have made : canonicalize .plain (reachedAt "VPN.example.:51820") [] =
      .ok (canonicalReachedAt "vpn.example:51820") := by decide +kernel
  have found : fromConfig .plain (fun _ => []) (reachedAt "VPN.example.:51820") none =
      .ok ⟨_, [], canonicalConfig (canonicalPeer_of_active .plain none) made⟩ :=
    fromConfig_eq_ok.mpr ⟨made, rfl⟩
  refine ⟨_, found, (fromConfig_again _ _ _ found).1.mpr ?_⟩
  intro peer member port
  rw [List.mem_singleton.mp member]
  exact nofun

end Again

end WgQuic.Canonical
